import TrieLexer.Proofs.Compiled
import TrieLexer.Proofs.Window

/-!
# Chunks of input

A scanner that is reached by any calls stands where a scan in reading order stands. So it makes no
difference how the input is cut into chunks: neither for the tokens nor for what the scanner
remembers, nor for the faults.

## Main definitions

* `Scanner.Reaches` — where a scanner stands.

## Main results

* `Scanner.Reaches.performAll` — scanners that are reached stand somewhere.
* `Scanner.Reaches.consume_append` — a chunk may be cut in two.
* `Grammar.chunking` — the tokens of an input do not depend on its chunks.
-/

namespace TrieLexer

open Text (byteLength)

variable {τ : Type} {sink : Sink τ} {a : Automaton} {lexicon : Lexicon}
  {matchers : List (GreedyMatcher Compilation)} {place : NodeId → Locus}

theorem Reading.reset_at (r : Reading) (position start : Nat) :
    (r.at position).reset start = r.park.at start := by
  obtain ⟨c, run, idle⟩ := r
  cases run <;> rfl

/-- A scan that begins anew. -/
theorem Progress.reset_eq (p : Progress) (start : Nat) :
    p.reset start = ({ idle := (p.reset start).idle } : Reading).at start := by
  obtain ⟨node, buffer, base, position, run, idle⟩ := p
  cases run <;> rfl

/-- A chunk may be cut in two. -/
theorem Reading.Sound.scan_append (sink : Sink τ) {r : Reading} (hr : r.Sound a place 0)
    (h : Charted lexicon matchers a place) (position : Nat) (out : τ) (x y : String) :
    a.scan sink (r.at position) out (.chunk (x ++ y)) =
      a.scan sink (r.at position) out (.chunk x) >>= fun z => a.scan sink z.1 z.2 (.chunk y) := by
  rw [Automaton.scan, hr.scanWith_eq _ _ h, Reading.take, String.toList_append, Reading.read_append,
    Automaton.scan, hr.scanWith_eq _ _ h, Reading.take]
  cases hx : r.read a a.inner x.toList with
  | error e => rfl
  | ok z =>
    obtain ⟨r₁, ls₁⟩ := z
    rw [ok_bind, map_ok, ok_bind]
    refine Eq.trans ?_ ((hr.read h hx).scanWith_eq sink _ h _ _ (.chunk y)).symm
    rw [Reading.take]
    change _ <$> (r₁.read a a.inner y.toList >>= _) = _
    cases r₁.read a a.inner y.toList with
    | error e => rfl
    | ok w =>
      obtain ⟨r₂, ls₂⟩ := w
      refine congrArg Except.ok (Prod.ext ?_ ?_)
      · change r₂.at (position + byteLength (spelled (ls₁ ++ ls₂))) = _
        rw [spelled_append, Text.byteLength_append, ← Nat.add_assoc]
        rfl
      · change (listing position (ls₁ ++ ls₂)).foldl sink out = _
        rw [listing_append, List.foldl_append]
        rfl

/-- Nothing happens on an empty chunk. -/
theorem Reading.Sound.scan_empty (sink : Sink τ) {r : Reading} (hr : r.Sound a place 0)
    (h : Charted lexicon matchers a place) (position : Nat) (out : τ) :
    a.scan sink (r.at position) out (.chunk "") = .ok (r.at position, out) := by
  rw [Automaton.scan, hr.scanWith_eq _ _ h]
  rfl

namespace Scanner

variable {s s' : Scanner} {out out' : τ}

/-- A scanner stands at a position where a scan in reading order stands. -/
structure Reaches (place : NodeId → Locus) (s : Scanner) (r : Reading) (position : Nat) :
    Prop where
  progress : s.progress = r.at position
  sound : r.Sound s.automaton place 0

theorem reaches_ofAutomaton (h : Charted lexicon matchers a place) :
    (ofAutomaton a).Reaches place { idle := Array.replicate a.runs.length none } 0 :=
  ⟨rfl, Reading.sound_root h 0 _⟩

namespace Reaches

variable {r : Reading} {position : Nat}

/-- What a scanner does with a chunk of input or its end. -/
theorem handle_eq (hs : s.Reaches place r position)
    (h : Charted lexicon matchers s.automaton place) (out : τ) (input : Input) :
    s.handle sink out input = (fun x : Progress × τ => ({ s with progress := x.1 }, x.2)) <$>
      Reading.deliverAt sink position out <$> r.take s.automaton s.automaton.inner input := by
  rw [handle, hs.progress, Automaton.scan, hs.sound.scanWith_eq sink _ h position out input]
  rfl

theorem handle (hs : s.Reaches place r position) (h : Charted lexicon matchers s.automaton place)
    {input : Input} (hy : s.handle sink out input = .ok (s', out')) :
    ∃ r' ls, r.take s.automaton s.automaton.inner input = .ok (r', ls) ∧
      s'.automaton = s.automaton ∧ s'.Reaches place r' (position + byteLength (spelled ls)) ∧
      out' = (listing position ls).foldl sink out := by
  rw [hs.handle_eq h] at hy
  cases ht : r.take s.automaton s.automaton.inner input with
  | error e => rw [ht] at hy; cases hy
  | ok x =>
    rw [ht] at hy
    cases hy
    exact ⟨x.1, x.2, rfl, rfl, ⟨rfl, hs.sound.take h ht⟩, rfl⟩

theorem reset (hs : s.Reaches place r position) (h : Charted lexicon matchers s.automaton place)
    (start : Nat) : (s.reset start).Reaches place r.park start := by
  refine ⟨?_, Reading.sound_park h r⟩
  rw [Scanner.reset, hs.progress]
  exact r.reset_at position start

/-- What scans keep and what holds when they begin anew, a call keeps. -/
theorem perform_keeps (hs : s.Reaches place r position)
    (h : Charted lexicon matchers s.automaton place) (P : Reading → Prop)
    (hpark : ∀ r : Reading, P r.park)
    (htake : ∀ {r r' : Reading} {input : Input} {ls : List Lexeme}, r.Sound s.automaton place 0 →
      P r → r.take s.automaton s.automaton.inner input = .ok (r', ls) → P r')
    (hr : P r) {call : Call} (hy : s.perform sink out call = .ok (s', out')) :
    s'.automaton = s.automaton ∧ ∃ r' position', s'.Reaches place r' position' ∧ P r' := by
  cases call with
  | consume chunk =>
    obtain ⟨r', ls, ht, ha, hs', -⟩ := hs.handle h hy
    exact ⟨ha, r', _, hs', htake hs.sound hr ht⟩
  | flush =>
    obtain ⟨r', ls, ht, ha, hs', -⟩ := hs.handle h hy
    exact ⟨ha, r', _, hs', htake hs.sound hr ht⟩
  | reset start =>
    cases hy
    exact ⟨rfl, r.park, start, hs.reset h start, hpark r⟩
  | tokenize input =>
    obtain ⟨⟨s₁, out₁⟩, hconsume, hflush⟩ := bind_eq_ok.1 hy
    have hreset := hs.reset h 0
    obtain ⟨r₁, ls₁, ht₁, ha₁, hs₁, -⟩ := hreset.handle h hconsume
    obtain ⟨r₂, ls₂, ht₂, ha₂, hs₂, -⟩ := hs₁.handle (ha₁ ▸ h) hflush
    rw [ha₁] at ht₂
    exact ⟨ha₂.trans ha₁, r₂, _, hs₂,
      htake (ha₁ ▸ hs₁.sound) (htake hreset.sound (hpark r) ht₁) ht₂⟩

/-- What scans keep and what holds when they begin anew, calls keep. -/
theorem performAll_keeps (hs : s.Reaches place r position)
    (h : Charted lexicon matchers s.automaton place) (P : Reading → Prop)
    (hpark : ∀ r : Reading, P r.park)
    (htake : ∀ {r r' : Reading} {input : Input} {ls : List Lexeme}, r.Sound s.automaton place 0 →
      P r → r.take s.automaton s.automaton.inner input = .ok (r', ls) → P r')
    (hr : P r) {calls : List Call} (hy : s.performAll sink out calls = .ok (s', out')) :
    s'.automaton = s.automaton ∧ ∃ r' position', s'.Reaches place r' position' ∧ P r' := by
  induction calls generalizing s out r position with
  | nil =>
    cases hy
    exact ⟨rfl, r, position, hs, hr⟩
  | cons call calls ih =>
    obtain ⟨⟨s₁, out₁⟩, hcall, hcalls⟩ := bind_eq_ok.1 hy
    obtain ⟨ha₁, r₁, position₁, hs₁, hr₁⟩ := hs.perform_keeps h P hpark htake hr hcall
    obtain ⟨ha, hs'⟩ := ih hs₁ (ha₁ ▸ h) (ha₁ ▸ htake) hr₁ hcalls
    exact ⟨ha.trans ha₁, hs'⟩

/-- Calls lead to places where a scanner can stand. -/
theorem performAll (hs : s.Reaches place r position)
    (h : Charted lexicon matchers s.automaton place) {calls : List Call}
    (hy : s.performAll sink out calls = .ok (s', out')) :
    s'.automaton = s.automaton ∧ ∃ r' position', s'.Reaches place r' position' := by
  obtain ⟨ha, r', position', hs', -⟩ := hs.performAll_keeps h (fun _ => True) (fun _ => trivial)
    (fun _ _ _ => trivial) trivial hy
  exact ⟨ha, r', position', hs'⟩

/-- A chunk may be cut in two. -/
theorem consume_append (hs : s.Reaches place r position)
    (h : Charted lexicon matchers s.automaton place) (out : τ) (x y : String) :
    s.consume sink out (x ++ y) = s.consume sink out x >>= fun z => z.1.consume sink z.2 y := by
  obtain ⟨automaton, progress⟩ := s
  obtain rfl := hs.progress
  have happend := hs.sound.scan_append sink h position out x y
  simp only [consume, Scanner.handle, happend, bind_assoc, pure_bind]

/-- Nothing happens on an empty chunk. -/
theorem consume_empty (hs : s.Reaches place r position)
    (h : Charted lexicon matchers s.automaton place) (out : τ) :
    s.consume sink out "" = .ok (s, out) := by
  obtain ⟨automaton, progress⟩ := s
  obtain rfl := hs.progress
  have hempty := hs.sound.scan_empty sink h position out
  rw [consume, Scanner.handle, hempty]
  rfl

/-- Chunks are consumed as their concatenation is. -/
theorem performAll_consume (hs : s.Reaches place r position)
    (h : Charted lexicon matchers s.automaton place) (out : τ) (chunks : List String) :
    s.performAll sink out (chunks.map .consume) = s.consume sink out (String.join chunks) := by
  induction chunks generalizing s r position out with
  | nil =>
    rw [String.join_nil, hs.consume_empty h]
    rfl
  | cons chunk chunks ih =>
    rw [String.join_cons, hs.consume_append h]
    change s.consume sink out chunk >>= _ = _
    cases hy : s.consume sink out chunk with
    | error e => rfl
    | ok z =>
      obtain ⟨r₁, ls₁, -, ha₁, hs₁, -⟩ := hs.handle h hy
      exact ih hs₁ (ha₁ ▸ h) z.2

end Reaches

theorem performAll_append (s : Scanner) (out : τ) (calls more : List Call) :
    s.performAll sink out (calls ++ more) =
      s.performAll sink out calls >>= fun z => z.1.performAll sink z.2 more := by
  induction calls generalizing s out with
  | nil => rfl
  | cons call calls ih => simp only [List.cons_append, performAll, ih, bind_assoc]

end Scanner

/-- However the input of a scanner is cut into chunks, it finds the same tokens, remembers the same
and fails alike. So all chunks and the end of input give what the whole input gives. -/
theorem Grammar.chunking {g : Grammar} {a : Automaton} (h : g.compile.result = .ok a)
    {calls : List Call} {s : Scanner} {out out' : τ}
    (hs : (Scanner.ofAutomaton a).performAll sink out calls = .ok (s, out')) {υ : Type}
    (sink : Sink υ) (tokens : υ) :
    (∀ x y : String, s.consume sink tokens (x ++ y) =
      s.consume sink tokens x >>= fun z => z.1.consume sink z.2 y) ∧
    (∀ chunks : List String,
      s.performAll sink tokens (.reset 0 :: chunks.map .consume ++ [.flush]) =
        s.perform sink tokens (.tokenize (String.join chunks))) ∧
    ∀ chunks : List String, Prod.snd <$>
      (Scanner.ofAutomaton a).performAll .collect #[] (chunks.map .consume ++ [.flush]) =
        List.toArray <$> a.tokenize (String.join chunks) := by
  obtain ⟨place, hchart⟩ := charted_compile h
  obtain ⟨ha, r, position, hs⟩ := (Scanner.reaches_ofAutomaton hchart).performAll hchart hs
  have hchart' : Charted g.toLexicon (compileMatchers g.greedyMatchers) s.automaton place :=
    ha ▸ hchart
  refine ⟨hs.consume_append hchart' tokens, fun chunks => ?_, fun chunks => ?_⟩
  · have hreset := hs.reset hchart' 0
    change (s.reset 0).performAll sink tokens (chunks.map .consume ++ [.flush]) = _
    rw [Scanner.performAll_append, hreset.performAll_consume hchart']
    change _ = (s.reset 0).consume sink tokens _ >>= _
    cases (s.reset 0).consume sink tokens (String.join chunks) with
    | error e => rfl
    | ok z =>
      change (z.1.flush sink z.2 >>= fun w => .ok w) = z.1.flush sink z.2
      cases z.1.flush sink z.2 <;> rfl
  · rw [Scanner.performAll_append, (Scanner.reaches_ofAutomaton hchart).performAll_consume hchart]
    change _ = _ <$> ((Scanner.ofAutomaton a).consume .collect #[] (String.join chunks) >>=
      fun z => z.1.flush .collect z.2) >>= _
    cases (Scanner.ofAutomaton a).consume .collect #[] (String.join chunks) with
    | error e => rfl
    | ok z =>
      change Prod.snd <$> (z.1.flush .collect z.2 >>= fun w => .ok w) =
        List.toArray <$> (z.1.flush .collect z.2 >>= fun w => .ok w.2.toList)
      cases z.1.flush .collect z.2 <;> rfl

/-- The scan of a whole input. -/
theorem Automaton.exists_scan {a : Automaton} {text : String} {all : List Token}
    (hall : a.tokenize text = .ok all) : ∃ s found s' found',
      (Scanner.ofAutomaton a).consume .collect #[] text = .ok (s, found) ∧
      s.flush .collect found = .ok (s', found') ∧ found'.toList = all := by
  obtain ⟨⟨s', found'⟩, hscan, hall⟩ := bind_eq_ok.1 hall
  obtain ⟨⟨s, found⟩, hconsume, hflush⟩ := bind_eq_ok.1 hscan
  cases hall
  exact ⟨s, found, s', found', hconsume, hflush, rfl⟩

theorem eq_ok_of_toOption {ε α : Type} {x : Except ε α} {y : α} (h : x.toOption = some y) :
    x = .ok y := by
  cases x with
  | error e => cases h
  | ok x =>
    cases h
    rfl

/-- A run of calls of a grammar that compiles. -/
theorem Grammar.exists_run (g : Grammar) (calls : List Call)
    (h : (g.compile.result.toOption.bind fun a =>
      ((Scanner.ofAutomaton a).performAll .collect #[] calls).toOption).isSome) :
    ∃ a s tokens, g.compile.result = .ok a ∧
      (Scanner.ofAutomaton a).performAll .collect #[] calls = .ok (s, tokens) := by
  obtain ⟨⟨s, tokens⟩, h⟩ := Option.isSome_iff_exists.1 h
  obtain ⟨a, ha, hs⟩ := Option.bind_eq_some_iff.1 h
  exact ⟨a, s, tokens, eq_ok_of_toOption ha, eq_ok_of_toOption hs⟩

/-- A grammar that compiles, and an input whose tokens are known. -/
theorem Grammar.exists_tokens {g : Grammar} {x : String} {tokens : List Token}
    (h : (g.compile.result.toOption.bind fun a => (a.tokenize x).toOption) = some tokens) :
    ∃ a, g.compile.result = .ok a ∧ a.tokenize x = .ok tokens := by
  obtain ⟨a, ha, htokens⟩ := Option.bind_eq_some_iff.1 h
  exact ⟨a, eq_ok_of_toOption ha, eq_ok_of_toOption htokens⟩

/-- A grammar with a delimiter and with runs in angle brackets, whose interiors have a grammar. -/
def Grammar.bracketed : Grammar where
  delimiters := [.named "semicolon" (.one ";")]
  greedyMatchers := [{
    kind := "bracketed", startsWith := "<", endsWith := some ">", escapesWith := some "\\"
    subGrammar := some { punctuation := [.bare "+"] } }]

/-- A chunk is cut inside the second run of a scanner that has been used before. -/
theorem Grammar.chunking_bracketed : ∃ a s tokens, bracketed.compile.result = .ok a ∧
    (Scanner.ofAutomaton a).performAll .collect #[] [.consume "a<é", .flush, .consume "b<c+"] =
      .ok (s, tokens) ∧
    s.consume .collect tokens ("+d" ++ "\\>e>;") =
      s.consume .collect tokens "+d" >>= fun z => z.1.consume .collect z.2 "\\>e>;" := by
  obtain ⟨a, s, tokens, ha, hs⟩ :=
    bracketed.exists_run [.consume "a<é", .flush, .consume "b<c+"] (by decide +kernel)
  exact ⟨a, s, tokens, ha, hs, (chunking ha hs .collect tokens).1 "+d" "\\>e>;"⟩

end TrieLexer
