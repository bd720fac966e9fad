import TrieLexer.Proofs.Interiors

/-!
# Tokens and the input

The tokens of a scan are stretches of its input, at the offsets that they name, in order and
without overlap. What belongs to no token yet is the end of the input so far.

## Main definitions

* `Cut` — tokens that lie in a text, one after the other.
* `Automaton.lexemes` — the lexemes of a whole input.

## Main results

* `Lawful.cut_scan` — the tokens of an inner scan lie in the interior.
* `Grammar.fidelity` — the tokens and the pending text of a scanner lie in its input.
-/

namespace TrieLexer

open Text (byteLength)

/-- Tokens that lie in a text, which begins at a position, one after the other. -/
inductive Cut : Nat → List Char → List Token → Prop
  | nil (position : Nat) (text : List Char) : Cut position text []
  | cons {position : Nat} (gap : List Char) {value rest : List Char} (kind : Label)
      {tokens : List Token} (hv : value ≠ [])
      (h : Cut (position + byteLength (gap ++ value)) rest tokens) :
      Cut position (gap ++ value ++ rest)
        (⟨String.ofList value, kind, position + byteLength gap⟩ :: tokens)

namespace Cut

variable {position : Nat} {text more : List Char} {tokens tokens' : List Token}

/-- Text before the tokens does not matter. -/
theorem skip (more : List Char) (h : Cut (position + byteLength more) text tokens) :
    Cut position (more ++ text) tokens := by
  cases h with
  | nil => exact .nil ..
  | @cons _ gap value rest kind tokens hv h =>
    have hcons : Cut position (more ++ gap ++ value ++ rest) (_ :: tokens) :=
      .cons (more ++ gap) kind hv (by simpa [Nat.add_assoc] using h)
    simpa [Nat.add_assoc] using hcons

theorem append (h : Cut position text tokens)
    (h' : Cut (position + byteLength text) more tokens') :
    Cut position (text ++ more) (tokens ++ tokens') := by
  induction h with
  | nil position text => exact h'.skip text
  | @cons position gap value rest kind tokens hv h ih =>
    rw [List.append_assoc]
    refine .cons gap kind hv (ih ?_)
    rwa [Nat.add_assoc, ← Text.byteLength_append]

theorem shifted (h : Cut position text tokens) (offset : Nat) :
    Cut (position + offset) text (tokens.map (·.shifted offset)) := by
  induction h with
  | nil position text => exact .nil ..
  | @cons position gap value rest kind tokens hv h ih =>
    rw [Nat.add_right_comm] at ih
    have hcons := Cut.cons gap kind hv ih
    rwa [Nat.add_right_comm] at hcons

theorem tokenAt (position : Nat) (text : List Char) (label : Option Label) :
    Cut position text (tokenAt position text label) := by
  cases label with
  | none => exact .nil ..
  | some kind =>
    rw [TrieLexer.tokenAt]
    split
    · exact .nil ..
    · next hne =>
      have hcons : Cut position ([] ++ text ++ []) [⟨String.ofList text, kind, position⟩] :=
        .cons [] kind (by simpa using hne) (.nil _ [])
      rwa [List.nil_append, List.append_nil] at hcons

/-- A token in a text is a slice of it. -/
theorem mem (h : Cut position text tokens) {t : Token} (ht : t ∈ tokens) :
    t.value ≠ "" ∧ ∃ before after, text = before ++ t.value.toList ++ after ∧
      t.position = position + byteLength before := by
  induction h with
  | nil => cases ht
  | @cons position gap value rest kind tokens hv h ih =>
    rcases List.mem_cons.1 ht with rfl | ht
    · refine ⟨?_, gap, rest, by rw [String.toList_ofList], rfl⟩
      rwa [ne_eq, ← String.toList_inj, String.toList_ofList]
    · obtain ⟨hne, before, after, hrest, hp⟩ := ih ht
      refine ⟨hne, gap ++ value ++ before, after, by rw [hrest]; simp, ?_⟩
      rw [hp, Nat.add_assoc, ← Text.byteLength_append]

/-- The tokens do not overlap. -/
theorem pairwise (h : Cut position text tokens) :
    tokens.Pairwise fun t u => t.position < u.position ∧ t.stop ≤ u.position := by
  induction h with
  | nil => exact .nil
  | @cons position gap value rest kind tokens hv h ih =>
    refine List.pairwise_cons.2 ⟨fun u hu => ?_, ih⟩
    obtain ⟨-, before, after, -, hp⟩ := h.mem hu
    have hlength : 0 < byteLength value := Text.byteLength_pos_iff.2 hv
    simp only [Token.stop, String.toList_ofList]
    rw [Text.byteLength_append] at hp
    omega

end Cut

/-- A token in a text ends in the text. -/
theorem Cut.stop_le {position : Nat} {text : List Char} {tokens : List Token}
    (h : Cut position text tokens) {t : Token} (ht : t ∈ tokens) :
    t.stop ≤ position + byteLength text := by
  obtain ⟨-, before, after, rfl, hp⟩ := h.mem ht
  rw [Token.stop, Text.byteLength_append, Text.byteLength_append]
  omega

/-- A token in a text is not empty. -/
theorem Cut.lt_stop {position : Nat} {text : List Char} {tokens : List Token}
    (h : Cut position text tokens) {t : Token} (ht : t ∈ tokens) :
    position ≤ t.position ∧ t.position < t.stop := by
  obtain ⟨hne, before, after, -, hposition⟩ := h.mem ht
  have hpos : 0 < byteLength t.value.toList :=
    Text.byteLength_pos_iff.2 fun hnil => hne (String.toList_eq_nil_iff.1 hnil)
  rw [Token.stop]
  omega

/-- A token in a text is the slice of it between its offsets. -/
theorem Cut.span? {position : Nat} {x : String} {tokens : List Token}
    (h : Cut position x.toList tokens) {t : Token} (ht : t ∈ tokens) :
    t.value ≠ "" ∧ position ≤ t.position ∧
      Text.span? x (t.position - position) (t.stop - position) = some t.value := by
  obtain ⟨hne, before, after, hx, hp⟩ := h.mem ht
  refine ⟨hne, by omega, Text.span?_eq_some_iff.2
    ⟨String.ofList before, String.ofList after, ?_, ?_, ?_⟩⟩
  · rw [← String.toList_inj, String.toList_append, String.toList_append, String.toList_ofList,
      String.toList_ofList, hx]
  · rw [Text.utf8ByteSize_eq, String.toList_ofList]
    omega
  · rw [Text.utf8ByteSize_eq, Token.stop]
    omega

/-! ### Lexemes -/

/-- The tokens of a lexeme lie in its text. -/
theorem Lexeme.cut (position : Nat) {l : Lexeme}
    (h : ∀ opener interior terminator c tokens, l = .nested opener interior terminator c tokens →
      Cut 0 interior tokens) : Cut position l.text (l.tokens position) := by
  cases l with
  | plain text label => exact Cut.tokenAt position text label
  | whole text c => exact Cut.tokenAt position text (some c.label)
  | nested opener interior terminator c tokens =>
    have hinterior := (h _ _ _ _ _ rfl).shifted (position + byteLength opener)
    rw [Nat.zero_add] at hinterior
    exact ((Cut.tokenAt position opener _).append hinterior).append (.tokenAt ..)

theorem cut_listing (position : Nat) {ls : List Lexeme}
    (h : ∀ opener interior terminator c tokens, .nested opener interior terminator c tokens ∈ ls →
      Cut 0 interior tokens) : Cut position (spelled ls) (listing position ls) := by
  induction ls generalizing position with
  | nil => exact .nil ..
  | cons l ls ih =>
    refine (l.cut position fun opener interior terminator c tokens hl => ?_).append
      (ih _ fun opener interior terminator c tokens hl => ?_)
    · exact h opener interior terminator c tokens (hl ▸ List.mem_cons_self)
    · exact h opener interior terminator c tokens (List.mem_cons_of_mem _ hl)

theorem foldl_collect (tokens : List Token) (out : Array Token) :
    (tokens.foldl Sink.collect out).toList = out.toList ++ tokens := by
  induction tokens generalizing out with
  | nil => rw [List.foldl_nil, List.append_nil]
  | cons t tokens ih =>
    rw [List.foldl_cons, ih, Sink.collect, Array.toList_push, List.append_assoc]
    rfl

/-- Only runs that exist are scanned. -/
theorem Automaton.exists_of_inner {a : Automaton} {id : RunId} {p : Progress}
    {tokens : Array Token} {input : Input} {z : Progress × Array Token}
    (h : a.inner id p tokens input = .ok z) : ∃ spec, a.runs[id]? = some spec := by
  obtain ⟨graph, runs⟩ := a
  rw [inner] at h
  induction runs generalizing id with
  | nil => cases h
  | cons run runs ih =>
    cases id with
    | zero => exact ⟨run, rfl⟩
    | succ id => exact ih (by rwa [innerAt] at h)

/-- A whole scan is read in two parts, the text and its end. Their lexemes spell the text, and the
tokens are those of the lexemes. -/
theorem Charted.reads_scan {lexicon : Lexicon} {matchers : List (GreedyMatcher Compilation)}
    {a : Automaton} {place : NodeId → Locus} (h : Charted lexicon matchers a place)
    (htakes : ∀ id spec, a.runs[id]? = some spec → a.inner.Takes id) {q p p' : Progress}
    {x : String} {start tokens : Array Token}
    (hchunk : a.scan .collect (q.reset 0) #[] (.chunk x) = .ok (p, start))
    (hdone : a.scan .collect p start .done = .ok (p', tokens)) :
    ∃ r₁ ls₁ r₂ ls₂,
      Reading.take a a.inner { idle := (q.reset 0).idle } (.chunk x) = .ok (r₁, ls₁) ∧
      r₁.take a a.inner .done = .ok (r₂, ls₂) ∧ r₁.Sound a place 0 ∧
      spelled (ls₁ ++ ls₂) = x.toList ∧ tokens.toList = listing 0 (ls₁ ++ ls₂) ∧
      ∀ l ∈ ls₁ ++ ls₂, l.Scanned a.inner := by
  have hroot := Reading.sound_root h 0 (q.reset 0).idle
  rw [q.reset_eq 0, Automaton.scan, hroot.scanWith_eq _ _ h] at hchunk
  cases hread : Reading.take a a.inner { idle := (q.reset 0).idle } (.chunk x) with
  | error e => rw [hread] at hchunk; cases hchunk
  | ok z =>
    rw [hread] at hchunk
    cases hchunk
    obtain ⟨r₁, ls₁⟩ := z
    have hsound := hroot.take h hread
    obtain ⟨hfed, hls₁⟩ := hroot.take_scanned htakes (Reading.fed_of_run_eq_none rfl) h hread
    rw [Automaton.scan, hsound.scanWith_eq _ _ h] at hdone
    cases hfinish : r₁.take a a.inner .done with
    | error e => rw [hfinish] at hdone; cases hdone
    | ok w =>
      rw [hfinish] at hdone
      cases hdone
      obtain ⟨r₂, ls₂⟩ := w
      obtain ⟨-, hls₂⟩ := hsound.take_scanned htakes hfed h hfinish
      refine ⟨r₁, ls₁, r₂, ls₂, rfl, hfinish, hsound, ?_, ?_,
        List.forall_mem_append.2 ⟨hls₁, hls₂⟩⟩
      · rw [spelled_append, (Reading.finish_spelled hfinish).1]
        exact Reading.read_spelled hread
      · change ((listing (0 + byteLength (spelled ls₁)) ls₂).foldl Sink.collect
          ((listing 0 ls₁).foldl Sink.collect #[])).toList = _
        rw [foldl_collect, foldl_collect, List.nil_append, ← listing_append]

/-- The lexemes of a whole input. -/
def Automaton.lexemes (a : Automaton) (x : String) : Except ScanFault (List Lexeme) := do
  let (r, ls) ← Reading.take a a.inner { idle := Array.replicate a.runs.length none } (.chunk x)
  let (_, ms) ← r.take a a.inner .done
  return ls ++ ms

/-- The tokens of a whole input are those of its lexemes. -/
theorem Charted.tokenize_eq {lexicon : Lexicon} {matchers : List (GreedyMatcher Compilation)}
    {a : Automaton} {place : NodeId → Locus} (h : Charted lexicon matchers a place) (x : String) :
    a.tokenize x = listing 0 <$> a.lexemes x := by
  have hs := (Scanner.reaches_ofAutomaton h).reset h 0
  rw [Automaton.tokenize, Scanner.scan, Scanner.consume, hs.handle_eq h, Automaton.lexemes]
  change _ <$> _ <$> Reading.take a a.inner { idle := Array.replicate a.runs.length none }
    (.chunk x) >>= _ >>= _ = _
  cases hread : Reading.take a a.inner { idle := Array.replicate a.runs.length none }
    (.chunk x) with
  | error e => rfl
  | ok z =>
    obtain ⟨r₁, ls₁⟩ := z
    have hs₁ : Scanner.Reaches place ⟨a, r₁.at (0 + byteLength (spelled ls₁))⟩ r₁ _ :=
      ⟨rfl, hs.sound.take h hread⟩
    change Scanner.handle .collect ⟨a, r₁.at (0 + byteLength (spelled ls₁))⟩
      ((listing 0 ls₁).foldl Sink.collect #[]) .done >>= _ = _
    rw [hs₁.handle_eq h]
    change _ <$> _ <$> r₁.take a a.inner .done >>= _ = listing 0 <$> (r₁.take a a.inner .done >>= _)
    cases r₁.take a a.inner .done with
    | error e => rfl
    | ok w =>
      obtain ⟨r₂, ls₂⟩ := w
      refine congrArg Except.ok ?_
      change ((listing (0 + byteLength (spelled ls₁)) ls₂).foldl Sink.collect
        ((listing 0 ls₁).foldl Sink.collect #[])).toList = listing 0 (ls₁ ++ ls₂)
      rw [foldl_collect, foldl_collect, List.nil_append, ← listing_append]

/-- Tokens come from lexemes. -/
theorem Charted.exists_lexemes {lexicon : Lexicon} {matchers : List (GreedyMatcher Compilation)}
    {a : Automaton} {place : NodeId → Locus} (h : Charted lexicon matchers a place) {x : String}
    {tokens : List Token} (hx : a.tokenize x = .ok tokens) :
    ∃ ls, a.lexemes x = .ok ls ∧ tokens = listing 0 ls := by
  rw [h.tokenize_eq] at hx
  cases hls : a.lexemes x with
  | error e =>
    rw [hls] at hx
    cases hx
  | ok ls =>
    rw [hls] at hx
    cases hx
    exact ⟨ls, rfl, rfl⟩

/-- The lexemes of a whole input are those of its characters and of its end. -/
theorem Automaton.exists_of_lexemes {a : Automaton} {x : String} {ls : List Lexeme}
    (hx : a.lexemes x = .ok ls) : ∃ r₁ ls₁ r₂ ls₂,
      Reading.read a a.inner { idle := Array.replicate a.runs.length none } x.toList =
        .ok (r₁, ls₁) ∧
      r₁.advance a a.inner .endOfInput = .ok (r₂, ls₂) ∧
      ls = ls₁ ++ (ls₂ ++ [.plain r₂.pending none]) := by
  obtain ⟨⟨r₁, ls₁⟩, hread, hx⟩ := bind_eq_ok.1 hx
  obtain ⟨⟨r₂, ls₂⟩, hfinish, hx⟩ := bind_eq_ok.1 hx
  cases hx
  obtain ⟨⟨r₃, out⟩, ha, hfinish⟩ := bind_eq_ok.1 hfinish
  cases hfinish
  exact ⟨r₁, ls₁, r₃, out, hread, ha, rfl⟩

/-- The lexemes of a whole input spell it. -/
theorem Automaton.spelled_lexemes {a : Automaton} {x : String} {ls : List Lexeme}
    (hx : a.lexemes x = .ok ls) : spelled ls = x.toList := by
  obtain ⟨⟨r₁, ls₁⟩, hread, hx⟩ := bind_eq_ok.1 hx
  obtain ⟨⟨r₂, ls₂⟩, hfinish, hx⟩ := bind_eq_ok.1 hx
  cases hx
  rw [spelled_append, (Reading.finish_spelled hfinish).1]
  exact Reading.read_spelled hread

/-- The tokens of an inner scan lie in the interior. -/
theorem Lawful.cut_scan {clean : Prop} {a : Automaton} (h : Lawful clean a) {q p p' : Progress}
    {x : String} {start tokens : Array Token}
    (hchunk : a.scan .collect (q.reset 0) #[] (.chunk x) = .ok (p, start))
    (hdone : a.scan .collect p start .done = .ok (p', tokens)) :
    Cut 0 x.toList tokens.toList := by
  induction h generalizing q p p' x start tokens with
  | @mk lexicon matchers a place hchart hlone hruns ih =>
    obtain ⟨r₁, ls₁, r₂, ls₂, -, -, -, hspelled, htokens, hscanned⟩ := hchart.reads_scan
      (fun id spec hs => (Lawful.mk hchart hlone hruns).takes hs) hchunk hdone
    rw [htokens, ← hspelled]
    refine cut_listing 0 fun opener interior terminator c tokens hl => ?_
    obtain ⟨id, p, scan, start, -, ⟨q, hq⟩, hd⟩ := hscanned _ hl
    obtain ⟨spec, hspec⟩ := Automaton.exists_of_inner hd
    rw [Automaton.inner_eq hspec] at hq hd
    have hcut := ih spec (List.mem_of_getElem? hspec) hq hd
    rwa [String.toList_ofList] at hcut

/-! ### Scanners -/

namespace Scanner

variable {τ : Type} {sink : Sink τ} {s s' : Scanner} {out : τ} {tokens : Array Token}
  {lexicon : Lexicon} {matchers : List (GreedyMatcher Compilation)} {place : NodeId → Locus}
  {r : Reading} {position start : Nat}

theorem Reaches.position_eq (h : s.Reaches place r position) : s.position = position := by
  rw [Scanner.position, h.progress]
  rfl

/-- What is pending for a scanner is what is pending for its scan. -/
theorem Reaches.pending_eq (h : s.Reaches place r position) :
    s.pending = String.ofList r.pending := by
  rw [pending, h.progress]
  change (Text.span? (r.at position).buffer (position - position) _).getD "" = _
  rw [r.size_at, Nat.sub_self]
  have hspan : Text.span? (r.at position).buffer 0 (byteLength r.pending) =
      some (String.ofList r.pending) := by
    refine Text.span?_eq_some_iff.2 ⟨"", "", ?_, rfl, ?_⟩
    · rw [Reading.at, Window.progress, String.empty_append, String.append_empty]
      simp
    · rw [Text.utf8ByteSize_eq, String.toList_ofList, Nat.zero_add]
  rw [hspan]
  rfl

/-- A reading that begins anew reads what it is given. -/
structure Reads (place : NodeId → Locus) (start : Nat) (x : String) (s : Scanner)
    (tokens : Array Token) (r : Reading) (ls : List Lexeme) : Prop where
  reaches : s.Reaches place r (start + byteLength (spelled ls))
  spelled : spelled ls ++ r.pending = x.toList
  tokens : tokens.toList = listing start ls
  scanned : ∀ l ∈ ls, l.Scanned s.automaton.inner

/-- Chunks and the end of input after a reset are read from the beginning. -/
theorem exists_reads {clean : Prop} (h : Charted lexicon matchers s.automaton place)
    (hlawful : Lawful clean s.automaton) (hs : s.Reaches place r position) {chunks : List String}
    {ended : Bool} (hrun : s.performAll .collect #[] (.reset start :: (chunks.map .consume ++
      if ended then [.flush] else [])) = .ok (s', tokens)) :
    s'.automaton = s.automaton ∧
      ∃ r' ls, Reads place start (String.join chunks) s' tokens r' ls := by
  have htakes (id : RunId) (spec : NestedRun Automaton) (hs : s.automaton.runs[id]? = some spec) :
      s.automaton.inner.Takes id := hlawful.takes hs
  have hreset := hs.reset h start
  have hpark : r.park.run = none ∧ r.park.pending = [] := by
    rw [Reading.park]
    split <;> exact ⟨rfl, rfl⟩
  have hfed : Reading.Fed s.automaton.inner r.park := Reading.fed_of_run_eq_none hpark.1
  change (s.reset start).performAll .collect #[] _ = _ at hrun
  rw [performAll_append, hreset.performAll_consume h] at hrun
  obtain ⟨⟨s₁, tokens₁⟩, hconsume, hrun⟩ := bind_eq_ok.1 hrun
  obtain ⟨r₁, ls₁, hread, ha₁, hs₁, rfl⟩ := hreset.handle h hconsume
  obtain ⟨hfed₁, hls₁⟩ := hreset.sound.take_scanned htakes hfed h hread
  have hspelled := Reading.read_spelled hread
  rw [hpark.2, List.nil_append] at hspelled
  cases ended with
  | false =>
    cases hrun
    exact ⟨ha₁, r₁, ls₁, hs₁, hspelled, by rw [foldl_collect, List.nil_append], ha₁ ▸ hls₁⟩
  | true =>
    obtain ⟨⟨s₂, tokens₂⟩, hflush, hrun⟩ := bind_eq_ok.1 hrun
    cases hrun
    obtain ⟨r₂, ls₂, hfinish, ha₂, hs₂, rfl⟩ := hs₁.handle (ha₁ ▸ h) hflush
    rw [ha₁] at hfinish ha₂
    obtain ⟨-, hls₂⟩ := (ha₁ ▸ hs₁.sound : r₁.Sound s.automaton place 0).take_scanned htakes hfed₁ h
      hfinish
    obtain ⟨hrest, hpending⟩ := Reading.finish_spelled hfinish
    refine ⟨ha₂, r₂, ls₁ ++ ls₂, ?_, ?_, ?_, ?_⟩
    · rwa [spelled_append, Text.byteLength_append, ← Nat.add_assoc]
    · rw [spelled_append, hrest, hpending, List.append_nil, hspelled]
    · rw [foldl_collect, foldl_collect, List.nil_append, ← listing_append]
    · exact ha₂ ▸ List.forall_mem_append.2 ⟨hls₁, hls₂⟩

end Scanner

/-- Whatever a scanner has done before, after a reset its position and its pending text keep step
with the input, and its tokens are stretches of the input that follow each other. -/
theorem Grammar.fidelity {τ : Type} {sink : Sink τ} {g : Grammar} {a : Automaton}
    (h : g.compile.result = .ok a) {calls : List Call} {s : Scanner} {out out' : τ}
    (hs : (Scanner.ofAutomaton a).performAll sink out calls = .ok (s, out')) {start : Nat}
    {chunks : List String} {ended : Bool} {s' : Scanner} {tokens : Array Token}
    (hrun : s.performAll .collect #[] (.reset start :: (chunks.map .consume ++
      if ended then [.flush] else [])) = .ok (s', tokens)) :
    s'.position + s'.pending.utf8ByteSize = start + (String.join chunks).utf8ByteSize ∧
      start ≤ s'.position ∧
      Text.span? (String.join chunks) (s'.position - start) (String.join chunks).utf8ByteSize =
        some s'.pending ∧
      (∀ t ∈ tokens.toList, t.value ≠ "" ∧ start ≤ t.position ∧
        Text.span? (String.join chunks) (t.position - start) (t.stop - start) = some t.value ∧
        t.stop ≤ s'.position) ∧
      tokens.toList.Pairwise fun t u => t.position < u.position ∧ t.stop ≤ u.position := by
  obtain ⟨place, hchart⟩ := charted_compile h
  obtain ⟨ha, r, position, hreach⟩ := (Scanner.reaches_ofAutomaton hchart).performAll hchart hs
  obtain rfl : s.automaton = a := ha
  have hlawful : Lawful False s.automaton := g.lawful_compile False.elim h
  obtain ⟨ha', r', ls, hreads⟩ := Scanner.exists_reads hchart hlawful hreach hrun
  have hsize : (String.join chunks).utf8ByteSize =
      byteLength (spelled ls) + byteLength r'.pending := by
    rw [Text.utf8ByteSize_eq, ← hreads.spelled, Text.byteLength_append]
  have hcut : Cut start (spelled ls) tokens.toList := by
    rw [hreads.tokens]
    refine cut_listing start fun opener interior terminator c tokens hl => ?_
    obtain ⟨id, p, scan, begun, -, ⟨q, hq⟩, hd⟩ := hreads.scanned _ hl
    obtain ⟨spec, hspec⟩ := Automaton.exists_of_inner hd
    rw [Automaton.inner_eq hspec] at hq hd
    rw [ha'] at hspec
    cases hlawful with
    | mk _ _ hruns =>
      have hinner := (hruns spec (List.mem_of_getElem? hspec)).cut_scan hq hd
      rwa [String.toList_ofList] at hinner
  rw [hreads.reaches.position_eq, hreads.reaches.pending_eq]
  have hwhole : Cut start (String.join chunks).toList tokens.toList := by
    have happend := hcut.append (.nil _ r'.pending)
    rwa [hreads.spelled, List.append_nil] at happend
  refine ⟨?_, Nat.le_add_right _ _, ?_, fun t ht => ?_, hcut.pairwise⟩
  · rw [Text.utf8ByteSize_eq, String.toList_ofList, hsize, Nat.add_assoc]
  · refine Text.span?_eq_some_iff.2 ⟨String.ofList (spelled ls), "", ?_, ?_, ?_⟩
    · rw [← String.toList_inj, ← hreads.spelled]
      simp
    · rw [Text.utf8ByteSize_eq, String.toList_ofList]
      omega
    · rw [Text.utf8ByteSize_eq, String.toList_ofList, hsize]
      omega
  · obtain ⟨hne, hle, hspan⟩ := hwhole.span? ht
    exact ⟨hne, hle, hspan, hcut.stop_le ht⟩

/-- Chunks that end inside a run and inside the text after it. -/
theorem Grammar.fidelity_bracketed : ∃ a s tokens, bracketed.compile.result = .ok a ∧
    (Scanner.ofAutomaton a).performAll .collect #[] (.reset 7 :: (["é<c", "+>;d"].map .consume ++
      if false then [.flush] else [])) = .ok (s, tokens) ∧
    s.position + s.pending.utf8ByteSize = 7 + (String.join ["é<c", "+>;d"]).utf8ByteSize ∧
    tokens.toList.Pairwise fun t u => t.position < u.position ∧ t.stop ≤ u.position := by
  obtain ⟨a, s, tokens, ha, hs⟩ := bracketed.exists_run
    (.reset 7 :: (["é<c", "+>;d"].map .consume ++ if false then [.flush] else []))
    (by decide +kernel)
  have hbegin : (Scanner.ofAutomaton a).performAll .collect #[] [] =
      .ok (Scanner.ofAutomaton a, #[]) := rfl
  obtain ⟨hsize, -, -, -, hpairwise⟩ := fidelity ha hbegin hs
  exact ⟨a, s, tokens, ha, hs, hsize, hpairwise⟩

end TrieLexer
