import TrieLexer.Proofs.Spelling

/-!
# Faults

A scan of a grammar that compiles can only fail where text is cut at a place that is no character
boundary, and this needs a mark that goes on after a point at its beginning. Everything else that
could go wrong cannot: no offset falls below zero or moves back, every nested run exists, and the
root never releases.

## Main definitions

* `Safe` — a computation fails by a misplaced cut at most.
* `Scanner.Works` — a scanner that is reached by calls.

## Main results

* `Lawful.safe_scan` — a scan that began anew is safe, at every depth.
* `Grammar.faultless` — no call of a scanner fails if points are lone.
-/

namespace TrieLexer

open Text (byteLength)

/-- A computation fails by a misplaced cut at most, and not even so if `clean` holds. -/
def Safe (clean : Prop) {α : Type} (x : Except ScanFault α) : Prop :=
  ∀ e, x = .error e → e = .misplacedCut ∧ ¬clean

section

variable {clean : Prop} {α β : Type} {x : Except ScanFault α} {text : List Char} {n : Nat}

theorem safe_of_eq_ok (h : ∃ a, x = .ok a) : Safe clean x := by
  obtain ⟨a, rfl⟩ := h
  intro e he
  cases he

theorem Safe.bind {f : α → Except ScanFault β} (h : Safe clean x)
    (hf : ∀ a, x = .ok a → Safe clean (f a)) : Safe clean (x >>= f) := by
  cases x with
  | error e =>
    intro e' he
    cases he
    exact h e rfl
  | ok a => exact hf a rfl

theorem Safe.map (h : Safe clean x) (f : α → β) : Safe clean (f <$> x) := by
  cases x with
  | error e =>
    intro e' he
    cases he
    exact h e rfl
  | ok a => exact safe_of_eq_ok ⟨_, rfl⟩

theorem Safe.exists (h : Safe clean x) (hc : clean) : ∃ a, x = .ok a := by
  cases x with
  | error e => exact absurd hc (h e rfl).2
  | ok a => exact ⟨a, rfl⟩

theorem safe_cutFront (h : clean → ∃ front, front <+: text ∧ byteLength front = n) :
    Safe clean (cutFront n text) := by
  intro e he
  refine ⟨cutFront_eq_error he, fun hc => ?_⟩
  obtain ⟨front, ⟨rest, rfl⟩, rfl⟩ := h hc
  rw [cutFront_eq_ok.2 ⟨rfl, rfl⟩] at he
  cases he

theorem safe_cutBack (h : clean → ∃ front rest, text = front ++ rest ∧ byteLength rest = n) :
    Safe clean (cutBack n text) := by
  intro e he
  refine ⟨?_, fun hc => ?_⟩
  · rw [cutBack] at he
    split at he
    · exact cutFront_eq_error he
    · cases he
      rfl
  · obtain ⟨front, rest, htext, hn⟩ := h hc
    rw [cutBack_eq_ok.2 ⟨htext, hn⟩] at he
    cases he

end

/-! ### Inner scans -/

/-- An inner scan that began anew is safe. -/
structure InnerScan.IsSafe (clean : Prop) (inner : InnerScan) (id : RunId) : Prop where
  chunk (p : Progress) (x : String) : Safe clean (inner id (p.reset 0) #[] (.chunk x))
  done {text : List Char} {p : Progress} {tokens : Array Token}
    (h : inner.Given id text p tokens) : Safe clean (inner id p tokens .done)

variable {clean : Prop} {inner : InnerScan}

/-- More text may be given safely. -/
theorem InnerScan.Given.safe_chunk {id : RunId} {text more : List Char} {p : Progress}
    {tokens : Array Token} (hg : inner.Given id text p tokens) (ht : inner.Takes id)
    (hsafe : inner.IsSafe clean id) :
    Safe clean (inner id p tokens (.chunk (String.ofList more))) := by
  obtain ⟨q, hq⟩ := hg
  have hboth := hsafe.chunk q (String.ofList text ++ String.ofList more)
  rwa [ht.append, hq, ok_bind] at hboth

theorem NestedScan.Fed.safe_feed {run : NestedScan Progress} {pending more : List Char}
    (hf : run.Fed inner pending) (ht : inner.Takes run.id) (hsafe : inner.IsSafe clean run.id) :
    Safe clean (run.feed inner (String.ofList more)) := by
  obtain ⟨text, hgiven, -⟩ := hf
  rw [NestedScan.feed]
  split
  · exact safe_of_eq_ok ⟨_, rfl⟩
  · exact (hgiven.safe_chunk ht hsafe).bind fun _ _ => safe_of_eq_ok ⟨_, rfl⟩

/-! ### The walk -/

namespace Charted

variable {lexicon : Lexicon} {matchers : List (GreedyMatcher Compilation)} {a : Automaton}
  {place : NodeId → Locus} {n : NodeId} {id : RunId}

/-- The walk never stops. -/
theorem exists_move (h : Charted lexicon matchers a place) (c : Cursor) (s : Symbol) :
    ∃ x, a.move c s = .ok x := by
  rw [StateGraph.move]
  split
  · exact ⟨_, rfl⟩
  · obtain ⟨k, hk⟩ := h.resolve_root s
    rw [hk]
    exact ⟨_, rfl⟩

theorem exists_retake (h : Charted lexicon matchers a place) (c : Cursor) (text : List Char) :
    ∃ x, a.retake c text = .ok x := by
  induction text generalizing c with
  | nil => exact ⟨_, rfl⟩
  | cons d text ih =>
    obtain ⟨x, hx⟩ := h.exists_move c (.char d)
    obtain ⟨y, hy⟩ := ih x.1
    rw [StateGraph.retake, hx, ok_bind]
    change ∃ z, (a.retake x.1 text >>= _) = .ok z
    rw [hy]
    exact ⟨_, rfl⟩

/-- The nested run of a body exists. -/
theorem exists_run (h : Charted lexicon matchers a place) (hn : (a.behaviour n).run = some id) :
    ∃ spec, a.runs[id]? = some spec := by
  obtain ⟨m, hp⟩ := h.run hn
  obtain ⟨-, -, -, _, _, _, -, -, -, hspec⟩ := h.body hp
  exact ⟨_, hspec⟩

/-- The nested run that ends exists. -/
theorem exists_nested (h : Charted lexicon matchers a place) {c : Close}
    (hc : (a.behaviour n).action = .close c) (hid : c.nested = some id) :
    ∃ spec, a.runs[id]? = some spec := by
  obtain ⟨b, m, nested, t, hp, hends⟩ := h.close_ends hc
  obtain rfl := hends.nested.symm.trans hid
  obtain ⟨-, -, -, _, _, _, -, -, -, hspec⟩ := h.body hp
  exact ⟨_, hspec⟩

end Charted

theorem Automaton.exists_wake {a : Automaton} {id : RunId} {spec : NestedRun Automaton}
    (h : a.runs[id]? = some spec) (idle : Array (Option Progress)) (start : Nat) :
    ∃ x, a.wake idle id start = .ok x := by
  rw [wake, h]
  exact ⟨_, rfl⟩

/-! ### Runs -/

namespace Reading

variable {lexicon : Lexicon} {matchers : List (GreedyMatcher Compilation)} {a : Automaton}
  {place : NodeId → Locus} {r r' : Reading} {ls : List Lexeme} {slack : Nat} {c : Close}

/-- The pending text of a run that ends has an opener, an interior and an end. -/
theorem exists_parts (h : Charted lexicon matchers a place)
    (hspells : clean → (place r.node).Spells r.pending)
    (hc : (a.behaviour r.node).action = .close c) (hclean : clean) :
    ∃ opener interior terminator, r.pending = opener ++ interior ++ terminator ∧
      byteLength opener = c.openerLength ∧ byteLength terminator = c.terminatorLength := by
  obtain ⟨b, m, nested, t, interior, -, hends, hpending⟩ := h.close_spells hc (hspells hclean)
  exact ⟨_, interior, _, hpending, hends.openerLength.symm, hends.terminatorLength.symm⟩

theorem safe_isEscaped {text : List Char} (hparts : clean → ∃ opener interior terminator,
      text = opener ++ interior ++ terminator ∧ byteLength opener = c.openerLength ∧
      byteLength terminator = c.terminatorLength) : Safe clean (c.isEscaped text) := by
  rw [Close.isEscaped]
  cases c.escape with
  | none => exact safe_of_eq_ok ⟨_, rfl⟩
  | some escape =>
    refine Safe.bind (safe_cutBack fun hc => ?_) fun x hx => ?_
    · obtain ⟨opener, interior, terminator, htext, -, hlength⟩ := hparts hc
      exact ⟨_, terminator, htext, hlength⟩
    · refine Safe.bind (safe_cutFront fun hc => ?_) fun _ _ => safe_of_eq_ok ⟨_, rfl⟩
      obtain ⟨opener, interior, terminator, htext, hopener, hlength⟩ := hparts hc
      cases hx.symm.trans (cutBack_eq_ok.2 ⟨htext, hlength⟩)
      exact ⟨opener, List.prefix_append .., hopener⟩

/-- A run whose inner scan has been given a beginning of the interior is given out safely. -/
theorem safe_giveOut {pending : List Char} {idle : Array (Option Progress)}
    {run : NestedScan Progress} (hf : run.Fed inner pending) (ht : inner.Takes run.id)
    (hsafe : inner.IsSafe clean run.id) (hint : run.interior = c.openerLength)
    (hfed : run.fed + c.terminatorLength ≤ byteLength pending)
    (hfront : run.fed = run.interior ∨
      ∃ front rest, pending = front ++ rest ∧ byteLength front = run.fed)
    (hparts : clean → ∃ opener interior terminator, pending = opener ++ interior ++ terminator ∧
      byteLength opener = c.openerLength ∧ byteLength terminator = c.terminatorLength) :
    Safe clean (giveOut inner pending idle run c) := by
  refine Safe.bind (safe_cutBack fun hc => ?_) fun x hback => ?_
  · obtain ⟨opener, interior, terminator, hpending, -, hlength⟩ := hparts hc
    exact ⟨_, terminator, hpending, hlength⟩
  obtain ⟨before, terminator⟩ := x
  obtain ⟨hpending, hterminator⟩ := cutBack_eq_ok.1 hback
  have hopener (hc : clean) : ∃ opener, opener <+: before ∧ byteLength opener = run.interior := by
    obtain ⟨opener, interior, terminator', hpending', hopener, hlength⟩ := hparts hc
    cases hback.symm.trans (cutBack_eq_ok.2 ⟨hpending', hlength⟩)
    exact ⟨opener, List.prefix_append .., hopener.trans hint.symm⟩
  refine Safe.bind (safe_cutFront fun hc => ?_) fun y hcut => ?_
  · rcases hfront with hfed' | ⟨front, rest, hfront, hlength⟩
    · exact hfed' ▸ hopener hc
    · refine ⟨front, Text.isPrefix_of_byteLength_le ⟨rest, hfront.symm⟩
        ⟨terminator, hpending.symm⟩ ?_, hlength⟩
      rw [hpending, Text.byteLength_append] at hfed
      omega
  obtain ⟨front, unfed⟩ := y
  obtain ⟨hbefore, hlength⟩ := cutFront_eq_ok.1 hcut
  refine Safe.bind (hf.safe_feed ht hsafe) fun run' hfeed => ?_
  obtain ⟨hid, hint', -, -⟩ := feed_eq_ok hfeed
  refine Safe.bind (safe_cutFront fun hc => hint' ▸ hopener hc) fun z _ => ?_
  obtain ⟨text, hgiven, -⟩ := hf.feed ht (by rw [hpending, hbefore]) hlength hfeed
  refine Safe.bind ?_ fun _ _ => safe_of_eq_ok ⟨_, rfl⟩
  rw [hid] at hgiven ⊢
  exact hsafe.done hgiven

variable (htakes : ∀ id spec, a.runs[id]? = some spec → inner.Takes id)
  (hsafe : ∀ id spec, a.runs[id]? = some spec → inner.IsSafe clean id)

include htakes hsafe

/-- A run ends safely. -/
theorem Poised.safe_close (hr : r.Poised a place slack) (hf : r.Fed inner)
    (h : Charted lexicon matchers a place) (hspells : clean → (place r.node).Spells r.pending)
    (hc : (a.behaviour r.node).action = .close c) : Safe clean (r.close a inner c) := by
  have hparts := exists_parts h hspells hc
  refine Safe.bind (safe_isEscaped hparts) fun escaped _ => ?_
  split
  · exact safe_of_eq_ok ⟨_, rfl⟩
  · split
    · exact safe_of_eq_ok ⟨_, rfl⟩
    · next id hid =>
      obtain ⟨spec, hspec⟩ := h.exists_nested hc hid
      refine Safe.bind (safe_of_eq_ok ?_) fun x hcurrent => ?_
      · rw [Reading.current]
        split
        · exact ⟨_, rfl⟩
        · exact Automaton.exists_wake hspec _ _
      obtain ⟨run, idle⟩ := x
      obtain ⟨hint, -, hfed, hfront⟩ := hr.current h hc hid hcurrent
      suffices hrun : run.Fed inner r.pending ∧ run.id = id by
        obtain ⟨hrun, rfl⟩ := hrun
        exact safe_giveOut hrun (htakes _ _ hspec) (hsafe _ _ hspec) hint hfed hfront hparts
      rw [Reading.current] at hcurrent
      split at hcurrent
      · next hsome =>
        cases hcurrent
        exact ⟨hf run hsome, Option.some.inj ((hr.nested_of_run h hsome hc).1.symm.trans hid)⟩
      · exact NestedScan.fed_of_wake htakes hcurrent r.pending

theorem Poised.safe_settle (hr : r.Poised a place slack) (hf : r.Fed inner)
    (h : Charted lexicon matchers a place) (hspells : clean → (place r.node).Spells r.pending) :
    Safe clean (r.settle a inner) := by
  rw [Reading.settle]
  split
  · exact safe_of_eq_ok ⟨_, rfl⟩
  · exact safe_of_eq_ok ⟨_, rfl⟩
  · exact safe_of_eq_ok ⟨_, rfl⟩
  · next hc => exact hr.safe_close htakes hsafe hf h hspells hc

/-- A node acts safely. -/
theorem Poised.safe_act (hr : r.Poised a place slack) (hf : r.Fed inner)
    (h : Charted lexicon matchers a place) (hlone : clean → lexicon.LonePoint)
    (hspells : clean → (place r.node).Spells r.pending) : Safe clean (r.act a inner) := by
  rw [Reading.act]
  split
  · next label length hb =>
    have hcut (hc : clean) : ∃ t ∈ lexicon.terminators, ∃ before,
        r.pending = before ++ t.toList ∧ byteLength t.toList = length :=
      h.boundary_spells (hlone hc) hb (hspells hc)
    refine Safe.bind (safe_cutBack fun hc => ?_) fun x hback => ?_
    · obtain ⟨t, -, before, hpending, hlength⟩ := hcut hc
      exact ⟨before, _, hpending, hlength⟩
    refine Safe.bind (safe_of_eq_ok (h.exists_retake _ _)) fun y hretake => ?_
    refine Safe.bind ?_ fun _ _ => safe_of_eq_ok ⟨_, rfl⟩
    have hpoised := hr.retake h hb hretake
    refine hpoised.safe_settle htakes hsafe (fed_of_run_eq_none (hr.run_eq_none
      (h.boundary_not_isBody hb))) h fun hc => ?_
    obtain ⟨t, ht, before, hpending, hlength⟩ := hcut hc
    cases hback.symm.trans (cutBack_eq_ok.2 ⟨hpending, hlength⟩)
    obtain ⟨n, hn, hspells', -⟩ := h.retake_terminator (hlone hc) ht
    cases hretake.symm.trans hn
    exact hspells'
  · exact hr.safe_settle htakes hsafe hf h hspells

omit htakes hsafe in
/-- Text is given safely to an open run whose opener is pending. -/
theorem safe_feed_run {run : NestedScan Progress} (hw : run.Within a place slack r.toCursor)
    (hrun : r.run = some run) (hf : run.Fed inner r.pending) (ht : inner.Takes run.id)
    (hsafe : inner.IsSafe clean run.id)
    (hopener : clean → ∃ opener, opener <+: r.pending ∧ byteLength opener = run.interior) :
    Safe clean (r.feed inner) := by
  rw [Reading.feed, hrun]
  dsimp only
  split
  · next hlt =>
    refine Safe.bind (safe_cutFront fun hc => ?_) fun x _ => ?_
    · suffices hfront : ∃ front, front <+: r.pending ∧ byteLength front = run.fed by
        obtain ⟨front, hprefix, hlength⟩ := hfront
        exact ⟨front, Text.isPrefix_of_byteLength_le hprefix (Text.frontWithin_isPrefix _ _)
          (Nat.le_of_lt (hlength ▸ hlt)), hlength⟩
      rcases hw.fed with hfed | ⟨front, rest, hpending, hlength, -⟩
      · exact hfed ▸ hopener hc
      · exact ⟨front, ⟨rest, hpending.symm⟩, hlength⟩
    · exact Safe.bind (hf.safe_feed ht hsafe) fun _ _ => safe_of_eq_ok ⟨_, rfl⟩
  · exact safe_of_eq_ok ⟨_, rfl⟩

/-- Text is given to an open run safely. -/
theorem Sound.safe_feed (hr : r.Sound a place slack) (hf : r.Fed inner)
    (h : Charted lexicon matchers a place) (hs : clean → r.Spelled a place) :
    Safe clean (r.feed inner) := by
  cases hrun : r.run with
  | none =>
    rw [Reading.feed, hrun]
    exact safe_of_eq_ok ⟨_, rfl⟩
  | some run =>
    have hw := hr.run hrun
    obtain ⟨spec, hspec, hint, -⟩ := hw.spec
    refine safe_feed_run hw hrun (hf run hrun) (htakes _ _ hspec) (hsafe _ _ hspec) fun hc => ?_
    obtain ⟨b, m, path, hp⟩ := hw.region
    obtain ⟨before, hopens, hpending⟩ := (hs hc).spells
    obtain ⟨-, -, -, _, _, _, -, -, -, hnest⟩ := h.body hp
    cases hspec.symm.trans hnest
    rw [hp] at hopens
    exact ⟨m.startsWith.toList, List.IsPrefix.trans hopens ⟨_, hpending.symm⟩, hint.symm⟩

omit htakes hsafe in
theorem safe_enter (h : Charted lexicon matchers a place) : Safe clean (r.enter a) := by
  rw [enter]
  split
  · next id _ hid =>
    obtain ⟨spec, hspec⟩ := h.exists_run hid
    exact Safe.bind (safe_of_eq_ok (Automaton.exists_wake hspec _ _))
      fun _ _ => safe_of_eq_ok ⟨_, rfl⟩
  · exact safe_of_eq_ok ⟨_, rfl⟩

/-- A symbol is read safely. -/
theorem Sound.safe_advance (hr : r.Sound a place 0) (hf : r.Fed inner)
    (h : Charted lexicon matchers a place) (hlone : clean → lexicon.LonePoint)
    (hs : clean → r.Spelled a place) (s : Symbol) : Safe clean (r.advance a inner s) := by
  refine Safe.bind (safe_of_eq_ok (h.exists_move _ s)) fun x hm => ?_
  refine Safe.bind (safe_enter h) fun r₁ he => ?_
  have hpoised := hr.enter h hm he
  have hf₁ := hf.landed htakes hr h hm he
  have hspells (hc : clean) : (place r₁.node).Spells r₁.pending := (hs hc).enter h hm he
  refine Safe.bind (hpoised.safe_act htakes hsafe hf₁ h hlone hspells) fun y ha => ?_
  obtain ⟨hf₂, -⟩ := hpoised.scanned_act htakes hf₁ h ha
  refine Safe.bind ((hpoised.act h ha).safe_feed htakes hsafe hf₂ h fun hc => ?_)
    fun _ _ => safe_of_eq_ok ⟨_, rfl⟩
  exact (hpoised.formed_act h (hlone hc) (hspells hc) ha).1

theorem Sound.safe_read (hr : r.Sound a place 0) (hf : r.Fed inner)
    (h : Charted lexicon matchers a place) (hlone : clean → lexicon.LonePoint)
    (hs : clean → r.Spelled a place) (text : List Char) : Safe clean (r.read a inner text) := by
  induction text generalizing r with
  | nil => exact safe_of_eq_ok ⟨_, rfl⟩
  | cons c text ih =>
    refine Safe.bind (hr.safe_advance htakes hsafe hf h hlone hs (.char c)) fun x ha => ?_
    refine Safe.bind (ih (hr.advance h ha) (hr.advance_scanned htakes hf h ha).1 fun hc => ?_)
      fun _ _ => safe_of_eq_ok ⟨_, rfl⟩
    exact ((hs hc).advance hr h (hlone hc) ha).1

/-- A chunk of input, or its end, is read safely. -/
theorem Sound.safe_take (hr : r.Sound a place 0) (hf : r.Fed inner)
    (h : Charted lexicon matchers a place) (hlone : clean → lexicon.LonePoint)
    (hs : clean → r.Spelled a place) (input : Input) : Safe clean (r.take a inner input) := by
  cases input with
  | chunk text => exact hr.safe_read htakes hsafe hf h hlone hs text.toList
  | done =>
    exact Safe.bind (hr.safe_advance htakes hsafe hf h hlone hs .endOfInput)
      fun _ _ => safe_of_eq_ok ⟨_, rfl⟩

end Reading

/-! ### Scanners -/

/-- An inner scan is safe if the scan of its automaton is. -/
theorem Automaton.isSafe_inner {a : Automaton} {id : RunId} {spec : NestedRun Automaton}
    (hs : a.runs[id]? = some spec)
    (h : ∀ (q : Progress) (x : String),
      Safe clean (spec.automaton.scan .collect (q.reset 0) #[] (.chunk x)) ∧
        ∀ p tokens, spec.automaton.scan .collect (q.reset 0) #[] (.chunk x) = .ok (p, tokens) →
          Safe clean (spec.automaton.scan .collect p tokens .done)) : a.inner.IsSafe clean id := by
  rw [← Automaton.inner_eq hs] at h
  exact ⟨fun p x => (h p x).1, fun ⟨q, hq⟩ => (h q _).2 _ _ hq⟩

/-- A scan that began anew is safe: both its text and its end. -/
theorem Lawful.safe_scan {a : Automaton} (h : Lawful clean a) (q : Progress) (x : String) :
    Safe clean (a.scan .collect (q.reset 0) #[] (.chunk x)) ∧
      ∀ p tokens, a.scan .collect (q.reset 0) #[] (.chunk x) = .ok (p, tokens) →
        Safe clean (a.scan .collect p tokens .done) := by
  induction h generalizing q x with
  | @mk lexicon matchers a place hchart hlone hruns ih =>
    have htakes (id : RunId) (spec : NestedRun Automaton) (hs : a.runs[id]? = some spec) :
        a.inner.Takes id := (Lawful.mk hchart hlone hruns).takes hs
    have hsafe (id : RunId) (spec : NestedRun Automaton) (hs : a.runs[id]? = some spec) :
        a.inner.IsSafe clean id :=
      Automaton.isSafe_inner hs (ih spec (List.mem_of_getElem? hs))
    have hroot := Reading.sound_root hchart 0 (q.reset 0).idle
    have hs (_ : clean) := Reading.spelled_root hchart none (q.reset 0).idle
    have hf : Reading.Fed a.inner { idle := (q.reset 0).idle } := Reading.fed_of_run_eq_none rfl
    rw [q.reset_eq 0, Automaton.scan, hroot.scanWith_eq _ _ hchart]
    refine ⟨?_, fun p tokens hchunk => ?_⟩
    · exact (hroot.safe_take htakes hsafe hf hchart hlone hs _).map _
    · cases hread : Reading.take a a.inner { idle := (q.reset 0).idle } (.chunk x) with
      | error e => rw [hread] at hchunk; cases hchunk
      | ok z =>
        rw [hread] at hchunk
        cases hchunk
        have hsound := hroot.take hchart hread
        rw [Automaton.scan, hsound.scanWith_eq _ _ hchart]
        exact (hsound.safe_take htakes hsafe (hroot.take_scanned htakes hf hchart hread).1
          hchart hlone (fun hc => ((hs hc).take hroot hchart (hlone hc) hread).1) _).map _

namespace Scanner

variable {τ : Type} {sink : Sink τ} {s s' : Scanner} {out out' : τ} {lexicon : Lexicon}
  {matchers : List (GreedyMatcher Compilation)} {place : NodeId → Locus}

/-- A scanner stands where calls lead to. -/
def Works (clean : Prop) (place : NodeId → Locus) (s : Scanner) : Prop :=
  ∃ r position, s.Reaches place r position ∧ r.Fed s.automaton.inner ∧
    (clean → r.Spelled s.automaton place)

namespace Works

variable (htakes : ∀ id spec, s.automaton.runs[id]? = some spec → s.automaton.inner.Takes id)
  (hsafe : ∀ id spec, s.automaton.runs[id]? = some spec → s.automaton.inner.IsSafe clean id)
  (hlone : clean → lexicon.LonePoint)

theorem reset (hs : s.Works clean place) (h : Charted lexicon matchers s.automaton place)
    (start : Nat) : (s.reset start).Works clean place := by
  obtain ⟨r, position, hs, -⟩ := hs
  refine ⟨r.park, start, hs.reset h start, Reading.fed_of_run_eq_none ?_,
    fun _ => Reading.spelled_park h r⟩
  rw [Reading.park]
  split <;> rfl

include htakes hlone

theorem handle (hs : s.Works clean place) (h : Charted lexicon matchers s.automaton place)
    {input : Input} (hy : s.handle sink out input = .ok (s', out')) :
    s'.automaton = s.automaton ∧ s'.Works clean place := by
  obtain ⟨r, position, hs, hf, hspelled⟩ := hs
  obtain ⟨r', ls, ht, ha, hs', -⟩ := hs.handle h hy
  refine ⟨ha, r', _, hs', ?_, fun hc => ?_⟩
  · rw [ha]
    exact (hs.sound.take_scanned htakes hf h ht).1
  · rw [ha]
    exact ((hspelled hc).take hs.sound h (hlone hc) ht).1

include hsafe

theorem safe_handle (hs : s.Works clean place) (h : Charted lexicon matchers s.automaton place)
    (sink : Sink τ) (out : τ) (input : Input) : Safe clean (s.handle sink out input) := by
  obtain ⟨r, position, hs, hf, hspelled⟩ := hs
  rw [hs.handle_eq h]
  exact ((hs.sound.safe_take htakes hsafe hf h hlone hspelled input).map _).map _

/-- A call is answered safely. -/
theorem safe_perform (hs : s.Works clean place) (h : Charted lexicon matchers s.automaton place)
    (sink : Sink τ) (out : τ) (call : Call) : Safe clean (s.perform sink out call) := by
  cases call with
  | consume chunk => exact hs.safe_handle htakes hsafe hlone h sink out _
  | flush => exact hs.safe_handle htakes hsafe hlone h sink out _
  | reset start => exact safe_of_eq_ok ⟨_, rfl⟩
  | tokenize input =>
    have hreset := hs.reset h 0
    refine Safe.bind (safe_handle (s := s.reset 0) htakes hsafe hlone hreset h sink out _)
      fun x hx => ?_
    obtain ⟨ha, hs₁⟩ := handle (s := s.reset 0) htakes hlone hreset h hx
    change x.1.automaton = s.automaton at ha
    exact hs₁.safe_handle (ha ▸ htakes) (ha ▸ hsafe) hlone (ha ▸ h) sink x.2 _

omit hsafe in
theorem perform (hs : s.Works clean place) (h : Charted lexicon matchers s.automaton place)
    {call : Call} (hy : s.perform sink out call = .ok (s', out')) :
    s'.automaton = s.automaton ∧ s'.Works clean place := by
  have hpark (r : Reading) : r.park.Fed s.automaton.inner ∧
      (clean → r.park.Spelled s.automaton place) := by
    refine ⟨Reading.fed_of_run_eq_none ?_, fun _ => Reading.spelled_park h r⟩
    rw [Reading.park]
    split <;> rfl
  obtain ⟨r, position, hs, hr⟩ := hs
  obtain ⟨ha, hs'⟩ := hs.perform_keeps h
    (fun r => r.Fed s.automaton.inner ∧ (clean → r.Spelled s.automaton place)) hpark
    (fun hsound hr ht => ⟨(hsound.take_scanned htakes hr.1 h ht).1,
      fun hc => ((hr.2 hc).take hsound h (hlone hc) ht).1⟩) hr hy
  refine ⟨ha, ?_⟩
  rw [Works, ha]
  exact hs'

/-- Calls are answered safely, one after the other. -/
theorem safe_performAll (hs : s.Works clean place)
    (h : Charted lexicon matchers s.automaton place) (sink : Sink τ) (out : τ)
    (calls : List Call) : Safe clean (s.performAll sink out calls) := by
  induction calls generalizing s out with
  | nil => exact safe_of_eq_ok ⟨_, rfl⟩
  | cons call calls ih =>
    refine Safe.bind (hs.safe_perform htakes hsafe hlone h sink out call) fun x hx => ?_
    obtain ⟨ha, hs₁⟩ := hs.perform htakes hlone h hx
    exact ih (ha ▸ htakes) (ha ▸ hsafe) hs₁ (ha ▸ h) x.2

end Works

end Scanner

/-- The inner scans of a lawful automaton are safe. -/
theorem Lawful.isSafe_inner {a : Automaton} (h : Lawful clean a) {id : RunId}
    {spec : NestedRun Automaton} (hs : a.runs[id]? = some spec) : a.inner.IsSafe clean id := by
  cases h with
  | mk _ _ hruns => exact Automaton.isSafe_inner hs (hruns spec (List.mem_of_getElem? hs)).safe_scan

/-- A scanner that begins anew works safely. -/
theorem Lawful.safe_performAll {a : Automaton} (h : Lawful clean a) {τ : Type} (sink : Sink τ)
    (out : τ) (calls : List Call) :
    Safe clean ((Scanner.ofAutomaton a).performAll sink out calls) := by
  have htakes (id : RunId) (spec : NestedRun Automaton) (hs : a.runs[id]? = some spec) :
      a.inner.Takes id := h.takes hs
  have hsafe (id : RunId) (spec : NestedRun Automaton) (hs : a.runs[id]? = some spec) :
      a.inner.IsSafe clean id := h.isSafe_inner hs
  cases h with
  | @mk lexicon matchers a place hchart hlone _ =>
    have hworks : (Scanner.ofAutomaton a).Works clean place :=
      ⟨_, 0, Scanner.reaches_ofAutomaton hchart, Reading.fed_of_run_eq_none rfl,
        fun _ => Reading.spelled_root hchart none _⟩
    exact hworks.safe_performAll htakes hsafe hlone hchart sink out calls

theorem Lawful.exists_tokenize {a : Automaton} (h : Lawful True a) (x : String) :
    ∃ tokens, a.tokenize x = .ok tokens := by
  obtain ⟨_, hs⟩ := (h.safe_performAll .collect #[] [.tokenize x]).exists trivial
  obtain ⟨_, hscan, -⟩ := bind_eq_ok.1 hs
  exact ⟨_, bind_eq_ok.2 ⟨_, hscan, rfl⟩⟩

/-- Whatever a scanner is asked to do, it can only fail by a misplaced cut. If no mark goes on
after a point at its beginning, in the grammar and in its interiors, then it never fails. -/
theorem Grammar.faultless {g : Grammar} {a : Automaton} (h : g.compile.result = .ok a) {τ : Type}
    (sink : Sink τ) (out : τ) (calls : List Call) :
    (g.LonePoint → ∃ x, (Scanner.ofAutomaton a).performAll sink out calls = .ok x) ∧
      ∀ e, (Scanner.ofAutomaton a).performAll sink out calls = .error e → e = .misplacedCut :=
  have hsafe := (g.lawful_compile id h : Lawful g.LonePoint a).safe_performAll sink out calls
  ⟨hsafe.exists, fun e he => (hsafe e he).1⟩

theorem Grammar.lonePoint_bracketed : bracketed.LonePoint := by
  refine .mk (by decide) fun m hm s hs => ?_
  obtain rfl := List.mem_singleton.1 hm
  obtain rfl := Option.some.inj hs
  exact .mk (by decide) fun m hm => absurd hm List.not_mem_nil

/-- Chunks end inside a run, and the scanner is used again. -/
theorem Grammar.faultless_bracketed : ∃ a, bracketed.compile.result = .ok a ∧
    ∃ x, (Scanner.ofAutomaton a).performAll .collect #[]
      [.consume "é<c+", .reset 7, .consume ".5;<\\", .flush, .tokenize "<é>."] = .ok x := by
  obtain ⟨a, -, -, ha, -⟩ := bracketed.exists_run [] (by decide +kernel)
  exact ⟨a, ha, (faultless ha .collect #[] _).1 lonePoint_bracketed⟩

/-- A grammar with a delimiter that goes on after a point. -/
def Grammar.pointed : Grammar where
  delimiters := [.bare ".é"]

/-- The point also begins a number, which the delimiter is to end. When one more character comes
after the delimiter, the text is cut the delimiter's three bytes before its end, inside the first
`é`. -/
theorem Grammar.misplacedCut_pointed : ∃ a, pointed.compile.result = .ok a ∧
    (Scanner.ofAutomaton a).performAll .collect #[] [.tokenize ".éé"] = .error .misplacedCut := by
  have h : (pointed.compile.result.toOption.map fun a =>
      match (Scanner.ofAutomaton a).performAll .collect #[] [.tokenize ".éé"] with
      | .ok _ => none
      | .error e => some e) = some (some .misplacedCut) := by decide +kernel
  obtain ⟨a, ha, hfault⟩ := Option.map_eq_some_iff.1 h
  refine ⟨a, eq_ok_of_toOption ha, ?_⟩
  split at hfault
  · cases hfault
  · rename_i he
    cases hfault
    exact he

end TrieLexer
