import TrieLexer.Proofs.Chunking

/-!
# The interiors of nested runs

While a nested run is open, its inner scan has been given the interior up to some point, and
nothing else: whatever it was given in parts it might as well have been given at once. So when the
run ends, its tokens are those of a scan of the whole interior that began anew.

## Main definitions

* `InnerScan.Takes` — an inner scan may be given its text in parts.
* `InnerScan.Given` — an inner scan that has been given a text since it began anew.
* `NestedScan.Fed`, `Reading.Fed` — open runs have been given what is pending.
* `Lexeme.Scanned` — the tokens of a nested run are those of its interior.

## Main results

* `Automaton.inner_eq` — an inner scan is a scan of the automaton of its run.
* `Reading.Sound.take_scanned` — scans give out runs whose interiors have been scanned.
-/

namespace TrieLexer

open Text (byteLength)

/-! ### Inner scans -/

theorem innerAt_eq {runs : List (NestedRun Automaton)} {id : RunId} {spec : NestedRun Automaton}
    (h : runs[id]? = some spec) : innerAt runs id = spec.automaton.scan .collect := by
  induction runs generalizing id with
  | nil => cases h
  | cons run runs ih =>
    cases id with
    | zero =>
      cases h
      obtain ⟨automaton, openerLength, hold⟩ := spec
      exact funext fun p => funext fun out => funext fun input => by
        rw [innerAt, innerOf, Automaton.scan]
    | succ id =>
      rw [innerAt]
      exact ih h

/-- An inner scan is a scan of the automaton of its run. -/
theorem Automaton.inner_eq {a : Automaton} {id : RunId} {spec : NestedRun Automaton}
    (h : a.runs[id]? = some spec) : a.inner id = spec.automaton.scan .collect := by
  obtain ⟨graph, runs⟩ := a
  rw [inner]
  exact innerAt_eq h

namespace InnerScan

variable {inner : InnerScan} {id : RunId} {text more : List Char} {p p' : Progress}
  {tokens tokens' : Array Token}

/-- An inner scan may be given its text in parts. -/
structure Takes (inner : InnerScan) (id : RunId) : Prop where
  empty (p : Progress) : inner id (p.reset 0) #[] (.chunk "") = .ok (p.reset 0, #[])
  append (p : Progress) (x y : String) : inner id (p.reset 0) #[] (.chunk (x ++ y)) =
    inner id (p.reset 0) #[] (.chunk x) >>= fun z => inner id z.1 z.2 (.chunk y)

/-- An inner scan that has been given a text since it began anew. -/
def Given (inner : InnerScan) (id : RunId) (text : List Char) (p : Progress)
    (tokens : Array Token) : Prop :=
  ∃ q : Progress, inner id (q.reset 0) #[] (.chunk (String.ofList text)) = .ok (p, tokens)

theorem Takes.given_nil (h : inner.Takes id) (p : Progress) :
    inner.Given id [] (p.reset 0) #[] := ⟨p, h.empty p⟩

theorem Given.append (h : inner.Given id text p tokens) (ht : inner.Takes id)
    (hy : inner id p tokens (.chunk (String.ofList more)) = .ok (p', tokens')) :
    inner.Given id (text ++ more) p' tokens' := by
  obtain ⟨q, hq⟩ := h
  refine ⟨q, ?_⟩
  rw [String.ofList_append, ht.append, hq, ok_bind]
  exact hy

end InnerScan

/-- The inner scans of a lawful automaton may be given their text in parts. -/
theorem Lawful.takes {clean : Prop} {a : Automaton} (h : Lawful clean a) {id : RunId}
    {spec : NestedRun Automaton} (hs : a.runs[id]? = some spec) : a.inner.Takes id := by
  cases h with
  | mk hchart _ hruns =>
    cases hruns spec (List.mem_of_getElem? hs) with
    | mk hchart _ _ =>
      refine ⟨fun p => ?_, fun p x y => ?_⟩
      · rw [Automaton.inner_eq hs, p.reset_eq 0]
        exact (Reading.sound_root hchart 0 _).scan_empty _ hchart 0 _
      · rw [Automaton.inner_eq hs, p.reset_eq 0]
        exact (Reading.sound_root hchart 0 _).scan_append _ hchart 0 _ x y

/-! ### Open runs -/

/-- The inner scan of an open run has been given the pending text after the opener, up to where
the run says. -/
def NestedScan.Fed (inner : InnerScan) (pending : List Char) (run : NestedScan Progress) : Prop :=
  ∃ text, inner.Given run.id text run.scan run.tokens ∧
    run.fed = run.interior + byteLength text ∧
    (text = [] ∨ ∃ opener rest, pending = opener ++ text ++ rest ∧
      byteLength opener = run.interior)

/-- The open run has been given what is pending. -/
def Reading.Fed (inner : InnerScan) (r : Reading) : Prop :=
  ∀ run, r.run = some run → run.Fed inner r.pending

theorem Reading.fed_of_run_eq_none {inner : InnerScan} {r : Reading} (h : r.run = none) :
    r.Fed inner := by
  intro run hrun
  cases h.symm.trans hrun

/-- The tokens of a nested run are those of its interior. -/
def Lexeme.Scanned (inner : InnerScan) : Lexeme → Prop
  | .plain _ _ => True
  | .whole _ close => close.nested = none
  | .nested _ interior _ close tokens => ∃ id p scan start, close.nested = some id ∧
      inner.Given id interior p start ∧ inner id p start .done = .ok (scan, tokens.toArray)

namespace NestedScan

variable {inner : InnerScan} {run run' : NestedScan Progress} {pending : List Char}

/-- More pending text does not matter. -/
theorem Fed.pending_append (h : run.Fed inner pending) (more : List Char) :
    run.Fed inner (pending ++ more) := by
  obtain ⟨text, hgiven, hfed, htext⟩ := h
  refine ⟨text, hgiven, hfed, htext.imp_right ?_⟩
  rintro ⟨opener, rest, rfl, hopener⟩
  exact ⟨opener, rest ++ more, by simp, hopener⟩

/-- A run that is woken has been given nothing. -/
theorem fed_of_wake {a : Automaton} {idle idle' : Array (Option Progress)} {id : RunId}
    (htakes : ∀ id spec, a.runs[id]? = some spec → inner.Takes id)
    (h : a.wake idle id 0 = .ok (run, idle')) (pending : List Char) :
    run.Fed inner pending ∧ run.id = id := by
  obtain ⟨spec, p, hspec, -, rfl⟩ := Automaton.wake_eq_ok h
  exact ⟨⟨[], (htakes id spec hspec).given_nil p, rfl, .inl rfl⟩, rfl⟩

/-- A run is given more of the pending text. -/
theorem Fed.feed (h : run.Fed inner pending) (ht : inner.Takes run.id)
    {front text rest : List Char} (hp : pending = front ++ text ++ rest)
    (hfront : byteLength front = run.fed) (hy : run.feed inner (String.ofList text) = .ok run') :
    run'.Fed inner pending := by
  rw [NestedScan.feed] at hy
  split at hy
  · cases hy
    exact h
  · obtain ⟨⟨scan, tokens⟩, hscan, hy⟩ := bind_eq_ok.1 hy
    cases hy
    obtain ⟨before, hgiven, hfed, hbefore⟩ := h
    refine ⟨before ++ text, hgiven.append ht hscan, ?_, .inr ?_⟩
    · rw [Text.utf8ByteSize_eq, String.toList_ofList, Text.byteLength_append, hfed, Nat.add_assoc]
    · rcases hbefore with rfl | ⟨opener, rest', hp', hopener⟩
      · exact ⟨front, rest, hp, hfront.trans hfed⟩
      · rw [hp', List.append_assoc front] at hp
        obtain ⟨rfl, -⟩ := Text.append_inj_of_byteLength hp (by
          rw [Text.byteLength_append, hopener, hfront, hfed])
        exact ⟨opener, rest, by rw [hp', hp, ← List.append_assoc, ← List.append_assoc], hopener⟩

end NestedScan

/-! ### Whole scans -/

namespace Reading

variable {lexicon : Lexicon} {matchers : List (GreedyMatcher Compilation)} {a : Automaton}
  {place : NodeId → Locus} {inner : InnerScan} {r r' : Reading} {ls : List Lexeme}

/-- A run is given out with the tokens of its interior. -/
theorem scanned_giveOut {run : NestedScan Progress} {pending : List Char}
    {idle : Array (Option Progress)} {c : Close} (hrun : run.Fed inner pending)
    (ht : inner.Takes run.id) (hc : c.nested = some run.id)
    (hs : giveOut inner pending idle run c = .ok (r', ls)) :
    r'.run = none ∧ ∀ l ∈ ls, l.Scanned inner := by
  obtain ⟨⟨before, terminator⟩, hback, hs⟩ := bind_eq_ok.1 hs
  obtain ⟨⟨front, unfed⟩, hfront, hs⟩ := bind_eq_ok.1 hs
  obtain ⟨run', hfeed, hs⟩ := bind_eq_ok.1 hs
  obtain ⟨⟨opener, interior⟩, hopener, hs⟩ := bind_eq_ok.1 hs
  obtain ⟨⟨scan, tokens⟩, hdone, hs⟩ := bind_eq_ok.1 hs
  cases hs
  obtain ⟨hid, hint, -, hlen⟩ := feed_eq_ok hfeed
  obtain ⟨hbefore, hfed⟩ := cutFront_eq_ok.1 hfront
  obtain ⟨hbefore', hinterior⟩ := cutFront_eq_ok.1 hopener
  obtain ⟨text, hgiven, htext, hpart⟩ := hrun.feed ht
    (by rw [(cutBack_eq_ok.1 hback).1, hbefore]) hfed hfeed
  refine ⟨rfl, fun l hl => ?_⟩
  rw [List.mem_singleton.1 hl]
  refine ⟨run'.id, run'.scan, scan, run'.tokens, hid ▸ hc, ?_, hdone⟩
  -- The interior is what the inner scan has been given: both begin after the opener and end
  -- before the terminator.
  suffices hsame : interior = text by rw [hsame]; exact hgiven
  have hlength : byteLength interior = byteLength text := by
    have h₁ := congrArg byteLength hbefore
    have h₂ := congrArg byteLength hbefore'
    simp only [Text.byteLength_append] at h₁ h₂
    omega
  rcases hpart with rfl | ⟨opener', rest, hp, hopener'⟩
  · exact Text.byteLength_eq_zero_iff.1 hlength
  · rw [(cutBack_eq_ok.1 hback).1, hbefore', List.append_assoc, List.append_assoc] at hp
    obtain ⟨-, hp⟩ := Text.append_inj_of_byteLength hp (hinterior.trans hopener'.symm)
    exact (Text.append_inj_of_byteLength hp hlength).1

variable (htakes : ∀ id spec, a.runs[id]? = some spec → inner.Takes id)

include htakes

theorem Fed.enter (hf : r.Fed inner) (he : r.enter a = .ok r') : r'.Fed inner := by
  rw [Reading.enter] at he
  split at he
  · obtain ⟨⟨run, idle⟩, hwake, he⟩ := bind_eq_ok.1 he
    cases he
    intro run' hrun'
    cases hrun'
    exact (NestedScan.fed_of_wake htakes hwake r.pending).1
  · cases he
    exact hf

theorem Poised.takes {slack : Nat} (hr : r.Poised a place slack) {run : NestedScan Progress}
    (hrun : r.run = some run) : inner.Takes run.id := by
  obtain ⟨spec, hspec, -⟩ := (hr.run hrun).spec
  exact htakes _ spec hspec

theorem Poised.scanned_close {slack : Nat} (hr : r.Poised a place slack) (hf : r.Fed inner)
    (h : Charted lexicon matchers a place) {c : Close}
    (hc : (a.behaviour r.node).action = .close c) (hs : r.close a inner c = .ok (r', ls)) :
    r'.Fed inner ∧ ∀ l ∈ ls, l.Scanned inner := by
  obtain ⟨escaped, -, hs⟩ := bind_eq_ok.1 hs
  split at hs
  · cases hs
    exact ⟨hf, List.forall_mem_nil _⟩
  · split at hs
    · next hnone =>
      cases hs
      refine ⟨fun run hrun => ?_, List.forall_mem_singleton.2 hnone⟩
      cases hnone.symm.trans (hr.nested_of_run h hrun hc).1
    · next id hid =>
      obtain ⟨⟨run, idle⟩, hcurrent, hs⟩ := bind_eq_ok.1 hs
      suffices hrun : run.Fed inner r.pending ∧ run.id = id ∧ inner.Takes run.id by
        obtain ⟨hnone, hls⟩ := scanned_giveOut hrun.1 hrun.2.2 (hrun.2.1 ▸ hid) hs
        exact ⟨fed_of_run_eq_none hnone, hls⟩
      rw [Reading.current] at hcurrent
      split at hcurrent
      · next hrun =>
        cases hcurrent
        exact ⟨hf run hrun, Option.some.inj ((hr.nested_of_run h hrun hc).1.symm.trans hid),
          hr.takes htakes hrun⟩
      · obtain ⟨hfed, rfl⟩ := NestedScan.fed_of_wake htakes hcurrent r.pending
        obtain ⟨spec, _, hspec, -⟩ := Automaton.wake_eq_ok hcurrent
        exact ⟨hfed, rfl, htakes _ spec hspec⟩

theorem Poised.scanned_settle {slack : Nat} (hr : r.Poised a place slack) (hf : r.Fed inner)
    (h : Charted lexicon matchers a place) (hs : r.settle a inner = .ok (r', ls)) :
    r'.Fed inner ∧ ∀ l ∈ ls, l.Scanned inner := by
  rw [Reading.settle] at hs
  split at hs
  · cases hs
    exact ⟨hf, List.forall_mem_nil _⟩
  · cases hs
    exact ⟨hf, List.forall_mem_nil _⟩
  · next hc =>
    cases hs
    exact ⟨fed_of_run_eq_none (hr.run_eq_none_of_literal h hc), List.forall_mem_singleton.2 trivial⟩
  · next hc => exact hr.scanned_close htakes hf h hc hs

theorem Poised.scanned_act {slack : Nat} (hr : r.Poised a place slack) (hf : r.Fed inner)
    (h : Charted lexicon matchers a place) (hs : r.act a inner = .ok (r', ls)) :
    r'.Fed inner ∧ ∀ l ∈ ls, l.Scanned inner := by
  rw [Reading.act] at hs
  split at hs
  · next hb =>
    obtain ⟨⟨before, terminator⟩, -, hs⟩ := bind_eq_ok.1 hs
    obtain ⟨⟨c, released⟩, hm, hs⟩ := bind_eq_ok.1 hs
    obtain ⟨⟨r₁, out⟩, hsettle, hs⟩ := bind_eq_ok.1 hs
    cases hs
    have hrun := hr.run_eq_none (h.boundary_not_isBody hb)
    have hf' : Reading.Fed inner { r with toCursor := c } := fed_of_run_eq_none hrun
    obtain ⟨hfed, hout⟩ := (hr.retake h hb hm).scanned_settle htakes hf' h hsettle
    exact ⟨hfed, List.forall_mem_cons.2 ⟨trivial,
      List.forall_mem_append.2 ⟨StateGraph.forall_of_retake (fun _ _ _ _ => trivial) hm, hout⟩⟩⟩
  · exact hr.scanned_settle htakes hf h hs

theorem Fed.feed {slack : Nat} (hf : r.Fed inner) (hr : r.Sound a place slack)
    (hs : r.feed inner = .ok r') : r'.Fed inner := by
  rw [Reading.feed] at hs
  split at hs
  · cases hs
    exact hf
  · next run hrun =>
    split at hs
    · obtain ⟨⟨front, text⟩, hcut, hs⟩ := bind_eq_ok.1 hs
      obtain ⟨run₁, hfeed, hs⟩ := bind_eq_ok.1 hs
      cases hs
      obtain ⟨hripe, hfront⟩ := cutFront_eq_ok.1 hcut
      obtain ⟨rest, hrest⟩ := Text.frontWithin_isPrefix (byteLength r.pending - run.hold) r.pending
      intro run' hrun'
      cases hrun'
      obtain ⟨spec, hspec, -⟩ := (hr.run hrun).spec
      rw [Reading.ripe] at hripe
      exact (hf run hrun).feed (htakes _ spec hspec) (by rw [← hripe, hrest]) hfront hfeed
    · cases hs
      exact hf

/-- When the walk has landed, the open run has been given what is pending. -/
theorem Fed.landed (hf : r.Fed inner) (hr : r.Sound a place 0)
    (h : Charted lexicon matchers a place) {s : Symbol} {c : Cursor}
    (hm : a.move r.toCursor s = .ok (c, ls))
    (he : Reading.enter a { r with toCursor := c } = .ok r') : r'.Fed inner := by
  refine Fed.enter htakes (fun run hrun => ?_) he
  obtain ⟨rfl, -⟩ := hr.move_of_run h hrun hm
  have hspelled := StateGraph.move_spelled hm
  rw [spelled_nil, List.nil_append] at hspelled
  change run.Fed inner c.pending
  rw [hspelled]
  exact (hf run hrun).pending_append _

/-- A symbol gives out runs whose interiors have been scanned. -/
theorem Sound.advance_scanned (hr : r.Sound a place 0) (hf : r.Fed inner)
    (h : Charted lexicon matchers a place) {s : Symbol}
    (hs : r.advance a inner s = .ok (r', ls)) :
    r'.Fed inner ∧ ∀ l ∈ ls, l.Scanned inner := by
  obtain ⟨⟨c, released⟩, hm, hs⟩ := bind_eq_ok.1 hs
  obtain ⟨r₁, he, hs⟩ := bind_eq_ok.1 hs
  obtain ⟨⟨r₂, out⟩, ha, hs⟩ := bind_eq_ok.1 hs
  obtain ⟨r₃, hfeed, hs⟩ := bind_eq_ok.1 hs
  cases hs
  have hpoised := hr.enter h hm he
  obtain ⟨hf₂, hout⟩ := hpoised.scanned_act htakes (hf.landed htakes hr h hm he) h ha
  exact ⟨hf₂.feed htakes (hpoised.act h ha) hfeed,
    List.forall_mem_append.2 ⟨StateGraph.forall_of_move (fun _ _ _ _ => trivial) hm, hout⟩⟩

theorem Sound.read_scanned (hr : r.Sound a place 0) (hf : r.Fed inner)
    (h : Charted lexicon matchers a place) {text : List Char}
    (hs : r.read a inner text = .ok (r', ls)) : r'.Fed inner ∧ ∀ l ∈ ls, l.Scanned inner := by
  induction text generalizing r ls with
  | nil =>
    cases hs
    exact ⟨hf, List.forall_mem_nil _⟩
  | cons c text ih =>
    obtain ⟨⟨r₁, out⟩, ha, hs⟩ := bind_eq_ok.1 hs
    obtain ⟨⟨r₂, outs⟩, hr', hs⟩ := bind_eq_ok.1 hs
    cases hs
    obtain ⟨hf₁, hout⟩ := hr.advance_scanned htakes hf h ha
    obtain ⟨hf₂, houts⟩ := ih (hr.advance h ha) hf₁ hr'
    exact ⟨hf₂, List.forall_mem_append.2 ⟨hout, houts⟩⟩

/-- Scans give out runs whose interiors have been scanned. -/
theorem Sound.take_scanned (hr : r.Sound a place 0) (hf : r.Fed inner)
    (h : Charted lexicon matchers a place) {input : Input}
    (hs : r.take a inner input = .ok (r', ls)) : r'.Fed inner ∧ ∀ l ∈ ls, l.Scanned inner := by
  cases input with
  | chunk text => exact hr.read_scanned htakes hf h hs
  | done =>
    obtain ⟨⟨r₁, out⟩, ha, hs⟩ := bind_eq_ok.1 hs
    cases hs
    obtain ⟨-, hout⟩ := hr.advance_scanned htakes hf h ha
    refine ⟨fed_of_run_eq_none ?_, List.forall_mem_append.2 ⟨hout, List.forall_mem_singleton.2 ?_⟩⟩
    · rw [park]
      split <;> rfl
    · trivial

end Reading

end TrieLexer
