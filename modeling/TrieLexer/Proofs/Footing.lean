import TrieLexer.Proofs.Chart

/-!
# Where a scan may stand

In a charted automaton the pending text is never shorter than the place of the walk asks for, and
an open run spans its part of the pending text: the opener, what the inner scan has been given, and
a tail that is long enough for every end of the run. So an action never cuts off more than there
is, and a terminator is never given to the inner scan.

## Main definitions

* `NestedScan.Within` — an open run and the pending text.
* `Reading.Sound` — a scan between two symbols.
* `Reading.Poised` — a scan when the walk has landed.

## Main results

* `Reading.Sound.advance`, `Reading.Sound.read`, `Reading.Sound.finish` — scans stay sound.
-/

namespace TrieLexer

open Text (byteLength)

/-- An open run spans its part of the pending text. The last bytes, as many as are held back and
`slack` more, are not given to the inner scan. -/
structure NestedScan.Within (a : Automaton) (place : NodeId → Locus) (slack : Nat) (c : Cursor)
    (run : NestedScan Progress) : Prop where
  region : ∃ b m path, place c.node = ⟨.body b m (some run.id), path⟩
  spec : ∃ spec, a.runs[run.id]? = some spec ∧ run.interior = spec.openerLength ∧
    run.hold = spec.hold
  interior_le : run.interior ≤ run.fed
  fed : run.fed = run.interior ∨ ∃ front rest, c.pending = front ++ rest ∧
    byteLength front = run.fed ∧ run.hold + slack ≤ byteLength rest

/-- The pending text is not shorter than the place of the walk asks for. -/
def Cursor.Grounded (place : NodeId → Locus) (c : Cursor) : Prop :=
  (place c.node).least ≤ byteLength c.pending

/-- A scan whose node has acted. Between two symbols there is no slack. -/
structure Reading.Sound (a : Automaton) (place : NodeId → Locus) (slack : Nat) (r : Reading) :
    Prop where
  grounded : r.Grounded place
  acted : (a.behaviour r.node).action = .none ∨
    ∃ label length, (a.behaviour r.node).action = .boundary label length
  run {run : NestedScan Progress} (h : r.run = some run) : run.Within a place slack r.toCursor

/-- A scan when the walk has landed by a symbol of `slack` bytes, before the node acts. -/
structure Reading.Poised (a : Automaton) (place : NodeId → Locus) (slack : Nat) (r : Reading) :
    Prop where
  grounded : r.Grounded place
  run {run : NestedScan Progress} (h : r.run = some run) : run.Within a place slack r.toCursor
  closes {run : NestedScan Progress} {c : Close} (h : r.run = some run)
    (hc : (a.behaviour r.node).action = .close c) : c.terminatorLength ≤ run.hold + slack

theorem Automaton.wake_eq_ok {a : Automaton} {idle idle' : Array (Option Progress)} {id : RunId}
    {start : Nat} {run : NestedScan Progress} (h : a.wake idle id start = .ok (run, idle')) :
    ∃ spec, ∃ p : Progress, a.runs[id]? = some spec ∧ idle' = idle.setIfInBounds id none ∧
      run = { id, scan := p.reset 0, interior := start + spec.openerLength,
              fed := start + spec.openerLength, hold := spec.hold } := by
  rw [wake] at h
  split at h
  · cases h
  · next spec hspec =>
    cases h
    exact ⟨spec, _, hspec, rfl, rfl⟩

namespace Charted

variable {lexicon : Lexicon} {matchers : List (GreedyMatcher Compilation)} {a : Automaton}
  {place : NodeId → Locus} {n : NodeId}

/-- Nothing happens at the beginning of a path. -/
theorem action_eq_none (h : Charted lexicon matchers a place) (hpath : (place n).path = [])
    (ho : (place n).origin ≠ .float) : (a.behaviour n).action = .none := by
  have hfit := h.action n
  generalize (a.behaviour n).action = act at hfit
  cases hfit with
  | none => rfl
  | literal hp hne => exact absurd hpath hne
  | @boundary q t ht hq hp label =>
    exfalso
    obtain ⟨path, s, hsnoc⟩ := List.eq_nil_or_concat (spelling t.toList) |>.resolve_left
      (spelling_ne_nil _)
    rw [hsnoc, List.concat_eq_append, Locus.walk_append, Locus.walk_cons, Locus.walk_nil] at hp
    obtain hd | ⟨-, -, hd⟩ := (q.walk path).down_eq_or s
    · rw [hp, hd] at hpath
      simp at hpath
    · rw [hp, hd] at ho
      exact ho rfl
  | close hp hc =>
    rw [hp] at hpath
    exact absurd hpath (spelling_ne_nil _)

/-- Where a run ends. -/
theorem close_ends (h : Charted lexicon matchers a place) {c : Close}
    (hc : (a.behaviour n).action = .close c) :
    ∃ b m nested t, place n = ⟨.body b m nested, spelling t.toList⟩ ∧
      c.Ends lexicon.labels b m nested t := by
  have hfit := h.action n
  rw [hc] at hfit
  cases hfit with
  | close hp hends => exact ⟨_, _, _, _, hp, hends⟩

/-- The nested run that an end belongs to has the same opener. -/
theorem openerLength_eq (h : Charted lexicon matchers a place) {c : Close} {id : RunId}
    {spec : NestedRun Automaton} (hc : (a.behaviour n).action = .close c)
    (hid : c.nested = some id) (hspec : a.runs[id]? = some spec) :
    spec.openerLength = c.openerLength := by
  obtain ⟨b, m, nested, t, hk, hends⟩ := h.close_ends hc
  cases hends.nested.symm.trans hid
  obtain ⟨-, -, -, _, _, T, -, -, -, hruns⟩ := h.body hk
  cases hspec.symm.trans hruns
  exact hends.openerLength.symm

/-- Open-ended tokens do not end inside runs. -/
theorem boundary_not_isBody (h : Charted lexicon matchers a place) {label : Label} {length : Nat}
    (hb : (a.behaviour n).action = .boundary label length) : ¬(place n).origin.IsBody := by
  have hfit := h.action n
  rw [hb] at hfit
  cases hfit with
  | boundary ht hq hp =>
    rw [hp]
    exact Locus.walk_not_isBody hq _

/-- The end of an open-ended token cuts off no more than what is pending. -/
theorem boundary_length_le (h : Charted lexicon matchers a place) {label : Label} {length : Nat}
    (hb : (a.behaviour n).action = .boundary label length) : length ≤ (place n).least := by
  have hfit := h.action n
  rw [hb] at hfit
  cases hfit with
  | boundary ht hq hp => simp [hp, Locus.least_walk]

/-- The ends of a nested run are no longer than what is held back and the last symbol. -/
theorem terminatorLength_le (h : Charted lexicon matchers a place) {k b : NodeId}
    {m : GreedyMatcher Compilation} {id : RunId} {path : List Symbol}
    {spec : NestedRun Automaton} {s : Symbol} {c : Close} {stays : Prop}
    (hn : place n = ⟨.body b m (some id), path⟩) (hspec : a.runs[id]? = some spec)
    (hstays : stays → (place n).IsRest) (hl : (place n).Leads stays s (place k))
    (hc : (a.behaviour k).action = .close c) :
    c.terminatorLength ≤ spec.hold + byteLength s.text := by
  obtain ⟨b', m', nested, t, hk, hends⟩ := h.close_ends hc
  have ho := hl.origin_eq (by rw [hn]; exact ⟨b, m, _, rfl⟩)
  rw [hn, hk] at ho
  cases ho
  obtain ⟨-, -, -, _, _, T, -, -, hT, hruns⟩ := h.body hk
  cases hspec.symm.trans hruns
  rw [hends.terminatorLength]
  cases s with
  | char d =>
    have hd := d.utf8Size_pos
    simp only [Lexicon.holdOf, Symbol.text, Text.byteLength_cons, Text.byteLength_nil]
    rcases hends.way with ⟨ht, -⟩ | ⟨rfl, -⟩ | ⟨ht, -⟩
    · cases hT.symm.trans ht
      omega
    · exact Nat.zero_le _
    · rw [ht, Option.getD_some]
      omega
  | endOfInput =>
    suffices ht : t.toList = [] by rw [ht]; exact Nat.zero_le _
    have hpath : spelling t.toList = (place k).path := by rw [hk]
    generalize place k = q at hl hpath
    cases hl with
    | down =>
      rw [hn, Locus.down_of_origin_ne (by simp)] at hpath
      exact eq_nil_of_spelling_eq hpath
    | stay hstay => exact absurd (hpath.trans (hstays hstay).1) (spelling_ne_nil _)
    | back hp hrest =>
      rcases hrest with rfl | rfl
      · exact absurd hpath (spelling_ne_nil _)
      · exact @eq_nil_of_spelling_eq _ [] hpath
    | category hp => rw [hn] at hp; exact absurd ⟨b, m, _, rfl⟩ hp
    | unknown hp => rw [hn] at hp; exact absurd ⟨b, m, _, rfl⟩ hp
    | point hp => cases hn.symm.trans hp
    | decimal hp => cases hn.symm.trans hp
    | enter hp => cases hn.symm.trans hp

/-- The walk stays where the pending text reaches. -/
theorem grounded_move (h : Charted lexicon matchers a place) {c c' : Cursor} {s : Symbol}
    {ls : List Lexeme} (hc : c.Grounded place) (hm : a.move c s = .ok (c', ls)) :
    c'.Grounded place := by
  rw [StateGraph.move] at hm
  split at hm
  · next hr =>
    cases hm
    rw [Cursor.Grounded, Text.byteLength_append]
    exact (h.leads hr).least_le hc
  · split at hm
    · next hr =>
      cases hm
      have hroot : (place .root).least ≤ 0 := by rw [h.place_root]; exact Nat.le_refl 0
      have := (h.leads hr).least_le hroot
      rwa [Nat.zero_add] at this
    · cases hm

theorem grounded_retake (h : Charted lexicon matchers a place) {c c' : Cursor} {text : List Char}
    {ls : List Lexeme} (hc : c.Grounded place) (hm : a.retake c text = .ok (c', ls)) :
    c'.Grounded place := by
  induction text generalizing c ls with
  | nil => cases hm; exact hc
  | cons d text ih =>
    obtain ⟨⟨c₁, out⟩, hd, hm⟩ := bind_eq_ok.1 hm
    obtain ⟨⟨c₂, outs⟩, hr, hm⟩ := bind_eq_ok.1 hm
    cases hm
    exact ih (h.grounded_move hc hd) hr

/-- The root and the bodies of runs, where a scan goes on after it has given text out. -/
theorem grounded_root (h : Charted lexicon matchers a place) : ({} : Cursor).Grounded place := by
  rw [Cursor.Grounded, h.place_root]
  exact Nat.le_refl 0

theorem action_root (h : Charted lexicon matchers a place) :
    (a.behaviour .root).action = .none :=
  h.action_eq_none (by rw [h.place_root]) (by rw [h.place_root]; exact nofun)

end Charted

namespace Reading

variable {lexicon : Lexicon} {matchers : List (GreedyMatcher Compilation)} {a : Automaton}
  {place : NodeId → Locus} {inner : InnerScan} {r r' : Reading} {ls : List Lexeme}

/-- While a run is open, a symbol gives nothing out and stays inside the run. -/
theorem Sound.move_of_run (hr : r.Sound a place 0) (h : Charted lexicon matchers a place)
    {run : NestedScan Progress} {s : Symbol} {c : Cursor} (hrun : r.run = some run)
    (hm : a.move r.toCursor s = .ok (c, ls)) :
    ls = [] ∧ run.Within a place (byteLength s.text) c ∧
      ∀ e, (a.behaviour c.node).action = .close e →
        e.terminatorLength ≤ run.hold + byteLength s.text := by
  have hw := hr.run hrun
  obtain ⟨b, m, path, hp⟩ := hw.region
  have hbody : (place r.node).origin.IsBody := by rw [hp]; exact ⟨b, m, _, rfl⟩
  rw [StateGraph.move] at hm
  split at hm
  · next k hk =>
    cases hm
    have hl := h.leads hk
    have hact : (a.behaviour r.node).action = .none := by
      rcases hr.acted with hact | ⟨label, length, hact⟩
      · exact hact
      · exact absurd hbody (h.boundary_not_isBody hact)
    obtain ⟨spec, hspec, hint, hhold⟩ := hw.spec
    refine ⟨rfl, ⟨?_, hw.spec, hw.interior_le, ?_⟩, fun e he => ?_⟩
    · have ho := hl.origin_eq hbody
      rw [hp] at ho
      exact ⟨b, m, (place k).path, Locus.ext ho rfl⟩
    · rcases hw.fed with hfed | ⟨front, rest, hpend, hfront, hrest⟩
      · exact .inl hfed
      · refine .inr ⟨front, rest ++ s.text, ?_, hfront, ?_⟩
        · rw [hpend, List.append_assoc]
        · rw [Text.byteLength_append]
          omega
    · rw [hhold]
      exact h.terminatorLength_le hp hspec (fun hstay => h.settled hstay hact) hl he
  · next label hk =>
    have := (h.release hk).1
    rw [hp] at this
    cases this

/-- When the walk has landed, a run is open on a body. -/
theorem Sound.enter (hr : r.Sound a place 0) (h : Charted lexicon matchers a place)
    {s : Symbol} {c : Cursor} (hm : a.move r.toCursor s = .ok (c, ls))
    (he : Reading.enter a { r with toCursor := c } = .ok r') :
    r'.Poised a place (byteLength s.text) := by
  have hg := h.grounded_move hr.grounded hm
  rw [Reading.enter] at he
  split at he
  · next id hnone hid =>
    obtain ⟨⟨run, idle⟩, hwake, he⟩ := bind_eq_ok.1 he
    cases he
    obtain ⟨spec, p, hspec, rfl, rfl⟩ := Automaton.wake_eq_ok hwake
    obtain ⟨m, hp⟩ := h.run hid
    refine ⟨hg, fun hrun => ?_, fun {_ e} hrun hc => ?_⟩
    · cases hrun
      exact ⟨⟨c.node, m, [], hp⟩, ⟨spec, hspec, Nat.zero_add _, rfl⟩, Nat.le_refl _, .inl rfl⟩
    · rw [h.action_eq_none (by rw [hp]) (by rw [hp]; simp only [ne_eq, reduceCtorEq,
        not_false_eq_true])] at hc
      cases hc
  · cases he
    refine ⟨hg, fun hrun => (hr.move_of_run h hrun hm).2.1, fun hrun hc =>
      (hr.move_of_run h hrun hm).2.2 _ hc⟩

theorem sound_root (h : Charted lexicon matchers a place) (slack : Nat)
    (idle : Array (Option Progress)) : Reading.Sound a place slack { idle } :=
  ⟨h.grounded_root, .inl h.action_root, nofun⟩

/-- An open run is inside its region. -/
theorem Poised.run_eq_none {slack : Nat} (hr : r.Poised a place slack)
    (ho : ¬(place r.node).origin.IsBody) : r.run = none := by
  cases hrun : r.run with
  | none => rfl
  | some run =>
    obtain ⟨b, m, path, hp⟩ := (hr.run hrun).region
    exact absurd ⟨b, m, _, congrArg Locus.origin hp⟩ ho

/-- The run that ends is the one that is open. -/
theorem Poised.nested_of_run {slack : Nat} (hr : r.Poised a place slack)
    (h : Charted lexicon matchers a place) {run : NestedScan Progress} (hrun : r.run = some run)
    {c : Close} (hc : (a.behaviour r.node).action = .close c) :
    c.nested = some run.id ∧ run.interior = c.openerLength := by
  obtain ⟨b, m, path, hp⟩ := (hr.run hrun).region
  obtain ⟨b', m', nested, t, hk, hends⟩ := h.close_ends hc
  cases hp.symm.trans hk
  obtain ⟨-, -, -, _, _, T, -, -, -, hruns⟩ := h.body hk
  obtain ⟨spec, hspec, hint, -⟩ := (hr.run hrun).spec
  cases hspec.symm.trans hruns
  exact ⟨hends.nested, hint.trans hends.openerLength.symm⟩

/-- The opener and the terminator of a run that ends are pending. -/
theorem Poised.close_le {slack : Nat} (hr : r.Poised a place slack)
    (h : Charted lexicon matchers a place) {c : Close}
    (hc : (a.behaviour r.node).action = .close c) :
    c.openerLength + c.terminatorLength ≤ byteLength r.pending := by
  obtain ⟨b, m, nested, t, hk, hends⟩ := h.close_ends hc
  have hg := hr.grounded
  rw [Cursor.Grounded, hk] at hg
  simp only [Locus.least, Origin.least, pathText_spelling] at hg
  rwa [hends.openerLength, hends.terminatorLength]

/-- The run that is open or may be opened when a run ends has not been given its terminator. -/
theorem Poised.current {slack : Nat} (hr : r.Poised a place slack)
    (h : Charted lexicon matchers a place) {c : Close}
    (hc : (a.behaviour r.node).action = .close c) {id : RunId} (hid : c.nested = some id)
    {run : NestedScan Progress} {idle : Array (Option Progress)}
    (hrun : r.current a id = .ok (run, idle)) :
    run.interior = c.openerLength ∧ run.interior ≤ run.fed ∧
      run.fed + c.terminatorLength ≤ byteLength r.pending ∧
      (run.fed = run.interior ∨
        ∃ front rest, r.pending = front ++ rest ∧ byteLength front = run.fed) := by
  have hle := hr.close_le h hc
  rw [Reading.current] at hrun
  split at hrun
  · next hsome =>
    cases hrun
    have hw := hr.run hsome
    have hint := (hr.nested_of_run h hsome hc).2
    refine ⟨hint, hw.interior_le, ?_, ?_⟩
    · rcases hw.fed with hfed | ⟨front, rest, hp, hfront, hrest⟩
      · omega
      · have := hr.closes hsome hc
        rw [hp, Text.byteLength_append]
        omega
    · exact hw.fed.imp_right fun ⟨front, rest, hp, hfront, _⟩ => ⟨front, rest, hp, hfront⟩
  · obtain ⟨spec, p, hspec, -, rfl⟩ := Automaton.wake_eq_ok hrun
    have hint := h.openerLength_eq hc hid hspec
    simp only [Nat.zero_add, hint]
    exact ⟨trivial, Nat.le_refl _, hle, .inl trivial⟩

theorem Poised.close {slack : Nat} (hr : r.Poised a place slack)
    (h : Charted lexicon matchers a place) {c : Close}
    (hc : (a.behaviour r.node).action = .close c) (hs : r.close a inner c = .ok (r', ls)) :
    r'.Sound a place slack := by
  rcases close_cases hs with ⟨-, rfl, -⟩ | ⟨-, hnone, rfl, -⟩ | ⟨-, _, _, _, -, -, hgive⟩
  · obtain ⟨b, m, nested, t, hk, hends⟩ := h.close_ends hc
    have hb := (h.body hk).1
    rw [← hends.body] at hb
    refine ⟨?_, .inl ?_, fun {run} hrun => ?_⟩
    · have hle := hr.close_le h hc
      rw [hends.openerLength] at hle
      change (place c.body).least ≤ byteLength r.pending
      rw [hb]
      exact Nat.le_trans (Nat.le_add_right _ _) hle
    · exact h.action_eq_none (by rw [hb]) (by rw [hb]; exact nofun)
    · have hw := hr.run hrun
      obtain ⟨b', m', path, hp⟩ := hw.region
      cases hp.symm.trans hk
      exact ⟨⟨_, _, [], hb⟩, hw.spec, hw.interior_le, hw.fed⟩
  · cases hrun : r.run with
    | none => exact sound_root h slack _
    | some run => cases hnone.symm.trans (hr.nested_of_run h hrun hc).1
  · obtain ⟨_, _, _, _, _, -, -, -, rfl, -⟩ := exists_of_giveOut hgive
    exact sound_root h slack _

/-- A literal stands at the end of a path from the root, where no run is open. -/
theorem Poised.run_eq_none_of_literal {slack : Nat} (hr : r.Poised a place slack)
    (h : Charted lexicon matchers a place) {label : Option Label}
    (hc : (a.behaviour r.node).action = .literal label) : r.run = none := by
  refine hr.run_eq_none ?_
  have hfit := h.action r.node
  rw [hc] at hfit
  cases hfit with
  | literal hp => rw [hp]; exact Origin.not_isBody_of_mem (.inl rfl)

theorem Poised.settle {slack : Nat} (hr : r.Poised a place slack)
    (h : Charted lexicon matchers a place) (hs : r.settle a inner = .ok (r', ls)) :
    r'.Sound a place slack := by
  rw [Reading.settle] at hs
  split at hs
  · next hc => cases hs; exact ⟨hr.grounded, .inl hc, hr.run⟩
  · next hc => cases hs; exact ⟨hr.grounded, .inr ⟨_, _, hc⟩, hr.run⟩
  · next hc =>
    cases hs
    rw [hr.run_eq_none_of_literal h hc]
    exact sound_root h slack _
  · next hc => exact hr.close h hc hs

/-- After a terminator has been taken again from the root no run is open. -/
theorem Poised.retake {slack : Nat} (hr : r.Poised a place slack)
    (h : Charted lexicon matchers a place) {label : Label} {length : Nat}
    (hb : (a.behaviour r.node).action = .boundary label length) {text : List Char} {c : Cursor}
    (hm : a.retake {} text = .ok (c, ls)) :
    Reading.Poised a place slack { r with toCursor := c } := by
  have hrun := hr.run_eq_none (h.boundary_not_isBody hb)
  refine ⟨h.grounded_retake h.grounded_root hm, fun hr' => ?_, fun hr' => ?_⟩ <;>
    cases hrun.symm.trans hr'

theorem Poised.act {slack : Nat} (hr : r.Poised a place slack)
    (h : Charted lexicon matchers a place) (hs : r.act a inner = .ok (r', ls)) :
    r'.Sound a place slack := by
  rw [Reading.act] at hs
  split at hs
  · next hb =>
    obtain ⟨_, -, hs⟩ := bind_eq_ok.1 hs
    obtain ⟨⟨c, released⟩, hm, hs⟩ := bind_eq_ok.1 hs
    obtain ⟨⟨r₁, out⟩, hsettle, hs⟩ := bind_eq_ok.1 hs
    cases hs
    exact (hr.retake h hb hm).settle h hsettle
  · exact hr.settle h hs

theorem Sound.feed {slack : Nat} (hr : r.Sound a place slack) (hf : r.feed inner = .ok r') :
    r'.Sound a place 0 := by
  have hc := feed_toCursor hf
  have hweak {run : NestedScan Progress} (hrun : r.run = some run) :
      run.Within a place 0 r.toCursor := by
    have hw := hr.run hrun
    refine ⟨hw.region, hw.spec, hw.interior_le, hw.fed.imp_right ?_⟩
    rintro ⟨front, rest, hp, hfront, hrest⟩
    exact ⟨front, rest, hp, hfront, by omega⟩
  suffices hrun : ∀ run, r'.run = some run → run.Within a place 0 r'.toCursor by
    refine ⟨?_, ?_, hrun _⟩
    · rw [hc]; exact hr.grounded
    · rw [hc]; exact hr.acted
  rw [hc]
  intro run' hrun'
  rw [Reading.feed] at hf
  split at hf
  · cases hf; exact hweak hrun'
  · next run hrun =>
    split at hf
    · next hlt =>
      obtain ⟨⟨front, text⟩, hcut, hf⟩ := bind_eq_ok.1 hf
      obtain ⟨run₁, hfeed, hf⟩ := bind_eq_ok.1 hf
      cases hf
      cases hrun'
      obtain ⟨hid, hint, hhold, hfed⟩ := feed_eq_ok hfeed
      obtain ⟨hripe, hfront⟩ := cutFront_eq_ok.1 hcut
      obtain ⟨rest, hrest⟩ := Text.frontWithin_isPrefix (byteLength r.pending - run.hold) r.pending
      have hle := Text.byteLength_frontWithin_le (byteLength r.pending - run.hold) r.pending
      have hlen := congrArg byteLength hrest
      rw [Reading.ripe] at hripe hlt
      rw [Text.byteLength_append] at hlen
      have hw := hr.run hrun
      refine ⟨by rw [hid]; exact hw.region, by rw [hid, hint, hhold]; exact hw.spec, ?_,
        .inr ⟨_, rest, hrest.symm, ?_, ?_⟩⟩
      · have := hw.interior_le
        omega
      · rw [hfed, hripe, Text.byteLength_append, hfront]
      · omega
    · cases hf; exact hweak hrun'

/-! ### Whole scans -/

/-- A scan stays sound. -/
theorem Sound.advance (hr : r.Sound a place 0) (h : Charted lexicon matchers a place) {s : Symbol}
    (hs : r.advance a inner s = .ok (r', ls)) : r'.Sound a place 0 := by
  obtain ⟨⟨c, released⟩, hm, hs⟩ := bind_eq_ok.1 hs
  obtain ⟨r₁, he, hs⟩ := bind_eq_ok.1 hs
  obtain ⟨⟨r₂, out⟩, ha, hs⟩ := bind_eq_ok.1 hs
  obtain ⟨r₃, hf, hs⟩ := bind_eq_ok.1 hs
  cases hs
  exact ((hr.enter h hm he).act h ha).feed hf

theorem Sound.read (hr : r.Sound a place 0) (h : Charted lexicon matchers a place)
    {text : List Char} (hs : r.read a inner text = .ok (r', ls)) : r'.Sound a place 0 := by
  induction text generalizing r ls with
  | nil => cases hs; exact hr
  | cons c text ih =>
    obtain ⟨⟨r₁, out⟩, ha, hs⟩ := bind_eq_ok.1 hs
    obtain ⟨⟨r₂, outs⟩, hr', hs⟩ := bind_eq_ok.1 hs
    cases hs
    exact ih (hr.advance h ha) hr'

theorem sound_park (h : Charted lexicon matchers a place) (r : Reading) :
    r.park.Sound a place 0 := by
  rw [park]
  split <;> exact sound_root h 0 _

theorem Sound.take (hr : r.Sound a place 0) (h : Charted lexicon matchers a place) {input : Input}
    (hs : r.take a inner input = .ok (r', ls)) : r'.Sound a place 0 := by
  cases input with
  | chunk text => exact hr.read h hs
  | done =>
    obtain ⟨⟨r₁, out⟩, -, hs⟩ := bind_eq_ok.1 hs
    cases hs
    exact sound_park h _

end Reading

end TrieLexer
