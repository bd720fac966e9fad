import TrieLexer.Proofs.Fidelity

/-!
# What inner scans remember

The inner scan of a run is kept when the run is over, and begins anew in the next run of the same
matcher. What it has scanned before makes no difference: the tokens of an interior are those of a
scan that has never been used. For this two scans are read side by side, whose walks stand at the
same node with the same text pending, and whose open runs have the same measures, while their inner
scans may have any past.

## Main definitions

* `InnerScan.Forgets` — an inner scan that began anew does not remember what it did before.
* `Reading.Alike` — scans that differ in the past of their inner scans.

## Main results

* `Reading.Alike.take` — such scans give out the same lexemes.
* `Lawful.forgets` — the inner scans of a lawful automaton forget.
* `Lexeme.Scanned.tokenize` — the tokens of a nested run are those of its interior alone.
-/

namespace TrieLexer

open Text (byteLength)

/-- An inner scan that began anew does not remember what it did before. -/
structure InnerScan.Forgets (inner : InnerScan) (id : RunId) : Prop where
  again {q p : Progress} {x : String} {tokens : Array Token}
    (h : inner id (q.reset 0) #[] (.chunk x) = .ok (p, tokens)) (q' : Progress) :
    ∃ p', inner id (q'.reset 0) #[] (.chunk x) = .ok (p', tokens) ∧
      ∀ z, inner id p tokens .done = .ok z → ∃ z', inner id p' tokens .done = .ok z' ∧ z'.2 = z.2

namespace InnerScan

variable {inner : InnerScan} {id : RunId} {text more : List Char} {p p' : Progress}
  {tokens tokens' : Array Token} {z : Progress × Array Token}

/-- So do the tokens when more text is given. -/
theorem Given.chunk (h : inner.Given id text p tokens) (hf : inner.Forgets id)
    (ht : inner.Takes id) (h' : inner.Given id text p' tokens')
    (hy : inner id p tokens (.chunk (String.ofList more)) = .ok z) :
    ∃ z', inner id p' tokens' (.chunk (String.ofList more)) = .ok z' := by
  obtain ⟨q, hq⟩ := h
  obtain ⟨q', hq'⟩ := h'
  have hall : inner id (q.reset 0) #[] (.chunk (String.ofList text ++ String.ofList more)) =
      .ok z := by
    rw [ht.append, hq, ok_bind, hy]
  obtain ⟨p₂, hp₂, -⟩ := hf.again hall q'
  rw [ht.append, hq', ok_bind] at hp₂
  exact ⟨_, hp₂⟩

/-- So do the tokens at the end. -/
theorem Given.done (h : inner.Given id text p tokens) (hf : inner.Forgets id)
    (h' : inner.Given id text p' tokens') (hy : inner id p tokens .done = .ok z) :
    ∃ z', inner id p' tokens' .done = .ok z' ∧ z'.2 = z.2 := by
  obtain ⟨q, hq⟩ := h
  obtain ⟨q', hq'⟩ := h'
  obtain ⟨p₂, hp₂, hdone⟩ := hf.again hq q'
  cases hq'.symm.trans hp₂
  exact hdone _ hy

end InnerScan

/-! ### Open runs -/

namespace NestedScan

variable {inner : InnerScan} {run run' run₁ : NestedScan Progress} {pending : List Char}

/-- Two open runs have the same measures. -/
structure Alike (run run' : NestedScan Progress) : Prop where
  id : run'.id = run.id
  interior : run'.interior = run.interior
  fed : run'.fed = run.fed
  hold : run'.hold = run.hold

/-- Runs with the same measures have been given the same text. -/
theorem Alike.given (hal : run.Alike run') (h : run.Fed inner pending)
    (h' : run'.Fed inner pending) : ∃ text, inner.Given run.id text run.scan run.tokens ∧
      inner.Given run.id text run'.scan run'.tokens := by
  obtain ⟨text, hgiven, hfed, hpart⟩ := h
  obtain ⟨text', hgiven', hfed', hpart'⟩ := h'
  rw [hal.id] at hgiven'
  refine ⟨text, hgiven, ?_⟩
  suffices hsame : text = text' by rwa [hsame]
  have hlength : byteLength text = byteLength text' := by
    rw [hal.fed, hal.interior] at hfed'
    omega
  rcases hpart with rfl | ⟨opener, rest, hp, hopener⟩
  · exact (Text.byteLength_eq_zero_iff.1 hlength.symm).symm
  · rcases hpart' with rfl | ⟨opener', rest', hp', hopener'⟩
    · exact Text.byteLength_eq_zero_iff.1 hlength
    · rw [hp, List.append_assoc, List.append_assoc] at hp'
      obtain ⟨-, hp'⟩ := Text.append_inj_of_byteLength hp'
        (hopener.trans (hopener'.trans hal.interior).symm)
      exact (Text.append_inj_of_byteLength hp' hlength).1

/-- Runs that are given the same text stay alike. -/
theorem Alike.feed (hal : run.Alike run') (h : run.Fed inner pending)
    (h' : run'.Fed inner pending) (hf : inner.Forgets run.id) (ht : inner.Takes run.id)
    {text : List Char} (hy : run.feed inner (String.ofList text) = .ok run₁) :
    ∃ run₁', run'.feed inner (String.ofList text) = .ok run₁' ∧ run₁.Alike run₁' := by
  rw [NestedScan.feed] at hy ⊢
  split at hy
  · next hempty =>
    cases hy
    exact ⟨run', if_pos hempty, hal⟩
  · next hempty =>
    obtain ⟨z, hz, hy⟩ := bind_eq_ok.1 hy
    cases hy
    obtain ⟨before, hgiven, hgiven'⟩ := hal.given h h'
    obtain ⟨z', hz'⟩ := hgiven.chunk hf ht hgiven' hz
    rw [if_neg hempty, hal.id, hz', ok_bind]
    exact ⟨_, rfl, rfl, hal.interior, congrArg (· + _) hal.fed, hal.hold⟩

end NestedScan

/-! ### Scans side by side -/

namespace Reading

variable {lexicon : Lexicon} {matchers : List (GreedyMatcher Compilation)} {a : Automaton}
  {place : NodeId → Locus} {inner : InnerScan} {r r' r₁ : Reading} {ls : List Lexeme} {slack : Nat}
  {run run' : NestedScan Progress} {idle idle' : Array (Option Progress)}

/-- Scans that differ in the past of their inner scans. -/
structure Alike (r r' : Reading) : Prop where
  toCursor : r'.toCursor = r.toCursor
  run : (r.run = none ∧ r'.run = none) ∨
    ∃ run run', r.run = some run ∧ r'.run = some run' ∧ run.Alike run'

/-- Without an open run only the walk is left. -/
theorem alike_of_run_eq_none (hc : r'.toCursor = r.toCursor) (h : r.run = none)
    (h' : r'.run = none) : r.Alike r' :=
  ⟨hc, .inl ⟨h, h'⟩⟩

theorem Alike.pending (hal : r.Alike r') : r'.pending = r.pending := by rw [hal.toCursor]

theorem Alike.node (hal : r.Alike r') : r'.node = r.node := by rw [hal.toCursor]

theorem Alike.setCursor (hal : r.Alike r') (c : Cursor) :
    Alike { r with toCursor := c } { r' with toCursor := c } :=
  ⟨rfl, hal.run⟩

theorem Alike.run_eq_none (hal : r.Alike r') (h : r.run = none) : r'.run = none := by
  rcases hal.run with ⟨-, h'⟩ | ⟨run, _, hrun, -⟩
  · exact h'
  · cases hrun.symm.trans h

theorem alike_of_wake {id : RunId} (h : a.wake idle id 0 = .ok (run, idle₁))
    (idle' : Array (Option Progress)) :
    ∃ run' idle₁', a.wake idle' id 0 = .ok (run', idle₁') ∧ run.Alike run' := by
  rw [Automaton.wake] at h ⊢
  split at h
  · cases h
  · cases h
    exact ⟨_, _, rfl, rfl, rfl, rfl, rfl⟩

theorem Alike.enter (hal : r.Alike r') (he : r.enter a = .ok r₁) :
    ∃ r₁', r'.enter a = .ok r₁' ∧ r₁.Alike r₁' := by
  rw [Reading.enter] at he ⊢
  rw [hal.node]
  rcases hal.run with ⟨hnone, hnone'⟩ | ⟨run, run', hrun, hrun', -⟩
  · rw [hnone] at he
    rw [hnone']
    split at he
    · next id _ hid =>
      obtain ⟨⟨run, idle⟩, hwake, he⟩ := bind_eq_ok.1 he
      cases he
      obtain ⟨run', idle', hwake', hrun⟩ := alike_of_wake hwake r'.idle
      simp only [hwake', ok_bind]
      exact ⟨_, rfl, hal.toCursor, .inr ⟨run, run', rfl, rfl, hrun⟩⟩
    · cases he
      exact ⟨r', rfl, hal⟩
  · rw [hrun] at he
    rw [hrun']
    cases he
    exact ⟨r', rfl, hal⟩

/-- Runs that are alike are given out with the same tokens. -/
theorem alike_giveOut {pending : List Char} {c : Close} (hal : run.Alike run')
    (h : run.Fed inner pending) (h' : run'.Fed inner pending) (hf : inner.Forgets run.id)
    (ht : inner.Takes run.id) (idle' : Array (Option Progress))
    (hs : giveOut inner pending idle run c = .ok (r₁, ls)) :
    ∃ r₁', giveOut inner pending idle' run' c = .ok (r₁', ls) ∧ r₁.Alike r₁' := by
  obtain ⟨⟨before, terminator⟩, hback, hs⟩ := bind_eq_ok.1 hs
  obtain ⟨⟨front, unfed⟩, hfront, hs⟩ := bind_eq_ok.1 hs
  obtain ⟨run₁, hfeed, hs⟩ := bind_eq_ok.1 hs
  obtain ⟨⟨opener, interior⟩, hopener, hs⟩ := bind_eq_ok.1 hs
  obtain ⟨⟨scan, tokens⟩, hdone, hs⟩ := bind_eq_ok.1 hs
  cases hs
  obtain ⟨run₁', hfeed', hal₁⟩ := hal.feed h h' hf ht hfeed
  obtain ⟨hbefore, hfed⟩ := cutFront_eq_ok.1 hfront
  have hpending : pending = front ++ unfed ++ terminator := by
    rw [(cutBack_eq_ok.1 hback).1, hbefore]
  have hid : run₁.id = run.id := (feed_eq_ok hfeed).1
  obtain ⟨text, hgiven, hgiven'⟩ := hal₁.given (h.feed ht hpending hfed hfeed)
    (h'.feed (hal.id ▸ ht) hpending (hfed.trans hal.fed.symm) hfeed')
  obtain ⟨⟨scan', tokens'⟩, hdone', htokens⟩ := hgiven.done (hid ▸ hf) hgiven' hdone
  obtain rfl : tokens' = tokens := htokens
  simp only [giveOut, hback, ok_bind, hal.fed, hfront, hfeed', handOver, hal₁.interior, hopener,
    hal₁.id, hdone']
  exact ⟨_, rfl, alike_of_run_eq_none rfl rfl rfl⟩

variable (htakes : ∀ id spec, a.runs[id]? = some spec → inner.Takes id)
  (hforgets : ∀ id spec, a.runs[id]? = some spec → inner.Forgets id)

include htakes hforgets

theorem Poised.alike_close (hr : r.Poised a place slack) (hfed : r.Fed inner)
    (hfed' : r'.Fed inner) (hal : r.Alike r') {c : Close}
    (hs : r.close a inner c = .ok (r₁, ls)) :
    ∃ r₁', r'.close a inner c = .ok (r₁', ls) ∧ r₁.Alike r₁' := by
  obtain ⟨escaped, hescaped, hs⟩ := bind_eq_ok.1 hs
  rw [Reading.close, hal.pending, hescaped, ok_bind]
  split at hs
  · next he =>
    cases hs
    rw [if_pos he]
    exact ⟨_, rfl, rfl, hal.run⟩
  · next he =>
    rw [if_neg he]
    split at hs
    · cases hs
      exact ⟨_, rfl, rfl, hal.run⟩
    · next id hid =>
      obtain ⟨⟨run, idle⟩, hcurrent, hs⟩ := bind_eq_ok.1 hs
      rw [Reading.current] at hcurrent ⊢
      rcases hal.run with ⟨hnone, hnone'⟩ | ⟨run₀, run', hrun, hrun', halrun⟩
      · rw [hnone] at hcurrent
        rw [hnone']
        obtain ⟨run', idle', hwake', halrun⟩ := alike_of_wake hcurrent r'.idle
        obtain ⟨spec, -, hspec, -, -⟩ := Automaton.wake_eq_ok hcurrent
        obtain ⟨hrunfed, hrunid⟩ := NestedScan.fed_of_wake htakes hcurrent r.pending
        obtain ⟨hrunfed', -⟩ := NestedScan.fed_of_wake htakes hwake' r.pending
        simp only [hwake', ok_bind]
        exact alike_giveOut halrun hrunfed hrunfed' (hrunid ▸ hforgets id spec hspec)
          (hrunid ▸ htakes id spec hspec) idle' hs
      · rw [hrun] at hcurrent
        cases hcurrent
        rw [hrun']
        obtain ⟨spec, hspec, -⟩ := (hr.run hrun).spec
        have hrunfed' := hfed' run' hrun'
        rw [hal.pending] at hrunfed'
        exact alike_giveOut halrun (hfed _ hrun) hrunfed' (hforgets _ spec hspec)
          (htakes _ spec hspec) r'.idle hs

theorem Poised.alike_settle (hr : r.Poised a place slack) (hfed : r.Fed inner)
    (hfed' : r'.Fed inner) (hal : r.Alike r')
    (hs : r.settle a inner = .ok (r₁, ls)) :
    ∃ r₁', r'.settle a inner = .ok (r₁', ls) ∧ r₁.Alike r₁' := by
  rw [Reading.settle] at hs ⊢
  rw [hal.node]
  split at hs
  · cases hs
    exact ⟨r', rfl, hal⟩
  · cases hs
    exact ⟨r', rfl, hal⟩
  · cases hs
    rw [hal.pending]
    exact ⟨_, rfl, rfl, hal.run⟩
  · exact hr.alike_close htakes hforgets hfed hfed' hal hs

theorem Poised.alike_act (hr : r.Poised a place slack) (h : Charted lexicon matchers a place)
    (hfed : r.Fed inner) (hfed' : r'.Fed inner) (hal : r.Alike r')
    (hs : r.act a inner = .ok (r₁, ls)) :
    ∃ r₁', r'.act a inner = .ok (r₁', ls) ∧ r₁.Alike r₁' := by
  rw [Reading.act] at hs ⊢
  rw [hal.node]
  split at hs
  · next hb =>
    obtain ⟨⟨before, terminator⟩, hcut, hs⟩ := bind_eq_ok.1 hs
    obtain ⟨⟨c, released⟩, hm, hs⟩ := bind_eq_ok.1 hs
    obtain ⟨⟨r₂, out⟩, hsettle, hs⟩ := bind_eq_ok.1 hs
    cases hs
    have hnone := hr.run_eq_none (h.boundary_not_isBody hb)
    have hnone' : Reading.run { r' with toCursor := c } = none := hal.run_eq_none hnone
    obtain ⟨r₂', hsettle', hal'⟩ := (hr.retake h hb hm).alike_settle htakes hforgets
      (fed_of_run_eq_none hnone) (fed_of_run_eq_none hnone') (hal.setCursor c) hsettle
    simp only [hal.pending, hcut, ok_bind, hm, hsettle']
    exact ⟨r₂', rfl, hal'⟩
  · exact hr.alike_settle htakes hforgets hfed hfed' hal hs

theorem Sound.alike_feed (hr : r.Sound a place slack) (hfed : r.Fed inner) (hfed' : r'.Fed inner)
    (hal : r.Alike r') (hs : r.feed inner = .ok r₁) :
    ∃ r₁', r'.feed inner = .ok r₁' ∧ r₁.Alike r₁' := by
  rw [Reading.feed] at hs ⊢
  rcases hal.run with ⟨hnone, hnone'⟩ | ⟨run, run', hrun, hrun', halrun⟩
  · rw [hnone] at hs
    rw [hnone']
    cases hs
    exact ⟨r', rfl, hal⟩
  · rw [hrun] at hs
    rw [hrun']
    obtain ⟨spec, hspec, -⟩ := (hr.run hrun).spec
    have hripe : r'.ripe run'.hold = r.ripe run.hold := by
      rw [ripe, ripe, hal.pending, halrun.hold]
    simp only [hripe, halrun.fed] at hs ⊢
    split at hs
    · next hlt =>
      obtain ⟨⟨front, text⟩, hcut, hs⟩ := bind_eq_ok.1 hs
      obtain ⟨run₁, hfeed, hs⟩ := bind_eq_ok.1 hs
      cases hs
      have hrunfed' := hfed' run' hrun'
      rw [hal.pending] at hrunfed'
      obtain ⟨run₁', hfeed', hal₁⟩ := halrun.feed (hfed run hrun) hrunfed'
        (hforgets _ spec hspec) (htakes _ spec hspec) hfeed
      simp only [if_pos hlt, hcut, ok_bind, hfeed']
      exact ⟨_, rfl, hal.toCursor, .inr ⟨run₁, run₁', rfl, rfl, hal₁⟩⟩
    · next hlt =>
      cases hs
      rw [if_neg hlt]
      exact ⟨r', rfl, hal⟩

/-- A symbol leads from scans that are alike to scans that are alike. -/
theorem Sound.alike_advance (hr : r.Sound a place 0) (hr' : r'.Sound a place 0)
    (h : Charted lexicon matchers a place) (hfed : r.Fed inner) (hfed' : r'.Fed inner)
    (hal : r.Alike r') {s : Symbol} (hs : r.advance a inner s = .ok (r₁, ls)) :
    ∃ r₁', r'.advance a inner s = .ok (r₁', ls) ∧ r₁.Alike r₁' := by
  obtain ⟨⟨c, released⟩, hm, hs⟩ := bind_eq_ok.1 hs
  obtain ⟨r₂, he, hs⟩ := bind_eq_ok.1 hs
  obtain ⟨⟨r₃, out⟩, ha, hs⟩ := bind_eq_ok.1 hs
  obtain ⟨r₄, hfeed, hs⟩ := bind_eq_ok.1 hs
  cases hs
  have hm' : a.move r'.toCursor s = .ok (c, released) := by rw [hal.toCursor, hm]
  obtain ⟨r₂', he', hal₂⟩ := (hal.setCursor c).enter he
  have hp₂ := hr.enter h hm he
  have hp₂' := hr'.enter h hm' he'
  have hfed₂ := hfed.landed htakes hr h hm he
  have hfed₂' := hfed'.landed htakes hr' h hm' he'
  obtain ⟨r₃', ha', hal₃⟩ := hp₂.alike_act htakes hforgets h hfed₂ hfed₂' hal₂ ha
  obtain ⟨r₄', hfeed', hal₄⟩ := (hp₂.act h ha).alike_feed htakes hforgets
    (hp₂.scanned_act htakes hfed₂ h ha).1 (hp₂'.scanned_act htakes hfed₂' h ha').1 hal₃ hfeed
  simp only [Reading.advance, hm', ok_bind, he', ha', hfeed']
  exact ⟨r₄', rfl, hal₄⟩

theorem Sound.alike_read (hr : r.Sound a place 0) (hr' : r'.Sound a place 0)
    (h : Charted lexicon matchers a place) (hfed : r.Fed inner) (hfed' : r'.Fed inner)
    (hal : r.Alike r') {text : List Char} (hs : r.read a inner text = .ok (r₁, ls)) :
    ∃ r₁', r'.read a inner text = .ok (r₁', ls) ∧ r₁.Alike r₁' := by
  induction text generalizing r r' ls with
  | nil =>
    cases hs
    exact ⟨r', rfl, hal⟩
  | cons c text ih =>
    obtain ⟨⟨r₂, out⟩, ha, hs⟩ := bind_eq_ok.1 hs
    obtain ⟨⟨r₃, outs⟩, hread, hs⟩ := bind_eq_ok.1 hs
    cases hs
    obtain ⟨r₂', ha', hal₂⟩ := hr.alike_advance htakes hforgets hr' h hfed hfed' hal ha
    obtain ⟨r₃', hread', hal₃⟩ := ih (hr.advance h ha) (hr'.advance h ha')
      (hr.advance_scanned htakes hfed h ha).1 (hr'.advance_scanned htakes hfed' h ha').1 hal₂ hread
    simp only [Reading.read, ha', ok_bind, hread']
    exact ⟨r₃', rfl, hal₃⟩

/-- Scans that are alike give out the same lexemes. -/
theorem Alike.take (hal : r.Alike r') (hr : r.Sound a place 0) (hr' : r'.Sound a place 0)
    (h : Charted lexicon matchers a place) (hfed : r.Fed inner) (hfed' : r'.Fed inner)
    {input : Input} (hs : r.take a inner input = .ok (r₁, ls)) :
    ∃ r₁', r'.take a inner input = .ok (r₁', ls) ∧ r₁.Alike r₁' := by
  cases input with
  | chunk text => exact hr.alike_read htakes hforgets hr' h hfed hfed' hal hs
  | done =>
    obtain ⟨⟨r₂, out⟩, ha, hs⟩ := bind_eq_ok.1 hs
    cases hs
    obtain ⟨r₂', ha', hal₂⟩ := hr.alike_advance htakes hforgets hr' h hfed hfed' hal ha
    simp only [Reading.take, Reading.finish, ha', ok_bind, hal₂.pending]
    refine ⟨r₂'.park, rfl, alike_of_run_eq_none ?_ ?_ ?_⟩
    · rw [park, park]
      split <;> split <;> rfl
    all_goals
      rw [park]
      split <;> rfl

end Reading

/-! ### Lawful automata -/

/-- A scan that began anew finds the same tokens, whatever its inner scans have done before. -/
theorem Charted.forgets_scan {lexicon : Lexicon} {matchers : List (GreedyMatcher Compilation)}
    {a : Automaton} {place : NodeId → Locus} (h : Charted lexicon matchers a place)
    (htakes : ∀ id spec, a.runs[id]? = some spec → a.inner.Takes id)
    (hforgets : ∀ id spec, a.runs[id]? = some spec → a.inner.Forgets id) :
    InnerScan.Forgets (fun _ => a.scan .collect) 0 := by
  refine ⟨fun {q p x tokens} hq q' => ?_⟩
  have hr := Reading.sound_root h 0 (q.reset 0).idle
  have hr' := Reading.sound_root h 0 (q'.reset 0).idle
  have hfed : Reading.Fed a.inner { idle := (q.reset 0).idle } := Reading.fed_of_run_eq_none rfl
  have hfed' : Reading.Fed a.inner { idle := (q'.reset 0).idle } := Reading.fed_of_run_eq_none rfl
  rw [Automaton.scan, q.reset_eq 0, hr.scanWith_eq _ _ h] at hq
  cases ht : Reading.take a a.inner { idle := (q.reset 0).idle } (.chunk x) with
  | error e => rw [ht] at hq; cases hq
  | ok z =>
    obtain ⟨r₁, ls⟩ := z
    rw [ht] at hq
    cases hq
    have hroot : Reading.Alike { idle := (q.reset 0).idle } { idle := (q'.reset 0).idle } :=
      Reading.alike_of_run_eq_none rfl rfl rfl
    obtain ⟨r₁', ht', hal⟩ := hroot.take htakes hforgets hr hr' h hfed hfed' ht
    refine ⟨r₁'.at (0 + byteLength (spelled ls)), ?_, fun z hz => ?_⟩
    · rw [Automaton.scan, q'.reset_eq 0, hr'.scanWith_eq _ _ h, ht']
      rfl
    · have hr₁ := hr.take h ht
      have hr₁' := hr'.take h ht'
      rw [Automaton.scan, hr₁.scanWith_eq _ _ h] at hz
      cases hd : r₁.take a a.inner .done with
      | error e => rw [hd] at hz; cases hz
      | ok w =>
        rw [hd] at hz
        cases hz
        obtain ⟨r₂', hd', -⟩ := hal.take htakes hforgets hr₁ hr₁' h
          (hr.take_scanned htakes hfed h ht).1 (hr'.take_scanned htakes hfed' h ht').1 hd
        rw [Automaton.scan, hr₁'.scanWith_eq _ _ h, hd']
        exact ⟨_, rfl, rfl⟩

/-- The inner scans of a lawful automaton forget. -/
theorem Lawful.forgets {clean : Prop} {a : Automaton} (h : Lawful clean a) :
    ∀ {id : RunId} {spec : NestedRun Automaton}, a.runs[id]? = some spec →
      a.inner.Forgets id := by
  induction h with
  | mk hchart hlone hruns ih =>
    intro id spec hs
    have hmem := List.mem_of_getElem? hs
    cases hruns spec hmem with
    | mk hchart' hlone' hruns' =>
      have hlawful := Lawful.mk hchart' hlone' hruns'
      have hforgets := hchart'.forgets_scan (fun _ _ hs' => hlawful.takes hs')
        (fun _ _ hs' => ih spec hmem hs')
      refine ⟨fun {q p x tokens} hq => ?_⟩
      rw [Automaton.inner_eq hs] at hq ⊢
      exact hforgets.again hq

/-- The tokens of a nested run are those of its interior alone. -/
theorem Lexeme.Scanned.tokenize {clean : Prop} {a : Automaton} (h : Lawful clean a)
    {opener interior terminator : List Char} {c : Close} {tokens : List Token}
    (hl : (Lexeme.nested opener interior terminator c tokens).Scanned a.inner) :
    ∃ id spec, c.nested = some id ∧ a.runs[id]? = some spec ∧
      spec.automaton.tokenize (String.ofList interior) = .ok tokens := by
  obtain ⟨id, p, scan, start, hid, ⟨q, hq⟩, hdone⟩ := hl
  obtain ⟨spec, hspec⟩ := Automaton.exists_of_inner hdone
  refine ⟨id, spec, hid, hspec, ?_⟩
  obtain ⟨p', hp', hdone'⟩ := (h.forgets hspec).again hq (.start spec.automaton.runs.length)
  obtain ⟨⟨z, out⟩, hz, hout⟩ := hdone' _ hdone
  rw [Automaton.inner_eq hspec] at hp' hz
  have hscan : Scanner.scan .collect (.ofAutomaton spec.automaton) #[] (String.ofList interior) =
      .ok (⟨spec.automaton, z⟩, out) := by
    simp only [Scanner.scan, Scanner.consume, Scanner.flush, Scanner.handle, Scanner.reset,
      Scanner.ofAutomaton, hp', ok_bind]
    change spec.automaton.scan .collect p' start .done >>= _ = _
    rw [hz]
    rfl
  obtain rfl : out = tokens.toArray := hout
  rw [Automaton.tokenize, hscan]
  rfl

end TrieLexer
