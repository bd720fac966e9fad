import TrieLexer.Proofs.Forgetting

/-!
# Scans that coincide

A scan that is kept for later runs still holds the inner scans of earlier runs of its own, which it
takes up again and resets before they are given anything. Apart from these inner scans that are not
in use, a scan that began anew is in the same state whatever it has scanned before, and so is the
scan of its open run, at every depth.

## Main definitions

* `Progress.SamePlace` — scans that have come as far in the same text.
* `Progress.Coincides` — scans that are the same, except for inner scans that are not in use.

## Main results

* `Lawful.coincides` — scans that began anew coincide when they have been given the same text.
-/

namespace TrieLexer

namespace Progress

/-- Two scans stand at the same node and hold the same text. -/
structure SamePlace (p p' : Progress) : Prop where
  node : p'.node = p.node
  buffer : p'.buffer = p.buffer
  base : p'.base = p.base
  position : p'.position = p.position

/-- Two scans are the same except for inner scans that are not in use: those that are kept for
later runs, and those that the scan of an open run keeps. -/
inductive Coincides : Progress → Progress → Prop
  | idle {p p' : Progress} (h : p.SamePlace p') (hrun : p.run = none) (hrun' : p'.run = none) :
      Coincides p p'
  | running {p p' : Progress} {run run' : NestedScan Progress} (h : p.SamePlace p')
      (hrun : p.run = some run) (hrun' : p'.run = some run')
      (hsame : run' = { run with scan := run'.scan }) (hscan : Coincides run.scan run'.scan) :
      Coincides p p'

end Progress

/-- The inner scans of a run that began anew coincide when they have been given the same text. -/
def InnerScan.Reproduces (inner : InnerScan) (id : RunId) : Prop :=
  ∀ {q q' p p' : Progress} {x : String} {tokens tokens' : Array Token},
    inner id (q.reset 0) #[] (.chunk x) = .ok (p, tokens) →
    inner id (q'.reset 0) #[] (.chunk x) = .ok (p', tokens') → p.Coincides p' ∧ tokens' = tokens

namespace Reading

variable {inner : InnerScan} {r r' : Reading}

theorem samePlace_at (h : r'.toCursor = r.toCursor) (position : Nat) :
    (r.at position).SamePlace (r'.at position) := by
  obtain ⟨c, run, idle⟩ := r
  obtain ⟨c', run', idle'⟩ := r'
  obtain rfl : c' = c := h
  exact ⟨rfl, rfl, rfl, rfl⟩

/-- Scans that differ in the past of their inner scans coincide if these agree. -/
theorem Alike.coincides (hal : r.Alike r') (hfed : r.Fed inner) (hfed' : r'.Fed inner)
    (hreproduces : ∀ run, r.run = some run → inner.Reproduces run.id) (position : Nat) :
    (r.at position).Coincides (r'.at position) := by
  have hplace := samePlace_at hal.toCursor position
  rcases hal.run with ⟨hnone, hnone'⟩ | ⟨run, run', hrun, hrun', halrun⟩
  · exact .idle hplace (by simp [Reading.at, Window.progress, hnone])
      (by simp [Reading.at, Window.progress, hnone'])
  · have hrunfed' := hfed' run' hrun'
    rw [hal.pending] at hrunfed'
    -- Both inner scans have been given the same text since they began anew.
    obtain ⟨text, ⟨q, hq⟩, ⟨q', hq'⟩⟩ := halrun.given (hfed run hrun) hrunfed'
    obtain ⟨hscan, htokens⟩ := hreproduces run hrun hq hq'
    have hsame : run' = { run with scan := run'.scan } := by
      obtain ⟨id, scan, interior, fed, hold, tokens⟩ := run
      obtain ⟨id', scan', interior', fed', hold', tokens'⟩ := run'
      obtain ⟨rfl, rfl, rfl, rfl⟩ := halrun
      obtain rfl := htokens
      rfl
    have hforward {r : Reading} {run : NestedScan Progress} (h : r.run = some run) :
        (r.at position).run = some (run.forward position) := by
      simp [Reading.at, Window.progress, h, Window.position]
    refine .running hplace (hforward hrun) (hforward hrun') ?_ hscan
    rw [hsame]
    rfl

end Reading

/-- A scan of a charted automaton that began anew coincides with any other one that has been given
the same text, if the inner scans do. -/
theorem Charted.coincides_scan {lexicon : Lexicon} {matchers : List (GreedyMatcher Compilation)}
    {a : Automaton} {place : NodeId → Locus} (h : Charted lexicon matchers a place)
    (htakes : ∀ id spec, a.runs[id]? = some spec → a.inner.Takes id)
    (hforgets : ∀ id spec, a.runs[id]? = some spec → a.inner.Forgets id)
    (hreproduces : ∀ id spec, a.runs[id]? = some spec → a.inner.Reproduces id) {q p : Progress}
    {x : String} {tokens : Array Token}
    (hq : a.scan .collect (q.reset 0) #[] (.chunk x) = .ok (p, tokens)) (q' : Progress) :
    ∃ p', a.scan .collect (q'.reset 0) #[] (.chunk x) = .ok (p', tokens) ∧ p.Coincides p' := by
  have hr := Reading.sound_root h 0 (q.reset 0).idle
  have hr' := Reading.sound_root h 0 (q'.reset 0).idle
  have hfed : Reading.Fed a.inner { idle := (q.reset 0).idle } := Reading.fed_of_run_eq_none rfl
  have hfed' : Reading.Fed a.inner { idle := (q'.reset 0).idle } := Reading.fed_of_run_eq_none rfl
  rw [Automaton.scan, q.reset_eq 0, hr.scanWith_eq _ _ h] at hq
  cases ht : Reading.take a a.inner { idle := (q.reset 0).idle } (.chunk x) with
  | error e => rw [ht] at hq; cases hq
  | ok z =>
    obtain ⟨r₁, ls⟩ := z
    rw [ht] at hq
    cases hq
    have hroot : Reading.Alike { idle := (q.reset 0).idle } { idle := (q'.reset 0).idle } :=
      Reading.alike_of_run_eq_none rfl rfl rfl
    obtain ⟨r₁', ht', hal⟩ := hroot.take htakes hforgets hr hr' h hfed hfed' ht
    refine ⟨r₁'.at (0 + Text.byteLength (spelled ls)), ?_, ?_⟩
    · rw [Automaton.scan, q'.reset_eq 0, hr'.scanWith_eq _ _ h, ht']
      rfl
    · refine hal.coincides (hr.take_scanned htakes hfed h ht).1
        (hr'.take_scanned htakes hfed' h ht').1 (fun run hrun => ?_) _
      obtain ⟨spec, hspec, -⟩ := ((hr.take h ht).run hrun).spec
      exact hreproduces _ spec hspec

/-- The inner scans of runs agree if the scans of their automata coincide. -/
theorem Automaton.reproduces_inner {a : Automaton} {id : RunId} {spec : NestedRun Automaton}
    (hs : a.runs[id]? = some spec)
    (h : ∀ {q p : Progress} {x : String} {tokens : Array Token},
      spec.automaton.scan .collect (q.reset 0) #[] (.chunk x) = .ok (p, tokens) →
      ∀ q' : Progress, ∃ p', spec.automaton.scan .collect (q'.reset 0) #[] (.chunk x) =
        .ok (p', tokens) ∧ p.Coincides p') : a.inner.Reproduces id := by
  intro q q' p p' x tokens tokens' hq hq'
  rw [Automaton.inner_eq hs] at hq hq'
  obtain ⟨p₁, hp₁, hscan⟩ := h hq q'
  cases hp₁.symm.trans hq'
  exact ⟨hscan, rfl⟩

/-- A scan that began anew comes to a state that depends on the text alone, up to inner scans that
are not in use, and so do its tokens. -/
theorem Lawful.coincides {clean : Prop} {a : Automaton} (h : Lawful clean a) {q p : Progress}
    {x : String} {tokens : Array Token}
    (hq : a.scan .collect (q.reset 0) #[] (.chunk x) = .ok (p, tokens)) (q' : Progress) :
    ∃ p', a.scan .collect (q'.reset 0) #[] (.chunk x) = .ok (p', tokens) ∧ p.Coincides p' := by
  induction h generalizing q p x tokens q' with
  | mk hchart hlone hruns ih =>
    have hlawful := Lawful.mk hchart hlone hruns
    refine hchart.coincides_scan (fun _ _ hs => hlawful.takes hs) (fun _ _ hs => hlawful.forgets hs)
      (fun _ spec hs => Automaton.reproduces_inner hs fun hq q' => ?_) hq q'
    exact ih spec (List.mem_of_getElem? hs) hq q'

end TrieLexer
