import Mathlib.Data.List.Forall2
import TrieLexer.Proofs.Sources

/-!
# Automata that leave tokens out

The text of an unnamed delimiter is passed over, or given out under a label. This makes no
difference to the walk: the next token begins at the same place, and the same text is held. So two
automata that differ in the label of their unnamed delimiters, here or in an interior, scan any
input alike, and the one gives out what the other one does without some tokens under the label.

## Main definitions

* `Agrees` — two answers are results that are related, or the same fault.
* `Thins` — tokens of which some under a label have been left out.
* `Automaton.Mutes` — an automaton that leaves out some tokens of another one.
* `Progress.Paired` — scans that differ in the tokens of open runs alone.

## Main results

* `Automaton.Mutes.step` — a symbol keeps scans alike.
* `Automaton.Mutes.scan` — so do a chunk of input and its end, at every depth.
* `Scanner.Mutes.performAll` — two scanners answer calls alike.
-/

namespace TrieLexer

/-! ### Answers -/

/-- Two answers are results that are related, or the same fault. -/
inductive Agrees {ε α β : Type} (R : α → β → Prop) : Except ε α → Except ε β → Prop
  | ok {x : α} {y : β} (h : R x y) : Agrees R (.ok x) (.ok y)
  | error (e : ε) : Agrees R (.error e) (.error e)

section Agrees

variable {ε α β γ δ : Type} {R : α → β → Prop} {Q : γ → δ → Prop}

theorem Agrees.bind {x : Except ε α} {y : Except ε β} {f : α → Except ε γ} {g : β → Except ε δ}
    (h : Agrees R x y) (hf : ∀ a b, x = .ok a → R a b → Agrees Q (f a) (g b)) :
    Agrees Q (x >>= f) (y >>= g) := by
  cases h with
  | ok h => exact hf _ _ rfl h
  | error e => exact .error e

theorem agrees_self (x : Except ε α) : Agrees Eq x x := by
  cases x with
  | ok a => exact .ok rfl
  | error e => exact .error e

/-- What follows the same step may differ. -/
theorem agrees_bind_self {x : Except ε α} {f : α → Except ε γ} {g : α → Except ε δ}
    (h : ∀ a, Agrees Q (f a) (g a)) : Agrees Q (x >>= f) (x >>= g) :=
  (agrees_self x).bind fun a _ _ hab => hab ▸ h a

end Agrees

variable {label : Label} {named : Label → Prop}

/-! ### Tokens -/

/-- Tokens of which some under a label have been left out. The labels of all others are named. -/
inductive Thins (label : Label) (named : Label → Prop) : List Token → List Token → Prop
  | nil : Thins label named [] []
  | keep {t : Token} {ts ts' : List Token} (ht : named t.kind) (h : Thins label named ts ts') :
      Thins label named (t :: ts) (t :: ts')
  | drop {t : Token} {ts ts' : List Token} (ht : t.kind = label) (h : Thins label named ts ts') :
      Thins label named (t :: ts) ts'

namespace Thins

variable {ts ts' us us' : List Token}

theorem append (h : Thins label named ts ts') (h' : Thins label named us us') :
    Thins label named (ts ++ us) (ts' ++ us') := by
  induction h with
  | nil => exact h'
  | keep ht _ ih => exact .keep ht ih
  | drop ht _ ih => exact .drop ht ih

theorem shifted (h : Thins label named ts ts') (offset : Nat) :
    Thins label named (ts.map (·.shifted offset)) (ts'.map (·.shifted offset)) := by
  induction h with
  | nil => exact .nil
  | keep ht _ ih => exact .keep ht ih
  | drop ht _ ih => exact .drop ht ih

/-- What is kept stands under a label that is named. -/
theorem named_of_mem (h : Thins label named ts ts') {t : Token} (ht : t ∈ ts') : named t.kind := by
  induction h with
  | nil => cases ht
  | keep hkind _ ih =>
    rcases List.mem_cons.1 ht with rfl | ht
    · exact hkind
    · exact ih ht
  | drop _ _ ih => exact ih ht

/-- Under other labels nothing is left out. -/
theorem filter_eq (h : Thins label named ts ts') :
    ts'.filter (·.kind != label) = ts.filter (·.kind != label) := by
  induction h with
  | nil => rfl
  | keep _ _ ih => rw [List.filter_cons, List.filter_cons, ih]
  | drop ht _ ih => rw [List.filter_cons_of_neg (by simp [ht]), ih]

end Thins

/-- Text under a label is given out under the same label or, under the one label, passed over. -/
inductive Fades (label : Label) (named : Label → Prop) : Option Label → Option Label → Prop
  | same {l : Option Label} (h : ∀ kind, l = some kind → named kind) : Fades label named l l
  | drop : Fades label named (some label) none

theorem Fades.some {kind : Label} (h : named kind) : Fades label named (some kind) (some kind) :=
  .same fun _ he => Option.some.inj he ▸ h

/-! ### Automata -/

/-- The labels under which nodes give text out are named. Delimiters may be passed over that have
the one label. -/
structure StateGraph.Mutes (label : Label) (named : Label → Prop) (g : StateGraph)
    (unnamed : Option Label) : Prop where
  release {n : NodeId} {l : Label} (h : (g.behaviour n).fallback = .release l) : named l
  boundary {n : NodeId} {l : Label} {length : Nat}
    (h : (g.behaviour n).action = .boundary l length) : named l
  close {n : NodeId} {c : Close} (h : (g.behaviour n).action = .close c) : named c.label
  literal {n : NodeId} {l : Option Label} (h : (g.behaviour n).action = .literal l) :
    Fades label named (l.or g.unnamed) (l.or unnamed)

/-- An automaton and one that leaves out some of its tokens under a label, since it has another
label for unnamed delimiters, or an interior has. -/
inductive Automaton.Mutes (label : Label) (named : Label → Prop) : Automaton → Automaton → Prop
  | mk {graph : StateGraph} {unnamed : Option Label} {runs runs' : List (NestedRun Automaton)}
      {interior : RunId → Automaton} (hgraph : graph.Mutes label named unnamed)
      (hlength : runs'.length = runs.length)
      (hruns : ∀ id (spec : NestedRun Automaton), runs[id]? = some spec →
        runs'[id]? = some { spec with automaton := interior id })
      (hinterior : ∀ id spec, runs[id]? = some spec →
        Mutes label named spec.automaton (interior id)) :
      Mutes label named ⟨graph, runs⟩ ⟨{ graph with unnamed }, runs'⟩

/-- Two runs whose interiors are related. -/
structure NestedRun.Mutes (label : Label) (named : Label → Prop) (run run' : NestedRun Automaton) :
    Prop where
  automaton : run.automaton.Mutes label named run'.automaton
  rest : run' = { run with automaton := run'.automaton }

theorem Automaton.mutes_of_forall₂ {graph : StateGraph} {unnamed : Option Label}
    {runs runs' : List (NestedRun Automaton)} (hgraph : graph.Mutes label named unnamed)
    (hruns : List.Forall₂ (NestedRun.Mutes label named) runs runs') :
    Automaton.Mutes label named ⟨graph, runs⟩ ⟨{ graph with unnamed }, runs'⟩ := by
  rw [List.forall₂_iff_get] at hruns
  obtain ⟨hlength, hruns⟩ := hruns
  have hrun (id : RunId) (spec : NestedRun Automaton) (hspec : runs[id]? = some spec) :
      ∃ spec', runs'[id]? = some spec' ∧ spec.Mutes label named spec' := by
    obtain ⟨hlt, rfl⟩ := List.getElem?_eq_some_iff.1 hspec
    exact ⟨_, List.getElem?_eq_getElem (hlength ▸ hlt), hruns id hlt (hlength ▸ hlt)⟩
  refine @Mutes.mk label named graph unnamed runs runs'
    (fun id => (runs'[id]?.map (·.automaton)).getD ⟨graph, []⟩) hgraph hlength.symm
    (fun id spec hspec => ?_) fun id spec hspec => ?_
  · obtain ⟨spec', hspec', hmutes⟩ := hrun id spec hspec
    rw [hspec', hmutes.rest]
    rfl
  · obtain ⟨spec', hspec', hmutes⟩ := hrun id spec hspec
    rw [hspec']
    exact hmutes.automaton

/-! ### Scans -/

/-- Open runs whose inner scans are related, and their tokens. -/
inductive NestedScan.Paired {γ : Type} (R : γ → γ → Prop) (T : List Token → List Token → Prop) :
    NestedScan γ → NestedScan γ → Prop
  | mk {scan : γ} {tokens : Array Token} {run : NestedScan γ} (hscan : R run.scan scan)
      (htokens : T run.tokens.toList tokens.toList) : Paired R T run { run with scan, tokens }

/-- Scans that differ in the tokens of open runs alone, at every depth. -/
inductive Progress.Paired (label : Label) (named : Label → Prop) : Progress → Progress → Prop
  | mk {run : Option (NestedScan Progress)} {idle : Array (Option Progress)} {p : Progress}
      (hrun : Option.Rel (NestedScan.Paired (Paired label named) (Thins label named)) p.run run)
      (hidle : ∀ id : RunId, Option.Rel (Option.Rel (Paired label named)) p.idle[id]? idle[id]?) :
      Paired label named p { p with run, idle }

/-- Open runs whose inner scans are paired. -/
abbrev RunsPaired (label : Label) (named : Label → Prop) :
    NestedScan Progress → NestedScan Progress → Prop :=
  NestedScan.Paired (Progress.Paired label named) (Thins label named)

/-- Two scans with what they have given out. -/
structure InStep (label : Label) (named : Label → Prop) (x x' : Progress × Array Token) : Prop where
  progress : x.1.Paired label named x'.1
  tokens : Thins label named x.2.toList x'.2.toList

/-- Inner scans keep what is paired. -/
def InnerScan.Paired (label : Label) (named : Label → Prop) (inner inner' : InnerScan) : Prop :=
  ∀ id p p' out out' input, InStep label named (p, out) (p', out') →
    Agrees (InStep label named) (inner id p out input) (inner' id p' out' input)

/-- More tokens are given out. -/
theorem Thins.collect {out out' tokens tokens' : Array Token}
    (h : Thins label named out.toList out'.toList)
    (h' : Thins label named tokens.toList tokens'.toList) :
    Thins label named (tokens.foldl Sink.collect out).toList
      (tokens'.foldl Sink.collect out').toList := by
  rw [← Array.foldl_toList, ← Array.foldl_toList, foldl_collect, foldl_collect]
  exact h.append h'

/-! ### Inner scans -/

namespace RunsPaired

variable {inner inner' : InnerScan} {run run' : NestedScan Progress}

/-- Inner scans are given the same text. -/
theorem feed (hinner : inner.Paired label named inner')
    (h : RunsPaired label named run run') (text : String) :
    Agrees (RunsPaired label named) (run.feed inner text) (run'.feed inner' text) := by
  cases h with
  | mk hscan htokens =>
    rw [NestedScan.feed, NestedScan.feed]
    split
    · exact .ok (.mk hscan htokens)
    · exact (hinner _ _ _ _ _ _ ⟨hscan, htokens⟩).bind fun x y _ hxy =>
        .ok (.mk hxy.progress hxy.tokens)

/-- Inner scans end alike. -/
theorem finish (hinner : inner.Paired label named inner')
    (h : RunsPaired label named run run') :
    Agrees (InStep label named) (run.finish inner) (run'.finish inner') := by
  cases h with
  | mk hscan htokens =>
    refine (hinner _ _ _ _ _ _ ⟨hscan, htokens⟩).bind fun x y _ hxy => .ok ⟨hxy.progress, ?_⟩
    simpa using hxy.tokens.shifted run.interior

end RunsPaired

/-! ### Scans without their automata -/

/-- The inner scans that are kept for the same run are paired. -/
def KeepsPaired (label : Label) (named : Label → Prop) (idle idle' : Array (Option Progress)) :
    Prop :=
  ∀ id : RunId, Option.Rel (Option.Rel (Progress.Paired label named)) idle[id]? idle'[id]?

theorem KeepsPaired.set {idle idle' : Array (Option Progress)}
    (h : KeepsPaired label named idle idle') (id : RunId) {kept kept' : Option Progress}
    (hkept : Option.Rel (Progress.Paired label named) kept kept') :
    KeepsPaired label named (idle.setIfInBounds id kept) (idle'.setIfInBounds id kept') := by
  have hsize : idle.size ≤ id ↔ idle'.size ≤ id := by
    rw [← Array.getElem?_eq_none_iff, ← Array.getElem?_eq_none_iff]
    have hid := h id
    generalize idle[id]? = x at hid ⊢
    generalize idle'[id]? = x' at hid ⊢
    cases hid <;> simp
  intro k
  rw [Array.getElem?_setIfInBounds, Array.getElem?_setIfInBounds]
  split
  · by_cases hle : idle.size ≤ id
    · rw [if_neg (Nat.not_lt.2 hle), if_neg (Nat.not_lt.2 (hsize.1 hle))]
      exact .none
    · rw [if_pos (Nat.not_le.1 hle), if_pos (Nat.not_le.1 (hsize.not.1 hle))]
      exact .some hkept
  · exact h k

namespace Progress.Paired

variable {inner inner' : InnerScan} {p p' : Progress} {out out' : Array Token}
  {run run' : NestedScan Progress}

/-- A scan at its beginning is like itself. -/
theorem start (runs : Nat) : (Progress.start runs).Paired label named (.start runs) := by
  refine .mk .none fun id => ?_
  change Option.Rel _ (Array.replicate runs none)[id]? (Array.replicate runs none)[id]?
  rw [Array.getElem?_replicate]
  split
  · exact .some .none
  · exact .none

theorem park (h : p.Paired label named p') : p.park.Paired label named p'.park := by
  cases h with
  | mk hrun hidle =>
    rw [Progress.park, Progress.park]
    dsimp only
    generalize hp : p.run = run at hrun ⊢
    cases hrun with
    | none => exact .mk (by rw [hp]; exact .none) hidle
    | some hrun =>
      cases hrun with
      | mk hscan htokens => exact .mk .none (KeepsPaired.set hidle _ (.some hscan))

theorem reset (h : p.Paired label named p') (position : Nat) :
    (p.reset position).Paired label named (p'.reset position) := by
  cases h with
  | mk hrun hidle => exact park (.mk hrun hidle)

theorem trim (h : p.Paired label named p') :
    Agrees (Progress.Paired label named) p.trim p'.trim := by
  cases h with
  | mk hrun hidle =>
    refine agrees_bind_self fun start => ?_
    split
    · exact .ok (.mk hrun hidle)
    · exact agrees_bind_self fun rest => .ok (.mk hrun hidle)

theorem advanceTo (h : p.Paired label named p') (position : Nat) :
    Agrees (Progress.Paired label named) (p.advanceTo position) (p'.advanceTo position) := by
  cases h with
  | mk hrun hidle =>
    rw [Progress.advanceTo, Progress.advanceTo]
    dsimp only
    split
    · exact .ok (.mk hrun hidle)
    · exact .error _

theorem skip (h : p.Paired label named p') :
    Agrees (Progress.Paired label named) p.skip p'.skip := by
  have hadvance := h.advanceTo (p.base + p.buffer.utf8ByteSize)
  cases h with
  | mk hrun hidle =>
    rw [Progress.skip, Progress.skip]
    dsimp only
    split
    · exact .ok (.mk hrun hidle)
    · exact hadvance

/-- Text is given out alike. -/
theorem emit (h : p.Paired label named p') (hout : Thins label named out.toList out'.toList)
    (value : String) {l l' : Option Label} (hl : Fades label named l l') :
    InStep label named (p.emit .collect out value l) (p'.emit .collect out' value l') := by
  cases h with
  | mk hrun hidle =>
    cases hl with
    | drop =>
      refine ⟨.mk hrun hidle, ?_⟩
      dsimp only [Progress.emit]
      split
      · exact hout
      · have hdrop := hout.append
          (.drop rfl .nil : Thins label named [⟨value, label, p.position⟩] [])
        rwa [List.append_nil, ← Array.toList_push] at hdrop
    | same hnamed =>
      cases l with
      | none => exact ⟨.mk hrun hidle, hout⟩
      | some kind =>
        refine ⟨.mk hrun hidle, ?_⟩
        dsimp only [Progress.emit]
        split
        · exact hout
        · have hkeep := hout.append (.keep (t := ⟨value, kind, p.position⟩) (hnamed kind rfl) .nil)
          rwa [← Array.toList_push, ← Array.toList_push] at hkeep

theorem goTo (h : p.Paired label named p') (n : NodeId) :
    ({ p with node := n } : Progress).Paired label named { p' with node := n } := by
  cases h with
  | mk hrun hidle => exact .mk hrun hidle

theorem send (h : p.Paired label named p') (hout : Thins label named out.toList out'.toList)
    (stop : Nat) {l l' : Option Label} (hl : Fades label named l l') :
    Agrees (InStep label named) (p.send .collect out stop l) (p'.send .collect out' stop l') := by
  have hemit (value : String) := h.emit hout value hl
  cases h with
  | mk hrun hidle =>
    refine agrees_bind_self fun start => agrees_bind_self fun value => ?_
    exact .ok ⟨(hemit value).progress.goTo .root, (hemit value).tokens⟩

theorem node_eq (h : p.Paired label named p') : p'.node = p.node := by
  cases h with
  | mk => rfl

theorem isEscaped_eq (h : p.Paired label named p') (c : Close) (termStart : Nat) :
    p'.isEscaped c termStart = p.isEscaped c termStart := by
  cases h with
  | mk hrun hidle => rfl

variable (hinner : inner.Paired label named inner')

include hinner

theorem feedTo (h : p.Paired label named p')
    (hr : RunsPaired label named run run') (limit : Nat) :
    Agrees (RunsPaired label named) (p.feedTo inner run limit) (p'.feedTo inner' run' limit) := by
  have hfeed (text : String) := hr.feed hinner text
  cases h with
  | mk hrun hidle =>
    cases hr with
    | mk hscan htokens =>
      refine agrees_bind_self fun start => ?_
      split
      · exact agrees_bind_self fun text => hfeed text
      · exact .ok (.mk hscan htokens)

theorem feedRun (h : p.Paired label named p') (stop : Nat) :
    Agrees (Progress.Paired label named) (p.feedRun inner stop) (p'.feedRun inner' stop) := by
  cases h with
  | mk hrun hidle =>
    rw [Progress.feedRun, Progress.feedRun]
    dsimp only
    generalize hp : p.run = run at hrun ⊢
    cases hrun with
    | none => exact .ok (.mk (by rw [hp]; exact .none) hidle)
    | some hr =>
      have hclosed : ({ p with run := none } : Progress).Paired label named
          { p with run := none, idle := _ } := .mk .none hidle
      have hfeed (limit : Nat) := hclosed.feedTo hinner hr limit
      cases hr with
      | mk hscan htokens =>
        exact (hfeed _).bind fun r r' _ hr => .ok (.mk (.some hr) hidle)

/-- A run is given out with the tokens of its interior. -/
theorem giveOut (h : p.Paired label named p') (hout : Thins label named out.toList out'.toList)
    (hr : RunsPaired label named run run') {c : Close}
    (hc : named c.label) (termStart stop : Nat) :
    Agrees (InStep label named) (p.giveOut .collect inner out run c termStart stop)
      (p'.giveOut .collect inner' out' run' c termStart stop) := by
  have hemit (value : String) := h.emit hout value (.some hc)
  have hfinish := hr.finish hinner
  cases h with
  | mk hrun hidle =>
    cases hr with
    | mk hscan htokens =>
      refine agrees_bind_self fun start => agrees_bind_self fun interior =>
        agrees_bind_self fun opener => hfinish.bind fun x x' _ hx => ?_
      refine ((hemit opener).progress.advanceTo _).bind fun p₁ p₁' _ h₁ => ?_
      have hlast (value : String) :=
        h₁.emit ((hemit opener).tokens.collect hx.tokens) value (.some hc)
      cases h₁ with
      | mk hrun₁ hidle₁ =>
        exact agrees_bind_self fun terminator =>
          .ok ⟨.mk hrun₁ (KeepsPaired.set hidle₁ _ (.some hx.progress)),
            (hlast terminator).tokens⟩

theorem finishRun (h : p.Paired label named p') (hout : Thins label named out.toList out'.toList)
    (hr : RunsPaired label named run run') {c : Close}
    (hc : named c.label) (termStart stop : Nat) :
    Agrees (InStep label named) (p.finishRun .collect inner out run c termStart stop)
      (p'.finishRun .collect inner' out' run' c termStart stop) :=
  (h.feedTo hinner hr termStart).bind fun _ _ _ hr => h.giveOut hinner hout hr hc termStart stop

end Progress.Paired

/-! ### Scans of two automata -/

/-- There is no inner scan for a run that does not exist. -/
theorem Automaton.inner_of_none {a : Automaton} {id : RunId} (h : a.runs[id]? = none) :
    a.inner id = fun _ _ _ => .error .unknownRun := by
  obtain ⟨graph, runs⟩ := a
  rw [inner]
  induction runs generalizing id with
  | nil => rw [innerAt]
  | cons run runs ih =>
    cases id with
    | zero => cases h
    | succ id =>
      rw [innerAt]
      exact ih h

/-- The walk does not ask for the label of unnamed delimiters. -/
theorem StateGraph.resolveWithin_unnamed (g : StateGraph) (unnamed : Option Label) (hops : Nat)
    (n : NodeId) (s : Symbol) :
    ({ g with unnamed } : StateGraph).resolveWithin hops n s = g.resolveWithin hops n s := by
  induction hops generalizing n with
  | zero =>
    rw [resolveWithin, resolveWithin]
    rfl
  | succ hops ih =>
    rw [resolveWithin, resolveWithin]
    simp only [ih]
    rfl

namespace Automaton.Mutes

variable {a a' : Automaton} {inner inner' : InnerScan} {p p' : Progress} {out out' : Array Token}
  {idle idle' : Array (Option Progress)}

section

variable (h : a.Mutes label named a')

include h

theorem behaviour_eq (n : NodeId) : a'.behaviour n = a.behaviour n := by
  cases h with
  | mk => rfl

theorem resolve_eq (n : NodeId) (s : Symbol) : a'.resolve n s = a.resolve n s := by
  cases h with
  | mk => exact StateGraph.resolveWithin_unnamed _ _ _ n s

theorem graph : a.toStateGraph.Mutes label named a'.unnamed := by
  cases h with
  | mk hgraph => exact hgraph

theorem runs_length : a'.runs.length = a.runs.length := by
  cases h with
  | mk _ hlength => exact hlength

/-- The runs of both automata are in the same places, and their interiors are related. -/
theorem getElem?_runs (id : RunId) : a.runs[id]? = none ∧ a'.runs[id]? = none ∨
    ∃ spec interior, a.runs[id]? = some spec ∧
      a'.runs[id]? = some { spec with automaton := interior } ∧
      spec.automaton.Mutes label named interior := by
  cases h with
  | @mk _ _ runs runs' interior _ hlength hruns hinterior =>
    cases hspec : runs[id]? with
    | none =>
      rw [List.getElem?_eq_none_iff] at hspec
      exact .inl ⟨rfl, List.getElem?_eq_none_iff.2 (hlength ▸ hspec)⟩
    | some spec => exact .inr ⟨spec, interior id, rfl, hruns id spec hspec, hinterior id spec hspec⟩

/-- The walk moves on alike. -/
theorem transition (hp : p.Paired label named p') (hout : Thins label named out.toList out'.toList)
    (symbol : Symbol) (start : Nat) :
    Agrees (InStep label named) (a.transition .collect p out symbol start)
      (a'.transition .collect p' out' symbol start) := by
  rw [Automaton.transition, Automaton.transition, hp.node_eq, h.resolve_eq, h.resolve_eq]
  cases hstep : a.resolve p.node symbol with
  | node next => exact .ok ⟨hp.goTo next, hout⟩
  | release l =>
    obtain ⟨n, hn⟩ := StateGraph.exists_of_release hstep
    refine (hp.send hout start (.some (h.graph.release hn))).bind fun x x' _ hx => ?_
    cases a.resolve .root symbol with
    | node next => exact .ok ⟨hx.progress.goTo next, hx.tokens⟩
    | release l => exact .error ScanFault.rootReleases

theorem replay (hp : p.Paired label named p') (hout : Thins label named out.toList out'.toList)
    (start : Nat) (text : List Char) :
    Agrees (InStep label named) (a.replay .collect p out start text)
      (a'.replay .collect p' out' start text) := by
  induction text generalizing p p' out out' start with
  | nil => exact .ok ⟨hp, hout⟩
  | cons c text ih =>
    exact (h.transition hp hout (.char c) start).bind fun x x' _ hx => ih hx.progress hx.tokens _

/-- Inner scans begin alike. -/
theorem wake (hidle : KeepsPaired label named idle idle') (id : RunId) (start : Nat) :
    Agrees (fun x x' => RunsPaired label named x.1 x'.1 ∧
      KeepsPaired label named x.2 x'.2) (a.wake idle id start) (a'.wake idle' id start) := by
  rw [Automaton.wake, Automaton.wake]
  rcases h.getElem?_runs id with ⟨hnone, hnone'⟩ | ⟨spec, interior, hspec, hspec', hinterior⟩
  · rw [hnone, hnone']
    exact .error ScanFault.unknownRun
  · rw [hspec, hspec']
    have hkept : (idle[id]?.join.getD (.start spec.automaton.runs.length)).Paired label named
        (idle'[id]?.join.getD (.start interior.runs.length)) := by
      have hid := hidle id
      rw [hinterior.runs_length]
      generalize idle[id]? = kept at hid ⊢
      generalize idle'[id]? = kept' at hid ⊢
      cases hid with
      | none => exact .start _
      | some hid =>
        cases hid with
        | none => exact .start _
        | some hid => exact hid
    exact .ok ⟨.mk (hkept.reset 0) .nil, hidle.set id .none⟩

theorem startRun (hp : p.Paired label named p') (id : RunId) :
    Agrees (fun x x' => RunsPaired label named x.1 x'.1 ∧
      x.2.Paired label named x'.2) (a.startRun p id) (a'.startRun p' id) := by
  cases hp with
  | mk hrun hidle =>
    exact (h.wake hidle id p.position).bind fun x x' _ hx => .ok ⟨hx.1, .mk hrun hx.2⟩

theorem openRun (hp : p.Paired label named p') :
    Agrees (Progress.Paired label named) (a.openRun p) (a'.openRun p') := by
  have hstart (id : RunId) := h.startRun hp id
  cases hp with
  | mk hrun hidle =>
    rw [Automaton.openRun, Automaton.openRun, h.behaviour_eq]
    dsimp only
    cases hopen : p.run with
    | some run =>
      rw [hopen] at hrun
      cases hrun with
      | some hr => exact .ok (.mk (hopen ▸ .some hr) hidle)
    | none =>
      rw [hopen] at hrun
      cases hrun with
      | none =>
        cases (a.behaviour p.node).run with
        | none => exact .ok (.mk (by rw [hopen]; exact .none) hidle)
        | some id =>
          refine (hstart id).bind fun x x' _ hx => ?_
          obtain ⟨run, p₁⟩ := x
          obtain ⟨run', p₁'⟩ := x'
          obtain ⟨hr, hp₁⟩ := hx
          cases hp₁ with
          | mk _ hidle₁ => exact .ok (.mk (.some hr) hidle₁)

theorem takeRun (hp : p.Paired label named p') (id : RunId) :
    Agrees (fun x x' => RunsPaired label named x.1 x'.1 ∧
      x.2.Paired label named x'.2) (a.takeRun p id) (a'.takeRun p' id) := by
  have hstart := h.startRun hp id
  cases hp with
  | mk hrun hidle =>
    rw [Automaton.takeRun, Automaton.takeRun]
    dsimp only
    generalize p.run = run at hrun ⊢
    cases hrun with
    | none => exact hstart
    | some hr => exact .ok ⟨hr, .mk .none hidle⟩

variable (hinner : inner.Paired label named inner')

include hinner

/-- A run ends alike. -/
theorem endRun (hp : p.Paired label named p') (hout : Thins label named out.toList out'.toList)
    {c : Close} (hc : named c.label) (stop : Nat) :
    Agrees (InStep label named) (a.endRun .collect inner p out c stop)
      (a'.endRun .collect inner' p' out' c stop) := by
  refine agrees_bind_self fun termStart => ?_
  rw [hp.isEscaped_eq]
  refine agrees_bind_self fun escaped => ?_
  split
  · exact .ok ⟨hp.goTo c.body, hout⟩
  · split
    · exact hp.send hout stop (.some hc)
    · exact (h.takeRun hp _).bind fun x x' _ hx => hx.2.finishRun hinner hout hx.1 hc termStart stop

theorem settle (hp : p.Paired label named p') (hout : Thins label named out.toList out'.toList)
    (stop : Nat) : Agrees (InStep label named) (a.settle .collect inner p out stop)
      (a'.settle .collect inner' p' out' stop) := by
  rw [Automaton.settle, Automaton.settle, hp.node_eq, h.behaviour_eq]
  cases haction : (a.behaviour p.node).action with
  | none => exact .ok ⟨hp, hout⟩
  | boundary l length => exact .ok ⟨hp, hout⟩
  | literal l => exact hp.send hout stop (h.graph.literal haction)
  | close c => exact h.endRun hinner hp hout (h.graph.close haction) stop

/-- What the node of the walk does is done alike. -/
theorem fire (hp : p.Paired label named p') (hout : Thins label named out.toList out'.toList)
    (stop : Nat) : Agrees (InStep label named) (a.fire .collect inner p out stop)
      (a'.fire .collect inner' p' out' stop) := by
  have hsettle := h.settle hinner hp hout stop
  rw [Automaton.fire, Automaton.fire, hp.node_eq, h.behaviour_eq]
  cases haction : (a.behaviour p.node).action with
  | boundary l length =>
    refine agrees_bind_self fun cut => ?_
    refine (hp.send hout cut (.some (h.graph.boundary haction))).bind fun x x' _ hx => ?_
    obtain ⟨p₁, out₁⟩ := x
    obtain ⟨p₁', out₁'⟩ := x'
    obtain ⟨hp₁, hout₁⟩ := hx
    have hreplay (terminator : String) := h.replay hp₁ hout₁ cut terminator.toList
    cases hp₁ with
    | mk hrun hidle =>
      exact agrees_bind_self fun terminator =>
        (hreplay terminator).bind fun y y' _ hy => h.settle hinner hy.progress hy.tokens stop
  | _ => exact hsettle

/-- A symbol keeps scans alike. -/
theorem step (hp : p.Paired label named p') (hout : Thins label named out.toList out'.toList)
    (symbol : Symbol) (start stop : Nat) :
    Agrees (InStep label named) (a.step .collect inner p out symbol start stop)
      (a'.step .collect inner' p' out' symbol start stop) :=
  (h.transition hp hout symbol start).bind fun _ _ _ hx =>
    (h.openRun hx.progress).bind fun _ _ _ hp₁ =>
      (h.fire hinner hp₁ hx.tokens stop).bind fun _ _ _ hy =>
        (hy.progress.feedRun hinner stop).bind fun _ _ _ hp₂ => .ok ⟨hp₂, hy.tokens⟩

theorem steps (hp : p.Paired label named p') (hout : Thins label named out.toList out'.toList)
    (start : Nat) (text : List Char) :
    Agrees (InStep label named) (a.steps .collect inner p out start text)
      (a'.steps .collect inner' p' out' start text) := by
  induction text generalizing p p' out out' start with
  | nil => exact .ok ⟨hp, hout⟩
  | cons c text ih =>
    exact (h.step hinner hp hout (.char c) start _).bind fun _ _ _ hx =>
      ih hx.progress hx.tokens _

/-- A chunk of input and its end keep scans alike if the inner scans do the same. -/
theorem scanWith (hp : p.Paired label named p') (hout : Thins label named out.toList out'.toList)
    (input : Input) : Agrees (InStep label named) (a.scanWith .collect inner p out input)
      (a'.scanWith .collect inner' p' out' input) := by
  have hstep (stop : Nat) := h.step hinner hp hout .endOfInput stop stop
  cases hp with
  | @mk run idle p hrun hidle =>
    cases input with
    | chunk text =>
      have hbegin : ({ p with buffer := p.buffer ++ text } : Progress).Paired label named
          { p with buffer := p.buffer ++ text, run, idle } := .mk hrun hidle
      exact (h.steps hinner hbegin hout p.buffer.utf8ByteSize text.toList).bind fun _ _ _ hx =>
        hx.progress.trim.bind fun _ _ _ hp₁ => .ok ⟨hp₁, hx.tokens⟩
    | done =>
      refine (hstep p.buffer.utf8ByteSize).bind fun x x' _ hx => hx.progress.trim.bind
        fun p₁ p₁' _ hp₁ => hp₁.skip.bind fun p₂ p₂' _ hp₂ => .ok ⟨?_, hx.tokens⟩
      cases hp₂ with
      | mk hrun₂ hidle₂ => exact Progress.Paired.park (.mk hrun₂ hidle₂)

end

/-- The inner scans of the interiors are alike, and so is the scan itself. -/
theorem scan (h : a.Mutes label named a') (hp : p.Paired label named p')
    (hout : Thins label named out.toList out'.toList) (input : Input) :
    Agrees (InStep label named) (a.scan .collect p out input) (a'.scan .collect p' out' input) := by
  induction h generalizing p p' out out' input with
  | @mk graph unnamed runs runs' interior hgraph hlength hruns hinterior ih =>
    have h : Automaton.Mutes label named ⟨graph, runs⟩ ⟨{ graph with unnamed }, runs'⟩ :=
      .mk hgraph hlength hruns hinterior
    refine h.scanWith (fun id q q' tokens tokens' input hq => ?_) hp hout input
    cases hspec : runs[id]? with
    | none =>
      have hnone : runs'[id]? = none := by
        rw [List.getElem?_eq_none_iff] at hspec ⊢
        exact hlength ▸ hspec
      rw [Automaton.inner_of_none (a := ⟨graph, runs⟩) hspec,
        Automaton.inner_of_none (a := ⟨{ graph with unnamed }, runs'⟩) hnone]
      exact .error ScanFault.unknownRun
    | some spec =>
      rw [Automaton.inner_eq (a := ⟨graph, runs⟩) hspec,
        Automaton.inner_eq (a := ⟨{ graph with unnamed }, runs'⟩) (hruns id spec hspec)]
      exact ih id spec hspec hq.progress hq.tokens input

end Automaton.Mutes

/-! ### Scanners -/

/-- A scanner and one that leaves out some of its tokens, with what they have given out. Both stand
at the same place. -/
structure Scanner.Mutes (label : Label) (named : Label → Prop) (x x' : Scanner × Array Token) :
    Prop where
  automaton : x.1.automaton.Mutes label named x'.1.automaton
  progress : x.1.progress.Paired label named x'.1.progress
  tokens : Thins label named x.2.toList x'.2.toList

namespace Scanner.Mutes

variable {x x' : Scanner × Array Token}

theorem position_eq (h : Scanner.Mutes label named x x') : x'.1.position = x.1.position := by
  rw [position, position]
  have hp := h.progress
  generalize x.1.progress = p at hp ⊢
  generalize x'.1.progress = p' at hp ⊢
  cases hp with
  | mk => rfl

theorem pending_eq (h : Scanner.Mutes label named x x') : x'.1.pending = x.1.pending := by
  rw [pending, pending]
  have hp := h.progress
  generalize x.1.progress = p at hp ⊢
  generalize x'.1.progress = p' at hp ⊢
  cases hp with
  | mk => rfl

theorem reset (h : Scanner.Mutes label named x x') (position : Nat) :
    Scanner.Mutes label named (x.1.reset position, x.2) (x'.1.reset position, x'.2) :=
  ⟨h.automaton, h.progress.reset position, h.tokens⟩

theorem handle (h : Scanner.Mutes label named x x') (input : Input) :
    Agrees (Scanner.Mutes label named) (x.1.handle .collect x.2 input)
      (x'.1.handle .collect x'.2 input) :=
  (h.automaton.scan h.progress h.tokens input).bind fun _ _ _ hy =>
    .ok ⟨h.automaton, hy.progress, hy.tokens⟩

/-- A call is answered alike. -/
theorem perform (h : Scanner.Mutes label named x x') (call : Call) :
    Agrees (Scanner.Mutes label named) (x.1.perform .collect x.2 call)
      (x'.1.perform .collect x'.2 call) := by
  cases call with
  | consume chunk => exact h.handle (.chunk chunk)
  | flush => exact h.handle .done
  | reset position => exact .ok (h.reset position)
  | tokenize input => exact ((h.reset 0).handle (.chunk input)).bind fun _ _ _ hy => hy.handle .done

theorem performAll (h : Scanner.Mutes label named x x') (calls : List Call) :
    Agrees (Scanner.Mutes label named) (x.1.performAll .collect x.2 calls)
      (x'.1.performAll .collect x'.2 calls) := by
  induction calls generalizing x x' with
  | nil => exact .ok h
  | cons call calls ih => exact (h.perform call).bind fun _ _ _ hy => ih hy

end Scanner.Mutes

/-- Scanners that have done nothing yet. -/
theorem Automaton.Mutes.ofAutomaton {a a' : Automaton} (h : a.Mutes label named a') :
    Scanner.Mutes label named (.ofAutomaton a, #[]) (.ofAutomaton a', #[]) where
  automaton := h
  progress := by
    rw [Scanner.ofAutomaton, Scanner.ofAutomaton, h.runs_length]
    exact .start _
  tokens := .nil

end TrieLexer
