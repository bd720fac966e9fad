import TrieLexer.Proofs.Compiled
import TrieLexer.Proofs.Sparing
import TrieLexer.Proofs.Subtrees

/-!
# Building a forest

While an automaton is built, every node keeps the one parent that it was created for, if it has one
at all: literals are spelled along edges that are there or that lead to new nodes, and nothing else
adds an edge. Only the decimal point is bound at the root a second time, when all else is built.
What is built besides greedy runs opens no run either.

## Main definitions

* `Draft.Plants` — a later draft that is a forest, without more runs.
* `Assembly.Plants` — a building step leads to such a draft.

## Main results

* `Draft.forest_start` — building begins with a forest.
* `Assembly.Plants.bind`, `Assembly.plants_forM` — sequences and loops.
* `Lexicon.plants_buildCategories`, `Lexicon.plants_buildKeywords`, `Lexicon.plants_endRun`,
  `Lexicon.plants_buildDelimiters`, `Lexicon.plants_buildPunctuation` — the parts of a grammar.
-/

namespace TrieLexer

/-- A later draft that is a forest. It has no more openers, and no more nested runs and bodies of
such runs. -/
structure Draft.Plants (d d' : Draft) : Prop where
  forest : d'.trie.Forest
  size : d.trie.size ≤ d'.trie.size
  openers : d'.openers = d.openers
  runs : d'.runs = d.runs
  run (n : NodeId) : (d'.site n).behaviour.run = (d.site n).behaviour.run

/-- A building step keeps a draft a forest and opens no run, and gives a result of some kind. -/
structure Assembly.Plants {α : Type} (d : Draft) (x : Assembly α) (P : Trie Site → α → Prop) :
    Prop where
  plants {d' : Draft} {a : α} (h : d.trie.Forest) (hy : x.Yields d a d') :
    d.Plants d' ∧ P d'.trie a

namespace Draft

variable {d d' d'' : Draft} {n : NodeId}

theorem Plants.refl (h : d.trie.Forest) : d.Plants d := ⟨h, Nat.le_refl _, rfl, rfl, fun _ => rfl⟩

theorem Plants.trans (h : d.Plants d') (h' : d'.Plants d'') : d.Plants d'' :=
  ⟨h'.forest, Nat.le_trans h.size h'.size, h'.openers.trans h.openers, h'.runs.trans h.runs,
    fun n => (h'.run n).trans (h.run n)⟩

/-- A node may change what it holds, as long as it stays the body of the same run. -/
theorem plants_modifyContent (h : d.trie.Forest) {f : Site → Site}
    (hf : ∀ site, (f site).behaviour.run = site.behaviour.run) (ws : Array Warning) :
    d.Plants { d with trie := d.trie.modifyContent n f, warnings := ws } where
  forest := h.congr (Trie.size_modifyContent ..) fun _ => Trie.edges_modifyContent ..
  size := Nat.le_of_eq (Trie.size_modifyContent ..).symm
  openers := rfl
  runs := rfl
  run k := by
    rw [site, Trie.content_modifyContent, site]
    split
    · exact hf _
    · rfl

theorem plants_modifyBehaviour (h : d.trie.Forest) {f : Behaviour → Behaviour}
    (hf : ∀ b, (f b).run = b.run) : d.Plants (d.modifyBehaviour n f) :=
  plants_modifyContent h (fun site => hf site.behaviour) d.warnings

/-- A trie that loses edges stays a forest. -/
theorem Prunes.forest (hP : Prunes n d d') (h : d.trie.Forest) : d'.trie.Forest where
  sorted k := hP.sorted (h.sorted k)
  up hc := hP.size.symm ▸ h.up (hP.child hc)
  parent hc hc' := h.parent (hP.child hc) (hP.child hc')

theorem plants_pruneBoundaries (h : d.trie.Forest) : d.Plants (d.pruneBoundaries n) := by
  have hprunes := prunes_pruneBoundaries (h.sorted n)
  exact ⟨hprunes.forest h, Nat.le_of_eq hprunes.size.symm, hprunes.openers, hprunes.runs,
    fun k => congrArg Behaviour.run (hprunes.behaviour k)⟩

/-- When building begins, only the decimal point is below another node. -/
theorem eq_of_child?_start {n m : NodeId} {s : Symbol} (hc : start.trie.child? n s = some m) :
    n = .number ∧ s = .char '.' ∧ m = .float := by
  rw [Trie.child?, edges_start] at hc
  split at hc
  · next hn =>
    rw [Edges.find?_cons] at hc
    split at hc
    · next hs => exact ⟨hn, hs, (Option.some.inj hc).symm⟩
    · cases hc
  · cases hc

theorem forest_start : Draft.start.trie.Forest := by
  refine ⟨fun n => ?_, fun {n m s} hc => ?_, fun {n k m s u} hc hc' => ?_⟩
  · rw [edges_start]
    split
    · exact List.pairwise_singleton _ _
    · exact .nil
  · obtain ⟨rfl, -, rfl⟩ := eq_of_child?_start hc
    exact ⟨by decide, by decide⟩
  · obtain ⟨rfl, rfl, rfl⟩ := eq_of_child?_start hc
    obtain ⟨rfl, rfl, -⟩ := eq_of_child?_start hc'
    exact ⟨rfl, rfl⟩

end Draft

namespace Assembly

variable {α β : Type} {d : Draft} {P : Trie Site → α → Prop} {Q : Trie Site → β → Prop}
  {x : Assembly α} {f : α → Assembly β} {n : NodeId} {literal : String}

theorem Plants.bind (hx : Plants d x P)
    (hf : ∀ a (d₁ : Draft), d.trie.size ≤ d₁.trie.size → P d₁.trie a → Plants d₁ (f a) Q) :
    Plants d (x >>= f) Q := by
  refine ⟨fun {d' b} h hy => ?_⟩
  obtain ⟨a, d₁, hx', hf'⟩ := yields_bind.1 hy
  obtain ⟨h₁, ha⟩ := hx.plants h hx'
  obtain ⟨h₂, hb⟩ := (hf a d₁ h₁.size ha).plants h₁.forest hf'
  exact ⟨h₁.trans h₂, hb⟩

theorem plants_pure {a : α} (ha : P d.trie a) : Plants d (pure a) P := by
  refine ⟨fun h hy => ?_⟩
  obtain ⟨rfl, rfl⟩ := yields_pure.1 hy
  exact ⟨.refl h, ha⟩

theorem plants_get : Plants d (get : Assembly Draft) fun _ _ => True := by
  refine ⟨fun h hy => ?_⟩
  obtain ⟨rfl, rfl⟩ := yields_get.1 hy
  exact ⟨.refl h, trivial⟩

/-- A loop keeps what each round keeps. -/
theorem plants_forM {γ : Type} {g : γ → Assembly PUnit} {xs : List γ}
    (hg : ∀ x ∈ xs, ∀ d₁ : Draft, d.trie.size ≤ d₁.trie.size → Plants d₁ (g x) fun _ _ => True) :
    Plants d (xs.forM g) fun _ _ => True := by
  induction xs generalizing d with
  | nil => exact plants_pure (α := PUnit) (P := fun _ _ => True) (a := ⟨⟩) trivial
  | cons x xs ih =>
    rw [List.forall_mem_cons] at hg
    exact (hg.1 d (Nat.le_refl _)).bind fun _ d₁ hsize _ => ih fun y hy d₂ hsize' =>
      hg.2 y hy d₂ (Nat.le_trans hsize hsize')

theorem plants_ite {c : Prop} [Decidable c] {x y : Assembly α} (hx : Plants d x P)
    (hy : Plants d y P) : Plants d (if c then x else y) P := by
  split
  · exact hx
  · exact hy

theorem plants_claim (policy : ConflictPolicy) (role : Role) :
    Plants d (Assembly.claim policy n literal role) fun _ _ => True := by
  refine ⟨fun h hy => ?_⟩
  rcases hy.claim with ⟨-, ⟨ws, rfl⟩, -⟩ | ⟨-, rfl, -⟩
  · exact ⟨Draft.plants_modifyContent (f := fun site => { site with claim := some role }) h
      (fun _ => rfl) ws, trivial⟩
  · exact ⟨.refl h, trivial⟩

theorem plants_behave {f : Behaviour → Behaviour} (hf : ∀ b, (f b).run = b.run) :
    Plants d (Assembly.modifyBehaviour n f) fun _ _ => True := by
  refine ⟨fun h hy => ?_⟩
  obtain rfl := yields_modify.1 hy
  exact ⟨Draft.plants_modifyBehaviour h hf, trivial⟩

theorem plants_prune : Plants d (Assembly.pruneBoundaries n) fun _ _ => True := by
  refine ⟨fun h hy => ?_⟩
  obtain rfl := yields_modify.1 hy
  exact ⟨Draft.plants_pruneBoundaries h, trivial⟩

/-- A literal is spelled from a node. -/
theorem plants_path (hn : n < d.trie.size) :
    Plants d (Assembly.path n literal.toList) fun t steps =>
      ∀ step ∈ steps, step.node < t.size := by
  refine ⟨fun {d' steps} h hy => ?_⟩
  obtain ⟨hext, hwalked⟩ := Draft.extends_path (p := []) h hn rfl hy
  refine ⟨⟨hext.forest, hext.size, ?_, ?_, fun k => ?_⟩, fun step hstep => ?_⟩
  · cases yields_modifyGet.1 hy
    rfl
  · cases yields_modifyGet.1 hy
    rfl
  · rw [Draft.site_of_path hy]
  · obtain ⟨q, -, hq⟩ := hwalked.exists_along hstep
    exact hext.forest.lt_size_of_follow? (Nat.lt_of_lt_of_le hn hext.size) hq

end Assembly

namespace Lexicon

open Assembly (plants_pure plants_get plants_forM plants_ite plants_claim plants_behave plants_prune
  plants_path)

variable {lexicon : Lexicon} {d : Draft} {n : NodeId}

theorem plants_rerouteCreated (steps : List Trie.Step) (target : NodeId) :
    (rerouteCreated steps target).Plants d fun _ _ => True :=
  plants_forM fun _ _ _ _ => plants_ite (plants_behave fun _ => by rfl) (plants_pure trivial)

/-! ### Open-ended tokens -/

theorem plants_endBefore (hn : n < d.trie.size) (label : Label) (weak : Bool)
    (terminator : String) :
    (lexicon.endBefore n label weak terminator).Plants d fun _ _ => True := by
  refine (plants_path hn).bind fun steps _ _ _ => (plants_rerouteCreated _ _).bind fun _ _ _ _ => ?_
  cases steps.getLast? with
  | none => exact plants_pure trivial
  | some last =>
    exact (plants_claim _ _).bind fun _ _ _ _ =>
      plants_ite (plants_behave fun _ => by rfl) (plants_pure trivial)

theorem plants_endBeforeTerminators (hn : n < d.trie.size) (label : Label) (weak : Bool) :
    (lexicon.endBeforeTerminators n label weak).Plants d fun _ _ => True :=
  plants_forM fun terminator _ _ hsize =>
    plants_endBefore (Nat.lt_of_lt_of_le hn hsize) label weak terminator

/-- All open-ended categories. -/
theorem plants_buildCategories (hsize : NodeId.float < d.trie.size) :
    lexicon.buildCategories.Plants d fun _ _ => True := by
  refine (plants_behave fun _ => by rfl).bind fun _ d₁ hsize₁ _ =>
    (plants_behave fun _ => by rfl).bind fun _ d₂ hsize₂ _ => ?_
  have hfloat := Nat.lt_of_lt_of_le hsize (Nat.le_trans hsize₁ hsize₂)
  have hunder {k : NodeId} (hk : k ≤ NodeId.float) {e : Draft} (he : d₂.trie.size ≤ e.trie.size) :
      k < e.trie.size :=
    Nat.lt_of_le_of_lt hk (Nat.lt_of_lt_of_le hfloat he)
  refine (plants_endBeforeTerminators (hunder (by decide) (Nat.le_refl _)) _ _).bind
    fun _ d₃ h₃ _ => (plants_endBeforeTerminators (hunder (by decide) h₃) _ _).bind
    fun _ d₄ h₄ _ => ?_
  have h₄ := Nat.le_trans h₃ h₄
  refine (plants_endBeforeTerminators (hunder (by decide) h₄) _ _).bind fun _ d₅ h₅ _ =>
    (plants_claim _ _).bind fun _ d₆ h₆ _ => plants_ite
      ((plants_behave fun _ => by rfl).bind fun _ d₇ h₇ _ => ?_) (plants_pure trivial)
  exact plants_endBeforeTerminators (hunder (Nat.le_refl _)
    (Nat.le_trans h₄ (Nat.le_trans h₅ (Nat.le_trans h₆ h₇)))) _ _

/-! ### Words and literals -/

theorem plants_buildPrefix (hn : n < d.trie.size) (text : String) :
    (lexicon.buildPrefix n text).Plants d fun _ _ => True :=
  plants_get.bind fun _ _ hsize _ => plants_ite (plants_pure trivial) <|
    (plants_claim _ _).bind fun _ _ hsize' _ => plants_ite
      ((plants_behave fun _ => by rfl).bind fun _ _ hsize'' _ => plants_endBeforeTerminators
        (Nat.lt_of_lt_of_le hn (Nat.le_trans hsize (Nat.le_trans hsize' hsize''))) _ _)
      (plants_pure trivial)

theorem plants_buildKeyword (hroot : NodeId.root < d.trie.size) (label : Label) (literal : String) :
    (lexicon.buildKeyword label literal).Plants d fun _ _ => True := by
  refine (plants_path hroot).bind fun steps d₁ _ hsteps => ?_
  refine Assembly.Plants.bind (P := fun _ _ => True) (plants_forM fun x hx d₂ hsize =>
    plants_buildPrefix (Nat.lt_of_lt_of_le
      (hsteps x.1 (Draft.mem_of_mem_properPrefixes hx)) hsize) x.2) fun _ d₂ hsize₂ _ => ?_
  cases hlast : steps.getLast? with
  | none => exact plants_pure trivial
  | some last =>
    have hlt := Nat.lt_of_lt_of_le (hsteps last (List.mem_of_getLast? hlast)) hsize₂
    exact (plants_claim _ _).bind fun _ _ hsize _ => plants_ite
      ((plants_behave fun _ => by rfl).bind fun _ _ hsize' _ => plants_endBeforeTerminators
        (Nat.lt_of_lt_of_le hlt (Nat.le_trans hsize hsize')) _ _)
      (plants_pure trivial)

theorem plants_rootPath (hroot : NodeId.root < d.trie.size) (literal : String) :
    (lexicon.rootPath literal).Plants d fun t opener => opener < t.size := by
  refine (plants_path hroot).bind fun steps d₁ hsize₁ hsteps => ?_
  refine Assembly.Plants.bind (P := fun _ _ => True) (plants_forM fun x hx d₂ hsize => ?_)
    fun _ d₂ hsize₂ _ => plants_pure ?_
  · exact plants_ite (plants_pure trivial) (plants_ite (plants_buildPrefix (Nat.lt_of_lt_of_le
      (hsteps x.1 (Draft.mem_of_mem_properPrefixes hx)) hsize) x.2) (plants_behave fun _ => by rfl))
  · refine Nat.lt_of_lt_of_le ?_ hsize₂
    cases hlast : steps.getLast? with
    | none => exact Nat.lt_of_lt_of_le hroot hsize₁
    | some last => exact hsteps last (List.mem_of_getLast? hlast)

/-- The end of a greedy run. -/
theorem plants_endRun (terminator : String) {close : Close} (hn : close.body < d.trie.size) :
    (lexicon.endRun terminator close).Plants d fun _ _ => True := by
  refine (plants_path hn).bind fun steps _ _ _ => (plants_rerouteCreated _ _).bind fun _ _ _ _ => ?_
  cases steps.getLast? with
  | none => exact plants_pure trivial
  | some last =>
    exact (plants_claim _ _).bind fun _ _ _ _ =>
      plants_ite (plants_behave fun _ => by rfl) (plants_pure trivial)

/-! ### Definitions -/

/-- The literals of definitions. -/
theorem plants_literals {f : Definition → String → Assembly PUnit} {definitions : List Definition}
    (hroot : NodeId.root < d.trie.size) (hf : ∀ definition literal (d₁ : Draft),
      NodeId.root < d₁.trie.size → (f definition literal).Plants d₁ fun _ _ => True) :
    Assembly.Plants d (definitions.forM fun definition => definition.literals.forM (f definition))
      fun _ _ => True :=
  plants_forM fun _ _ _ hsize => plants_forM fun literal _ _ hsize' =>
    hf _ literal _ (Nat.lt_of_lt_of_le hroot (Nat.le_trans hsize hsize'))

/-- All keywords. -/
theorem plants_buildKeywords (hroot : NodeId.root < d.trie.size) :
    lexicon.buildKeywords.Plants d fun _ _ => True :=
  plants_literals hroot fun _ literal _ hroot => plants_buildKeyword hroot _ literal

theorem plants_buildDelimiter (hroot : NodeId.root < d.trie.size) (label : Option Label)
    (literal : String) : (lexicon.buildDelimiter label literal).Plants d fun _ _ => True :=
  (plants_rootPath hroot literal).bind fun _ _ _ _ => (plants_claim _ _).bind fun _ _ _ _ =>
    plants_ite (plants_behave fun _ => by rfl) (plants_pure trivial)

/-- All delimiters. -/
theorem plants_buildDelimiters (hroot : NodeId.root < d.trie.size) :
    lexicon.buildDelimiters.Plants d fun _ _ => True :=
  plants_literals hroot fun _ literal _ hroot => plants_buildDelimiter hroot _ literal

theorem plants_buildMark (hroot : NodeId.root < d.trie.size) (label : Label) (literal : String) :
    (lexicon.buildMark label literal).Plants d fun _ _ => True :=
  (plants_rootPath hroot literal).bind fun _ _ _ _ => (plants_claim _ _).bind fun _ _ _ _ =>
    plants_ite (plants_prune.bind fun _ _ _ _ => plants_behave fun _ => by rfl)
      (plants_pure trivial)

/-- All punctuation. -/
theorem plants_buildPunctuation (hroot : NodeId.root < d.trie.size) :
    lexicon.buildPunctuation.Plants d fun _ _ => True :=
  plants_literals hroot fun _ literal _ hroot => plants_buildMark hroot _ literal

end Lexicon

end TrieLexer
