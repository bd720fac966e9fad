import TrieLexer.Automaton.Basic
import TrieLexer.Proofs.Arena
import TrieLexer.Proofs.Locus

/-!
# Walks that are found again

Spelling a literal from a node reads the children of the arena and adds to them on the way. The
arena may share nodes and hold cycles, so a child that is hung under a node early in the walk may
be met later in the same walk. Still, a walk only adds children: what a literal spelled before it
still spells, and the walk is found again step by step. Once a node is created, so is all that
follows, since a created node has no children.

## Main definitions

* `Trie.Edit`, `Trie.edit` — the calls that change the children in an arena.
* `Trie.Built` — the arenas that such calls build, each on allocated nodes.
* `Trie.Closed` — all children are allocated.
* `Trie.Hangs`, `Trie.Lays` — what a call for a child and a walk can do.

## Main results

* `Trie.Built.closed` — calls on allocated nodes lead to allocated nodes only.
* `Trie.Lays.created` — a walk follows children that were there, then creates the rest.
* `Trie.retracing` — what a walk leaves behind, and that it is found again.
-/

namespace TrieLexer

/-- The first characters of a literal are spelled by the first symbols of its spelling. -/
theorem spelling_take_succ (literal : List Char) (i : Nat) :
    (spelling literal).take (i + 1) = spelling (literal.take (i + 1)) := by
  cases literal with
  | nil => simp [spelling]
  | cons c cs =>
    rw [spelling_cons, List.take_succ_cons, List.take_succ_cons, spelling_cons, List.map_take]

namespace Trie

variable {α : Type} {t t' : Trie α} {n m : NodeId} {s : Symbol} {step : Step}
  {symbols : List Symbol} {steps : List Step}

/-! ### What a call for a child can do -/

/-- All children are allocated. -/
def Closed (t : Trie α) : Prop := ∀ ⦃n s m⦄, t.child? n s = some m → m < t.size

/-- A call for a child finds it, or hangs a node without children under the symbol. -/
inductive Hangs (t : Trie α) (n : NodeId) (s : Symbol) : Trie α → Step → Prop
  | found {m : NodeId} (hc : t.child? n s = some m) : Hangs t n s t ⟨m, false⟩
  | made {t' : Trie α} (hc : t.child? n s = none) (size : t'.size = t.size + 1)
    (child : ∀ k u, t'.child? k u = if k = n ∧ u = s then some t.size else t.child? k u) :
    Hangs t n s t' ⟨t.size, true⟩

namespace Hangs

theorem child? (h : t.Hangs n s t' step) : t'.child? n s = some step.node := by
  cases h with
  | found hc => exact hc
  | made hc size child => rw [child, if_pos ⟨rfl, rfl⟩]

theorem kept (h : t.Hangs n s t' step) (k : NodeId) (u : Symbol) (m : NodeId)
    (hk : t.child? k u = some m) : t'.child? k u = some m := by
  cases h with
  | found hc => exact hk
  | made hc size child =>
    rw [child, if_neg, hk]
    rintro ⟨rfl, rfl⟩
    cases hc.symm.trans hk

theorem size_eq (h : t.Hangs n s t' step) : t'.size = t.size + step.created.toNat := by
  cases h with
  | found hc => rfl
  | made hc size child => exact size

theorem closed (h : t.Hangs n s t' step) (ht : t.Closed) : t'.Closed := by
  cases h with
  | found hc => exact ht
  | made hc size child =>
    intro k u m hm
    rw [size]
    rw [child] at hm
    split at hm
    · cases hm
      exact Nat.lt_succ_self _
    · exact Nat.lt_succ_of_lt (ht hm)

/-- A created node has no children. The node above it is another one, since it was allocated. -/
theorem barren (h : t.Hangs n s t' step) (hn : n < t.size) (hs : step.created) (u : Symbol) :
    t'.child? step.node u = none := by
  cases h with
  | found hc => cases hs
  | made hc size child =>
    rw [child, if_neg fun hk => Nat.lt_irrefl _ (hk.1 ▸ hn), Trie.child?,
      edges_of_size_le _ _ (Nat.le_refl _)]
    rfl

theorem created_of_barren (h : t.Hangs n s t' step) (hn : t.child? n s = none) :
    step.created := by
  cases h with
  | found hc => cases hc.symm.trans hn
  | made hc size child => rfl

end Hangs

/-! ### What a walk can do -/

/-- A walk along symbols calls for one child after another. -/
inductive Lays : Trie α → NodeId → List Symbol → Trie α → List Step → Prop
  | nil (t : Trie α) (n : NodeId) : Lays t n [] t []
  | cons {t t' t'' : Trie α} {n : NodeId} {s : Symbol} {step : Step} {symbols : List Symbol}
    {steps : List Step} (hn : n < t.size) (h : t.Hangs n s t' step)
    (h' : Lays t' step.node symbols t'' steps) : Lays t n (s :: symbols) t'' (step :: steps)

namespace Lays

theorem kept (h : t.Lays n symbols t' steps) (k : NodeId) (u : Symbol) (m : NodeId)
    (hk : t.child? k u = some m) : t'.child? k u = some m := by
  induction h with
  | nil => exact hk
  | cons hn h h' ih => exact ih (h.kept k u m hk)

theorem closed (h : t.Lays n symbols t' steps) (ht : t.Closed) : t'.Closed := by
  induction h with
  | nil => exact ht
  | cons hn h h' ih => exact ih (h.closed ht)

/-- The children that a walk calls for are there in the end. -/
theorem trail (h : t.Lays n symbols t' steps) : t'.Trail n symbols steps := by
  induction h with
  | nil t n => exact .nil n
  | cons hn h h' ih => exact .cons (h'.kept _ _ _ h.child?) ih

/-- From a node without children everything is created. -/
theorem created_of_barren (h : t.Lays n symbols t' steps) (hn : ∀ u, t.child? n u = none) :
    steps.map (·.created) = List.replicate steps.length true ∧
      t'.size = t.size + steps.length := by
  induction h with
  | nil => exact ⟨rfl, rfl⟩
  | @cons t t' t'' n s step symbols steps hlt h h' ih =>
    have hcreated := h.created_of_barren (hn s)
    obtain ⟨hall, hsize⟩ := ih (h.barren hlt hcreated)
    have hstep : t'.size = t.size + 1 := by rw [h.size_eq, hcreated]; rfl
    refine ⟨?_, ?_⟩
    · rw [List.map_cons, List.length_cons, List.replicate_succ, hall, hcreated]
    · rw [hsize, hstep, List.length_cons]
      omega

/-- A walk follows children that were there, then creates the rest. -/
theorem created (h : t.Lays n symbols t' steps) :
    ∃ old new, steps.map (·.created) = List.replicate old false ++ List.replicate new true ∧
      t'.size = t.size + new := by
  induction h with
  | nil => exact ⟨0, 0, rfl, rfl⟩
  | @cons t t' t'' n s step symbols steps hlt h h' ih =>
    cases hstep : step.created with
    | false =>
      obtain ⟨old, new, hflags, hsize⟩ := ih
      refine ⟨old + 1, new, ?_, ?_⟩
      · rw [List.map_cons, hstep, hflags, List.replicate_succ, List.cons_append]
      · rw [hsize, h.size_eq, hstep]
        rfl
    | true =>
      -- nothing hangs below a created node, so the flags never turn back
      obtain ⟨hall, hsize⟩ := h'.created_of_barren (h.barren hlt hstep)
      refine ⟨0, steps.length + 1, ?_, ?_⟩
      · rw [List.map_cons, hstep, hall, List.replicate_zero, List.nil_append, List.replicate_succ]
      · rw [hsize, h.size_eq, hstep]
        simp only [Bool.toNat_true]
        omega

end Lays

/-- The nodes along a trail are allocated. -/
theorem Trail.lt_size (h : t.Trail n symbols steps) (ht : t.Closed) :
    ∀ step ∈ steps, step.node < t.size := by
  induction h with
  | nil n => exact List.forall_mem_nil _
  | cons hc h ih => exact List.forall_mem_cons.2 ⟨ht hc, ih⟩

/-! ### Walks that call for children -/

variable [Inhabited α]

theorem hangs_addChild (hn : n < t.size) (s : Symbol) :
    t.Hangs n s (t.addChild n s).1 (t.addChild n s).2 := by
  rw [Trie.addChild]
  cases hc : t.child? n s with
  | some m => exact .found hc
  | none =>
    have hlt : n < t.alloc.1.size := by
      rw [size_alloc]
      exact Nat.lt_succ_of_lt hn
    refine .made hc ?_ fun k u => ?_
    · change (t.alloc.1.setChild n s t.size).size = _
      rw [size_setChild, size_alloc]
    · change (t.alloc.1.setChild n s t.size).child? k u = _
      rw [child?_setChild _ _ _ _ _ _ hlt, child?_alloc]

theorem Closed.lays_extend (h : t.Closed) (hn : n < t.size) (symbols : List Symbol) :
    t.Lays n symbols (t.extend n symbols).1 (t.extend n symbols).2 := by
  induction symbols generalizing t n with
  | nil => exact .nil t n
  | cons s symbols ih =>
    have hhangs := hangs_addChild hn s
    have hclosed := hhangs.closed h
    exact .cons hn hhangs (ih hclosed (hclosed hhangs.child?))

/-- A walk along children that are there changes nothing. -/
theorem Trail.extend_eq (h : t.Trail n symbols steps) :
    t.extend n symbols = (t, steps.map fun step => { step with created := false }) := by
  induction h with
  | nil n => rfl
  | cons hc h ih =>
    rw [extend, addChild, hc]
    change (_, _ :: _) = _
    rw [ih]
    rfl

/-! ### Arenas that are built by calls -/

/-- A call that changes the children in an arena. -/
inductive Edit where
  | alloc
  | addChild (n : NodeId) (s : Symbol)
  | setChild (n : NodeId) (s : Symbol) (child : NodeId)
  | removeChild (n : NodeId) (s : Symbol)
  | path (n : NodeId) (literal : List Char)
  | addDescendant (n : NodeId) (literal : List Char)
deriving DecidableEq, Repr

/-- The nodes that a call names. -/
def Edit.named : Edit → List NodeId
  | alloc => []
  | addChild n _ => [n]
  | setChild n _ child => [n, child]
  | removeChild n _ => [n]
  | path n _ => [n]
  | addDescendant n _ => [n]

/-- The arena that a call leaves behind. -/
def edit (t : Trie α) : Edit → Trie α
  | .alloc => t.alloc.1
  | .addChild n s => (t.addChild n s).1
  | .setChild n s child => t.setChild n s child
  | .removeChild n s => t.removeChild n s
  | .path n literal => (t.path n literal).1
  | .addDescendant n literal => (t.addDescendant n literal).1

/-- The arenas that calls on allocated nodes build from the root alone. -/
inductive Built : Trie α → Prop
  | empty : Built empty
  | edit {t : Trie α} (h : Built t) (e : Edit) (he : ∀ n ∈ e.named, n < t.size) :
    Built (t.edit e)

/-- Calls on allocated nodes lead to allocated nodes only. -/
theorem Closed.edit (h : t.Closed) (e : Edit) (he : ∀ n ∈ e.named, n < t.size) :
    (t.edit e).Closed := by
  cases e with
  | alloc =>
    intro n s m hm
    change t.alloc.1.child? n s = some m at hm
    rw [child?_alloc] at hm
    exact Nat.lt_of_lt_of_eq (Nat.lt_succ_of_lt (h hm)) (size_alloc t).symm
  | addChild n s => exact (hangs_addChild (he n List.mem_cons_self) s).closed h
  | setChild n s child =>
    intro k u m hm
    change (t.setChild n s child).child? k u = some m at hm
    rw [child?_setChild _ _ _ _ _ _ (he n List.mem_cons_self)] at hm
    refine Nat.lt_of_lt_of_eq ?_ (size_setChild t n child s).symm
    split at hm
    · cases hm
      exact he child (List.mem_cons_of_mem _ List.mem_cons_self)
    · exact h hm
  | removeChild n s =>
    intro k u m hm
    change (t.removeChild n s).child? k u = some m at hm
    rw [child?_removeChild] at hm
    refine Nat.lt_of_lt_of_eq ?_ (size_removeChild t n s).symm
    split at hm
    · cases hm
    · exact h hm
  | path n literal => exact (h.lays_extend (he n List.mem_cons_self) (spelling literal)).closed h
  | addDescendant n literal =>
    exact (h.lays_extend (he n List.mem_cons_self) (spelling literal)).closed h

theorem Built.closed (h : t.Built) : t.Closed := by
  induction h with
  | empty =>
    intro n s m hm
    have hn := lt_size_of_child? hm
    obtain rfl := Nat.lt_one_iff.1 hn
    cases hm
  | edit h e he ih => exact ih.edit e he

/-- After a walk from an allocated node in an arena that calls have built: the nodes met are
allocated, the last one is what the literal spells and each is what the characters up to it spell;
the walk followed children that were there and then created the rest, by which the arena grew; what
a literal spelled before it still spells; and a second walk changes nothing and meets the same
nodes. -/
theorem retracing (h : t.Built) (hn : n < t.size) (literal : List Char) :
    let t' := (t.path n literal).1
    let steps := (t.path n literal).2
    (∀ step ∈ steps, step.node < t'.size) ∧
    (∃ last, steps.getLast? = some last ∧ t'.descendant? n literal = some last.node) ∧
    steps.length = (spelling literal).length ∧
    (∀ i step, steps[i]? = some step →
      t'.descendant? n (literal.take (i + 1)) = some step.node) ∧
    (∃ old new,
      steps.map (·.created) = List.replicate old false ++ List.replicate new true ∧
        t'.size = t.size + new) ∧
    (∀ k other m, t.descendant? k other = some m → t'.descendant? k other = some m) ∧
    t'.path n literal = (t', steps.map fun step => { step with created := false }) := by
  intro t' steps
  have hlays : t.Lays n (spelling literal) t' steps := h.closed.lays_extend hn (spelling literal)
  have htrail := hlays.trail
  refine ⟨?_, htrail.getLast? (spelling_ne_nil literal), htrail.length_eq, fun i step hi => ?_,
    hlays.created, fun k other m hm => follow?_mono hlays.kept hm, htrail.extend_eq⟩
  · exact htrail.lt_size (hlays.closed h.closed)
  · rw [descendant?, ← spelling_take_succ]
    exact htrail.follow?_take hi

/-- An arena with a cycle: `xy` leads back to the root. -/
def circled : Trie Behaviour :=
  (empty.edit (.addDescendant .root ['x', 'y'])).edit (.setChild 1 (.char 'y') .root)

/-- The walk goes around once, and then adds to a node that it has met before. -/
theorem retracing_circled :
    circled.Built ∧ NodeId.root < circled.size ∧
      (circled.path .root ['x', 'y', 'x', 'z']).2 =
        [⟨1, false⟩, ⟨0, false⟩, ⟨1, false⟩, ⟨3, true⟩] ∧
      (circled.path .root ['x', 'y', 'x', 'z']).1.descendant? .root ['x', 'z'] = some 3 ∧
      ((circled.path .root ['x', 'y', 'x', 'z']).1.path .root ['x', 'y', 'x', 'z']).2 =
        [⟨1, false⟩, ⟨0, false⟩, ⟨1, false⟩, ⟨3, false⟩] := by
  have hbuilt : circled.Built := (Built.empty.edit _ (by decide)).edit _ (by decide)
  have hroot : NodeId.root < circled.size := by decide
  obtain ⟨-, -, -, -, -, -, hagain⟩ := retracing hbuilt hroot ['x', 'y', 'x', 'z']
  refine ⟨hbuilt, hroot, by decide, by decide, ?_⟩
  rw [hagain]
  decide

end Trie

end TrieLexer
