import TrieLexer.Trie

/-!
# Laws of the arena

The operations on a trie in terms of what can be looked up afterwards: the size of the arena, the
children of a node and its content. Edge lists are kept in the order of their symbols, so the
edges of a node are exactly its children.

## Main results

* `Trie.child?_setChild`, `Trie.child?_removeChild`, `Trie.content_modifyContent` — look-ups after
  a change.
* `Trie.follow?_mono` — paths are kept when children are only added.
* `Edges.Sorted.find?_of_mem` — an edge of a sorted list is found.
-/

namespace TrieLexer

/-! ### Sorted edges -/

namespace Symbol

theorem before_trans {s t u : Symbol} (h : s.before t) (h' : t.before u) : s.before u := by
  cases s <;> cases t <;> cases u <;> simp_all [before]
  omega

theorem before_irrefl (s : Symbol) : s.before s = false := by
  cases s <;> simp [before]

theorem before_of_not_before {s t : Symbol} (hne : s ≠ t) (h : s.before t = false) :
    t.before s := by
  cases s with
  | endOfInput => cases t <;> simp_all [before]
  | char a =>
    cases t with
    | endOfInput => rfl
    | char b =>
      have hab : a.toNat ≠ b.toNat := fun hab => hne (congrArg char (Char.toNat_inj.1 hab))
      simp only [before, decide_eq_false_iff_not, decide_eq_true_eq] at h ⊢
      omega

end Symbol

namespace Edges

/-- The edges come in the order of their symbols. -/
def Sorted (edges : Edges) : Prop := edges.Pairwise fun e f => e.1.before f.1

theorem mem_insert {edges : Edges} {s : Symbol} {n : NodeId} {e : Symbol × NodeId}
    (h : e ∈ edges.insert s n) : e = (s, n) ∨ e ∈ edges := by
  induction edges with
  | nil => exact .inl (List.mem_singleton.1 h)
  | cons f edges ih =>
    obtain ⟨t, m⟩ := f
    rw [insert] at h
    split at h
    · exact (List.mem_cons.1 h).imp_right (List.mem_cons_of_mem _)
    · split at h
      · exact List.mem_cons.1 h
      · rcases List.mem_cons.1 h with rfl | h
        · exact .inr List.mem_cons_self
        · exact (ih h).imp_right (List.mem_cons_of_mem _)

theorem Sorted.insert {edges : Edges} (h : edges.Sorted) (s : Symbol) (n : NodeId) :
    (edges.insert s n).Sorted := by
  induction edges with
  | nil => exact List.pairwise_singleton ..
  | cons f edges ih =>
    obtain ⟨t, m⟩ := f
    obtain ⟨hhead, htail⟩ := List.pairwise_cons.1 h
    rw [Edges.insert]
    split
    · next hst => exact List.pairwise_cons.2 ⟨fun e he => hst ▸ hhead e he, htail⟩
    · next hst =>
      split
      · next hbefore =>
        refine List.pairwise_cons.2 ⟨fun e he => ?_, h⟩
        rcases List.mem_cons.1 he with rfl | he
        · exact hbefore
        · exact Symbol.before_trans hbefore (hhead e he)
      · next hbefore =>
        refine List.pairwise_cons.2 ⟨fun e he => ?_, ih htail⟩
        rcases mem_insert he with rfl | he
        · exact Symbol.before_of_not_before hst (by simpa using hbefore)
        · exact hhead e he

theorem Sorted.erase {edges : Edges} (h : edges.Sorted) (s : Symbol) : (edges.erase s).Sorted :=
  List.Pairwise.filter _ h

/-- An edge of a sorted list is found. -/
theorem Sorted.find?_of_mem {edges : Edges} (h : edges.Sorted) {e : Symbol × NodeId}
    (he : e ∈ edges) : edges.find? e.1 = some e.2 := by
  induction edges with
  | nil => cases he
  | cons f edges ih =>
    obtain ⟨t, m⟩ := f
    obtain ⟨hhead, htail⟩ := List.pairwise_cons.1 h
    rw [find?_cons]
    rcases List.mem_cons.1 he with rfl | hmem
    · exact if_pos rfl
    · rw [if_neg ?_, ih htail hmem]
      rintro rfl
      have := hhead e hmem
      rw [Symbol.before_irrefl] at this
      cases this

theorem mem_of_find? {edges : Edges} {s : Symbol} {n : NodeId} (h : edges.find? s = some n) :
    (s, n) ∈ edges := by
  induction edges with
  | nil => cases h
  | cons f edges ih =>
    obtain ⟨t, m⟩ := f
    rw [find?_cons] at h
    split at h
    · next hst => cases h; exact hst ▸ List.mem_cons_self
    · exact List.mem_cons_of_mem _ (ih h)

end Edges

namespace Trie

variable {α β : Type} (t : Trie α) (n m k : NodeId) (s u : Symbol)

/-! ### Looking up after a change -/

@[simp] theorem size_setChild : (t.setChild n s m).size = t.size := Array.size_modify ..

@[simp] theorem size_removeChild : (t.removeChild n s).size = t.size := Array.size_modify ..

@[simp] theorem size_modifyContent (f : α → α) : (t.modifyContent n f).size = t.size :=
  Array.size_modify ..

theorem edges_of_size_le (h : t.size ≤ n) : t.edges n = [] := by
  rw [edges, Array.getElem?_eq_none h]
  rfl

theorem edges_setChild : (t.setChild n s m).edges k =
    if n = k ∧ n < t.size then (t.edges k).insert s m else t.edges k := by
  rw [edges, edges, setChild, Array.getElem?_modify]
  by_cases hk : n = k
  · subst hk
    by_cases hn : n < t.size
    · rw [if_pos rfl, if_pos ⟨rfl, hn⟩, Array.getElem?_eq_getElem hn]
      rfl
    · rw [if_pos rfl, if_neg fun h => hn h.2, Array.getElem?_eq_none (Nat.le_of_not_lt hn)]
      rfl
  · rw [if_neg hk, if_neg fun h => hk h.1]

theorem edges_removeChild : (t.removeChild n s).edges k =
    if n = k then (t.edges k).erase s else t.edges k := by
  rw [edges, edges, removeChild, Array.getElem?_modify]
  split
  · cases t.nodes[k]? <;> rfl
  · rfl

@[simp] theorem edges_modifyContent (f : α → α) :
    (t.modifyContent n f).edges k = t.edges k := by
  rw [edges, edges, modifyContent, Array.getElem?_modify]
  split
  · cases t.nodes[k]? <;> rfl
  · rfl

@[simp] theorem child?_modifyContent (f : α → α) :
    (t.modifyContent n f).child? k s = t.child? k s := by
  rw [child?, edges_modifyContent, child?]

theorem child?_setChild (hn : n < t.size) : (t.setChild n s m).child? k u =
    if k = n ∧ u = s then some m else t.child? k u := by
  rw [child?, child?, edges_setChild]
  by_cases hk : n = k
  · rw [if_pos ⟨hk, hn⟩, Edges.find?_insert]
    simp only [hk, true_and]
  · rw [if_neg fun h => hk h.1, if_neg fun h => hk h.1.symm]

theorem child?_removeChild : (t.removeChild n s).child? k u =
    if k = n ∧ u = s then none else t.child? k u := by
  rw [child?, child?, edges_removeChild]
  by_cases hk : n = k
  · rw [if_pos hk, Edges.find?_erase]
    simp only [hk, true_and]
  · rw [if_neg hk, if_neg fun h => hk h.1.symm]

/-- A node with a child is in the arena. -/
theorem lt_size_of_child? {t : Trie α} {n m : NodeId} {s : Symbol} (h : t.child? n s = some m) :
    n < t.size := by
  refine Nat.lt_of_not_le fun hn => ?_
  rw [child?, edges_of_size_le t n hn] at h
  cases h

@[simp] theorem edges_map (f : α → β) : (t.map f).edges n = t.edges n := by
  simp only [edges, map, Array.getElem?_map, Option.map_map]
  rfl

@[simp] theorem child?_map (f : α → β) : (t.map f).child? n s = t.child? n s := by
  rw [child?, edges_map, child?]

@[simp] theorem size_map (f : α → β) : (t.map f).size = t.size := Array.size_map ..

variable [Inhabited α] [Inhabited β]

theorem content_map (f : α → β) (hf : f default = default) :
    (t.map f).content n = f (t.content n) := by
  simp only [content, map, Array.getElem?_map]
  cases t.nodes[n]? <;> simp [hf]

theorem content_of_size_le (h : t.size ≤ n) : t.content n = default := by
  rw [content, Array.getElem?_eq_none h]
  rfl

@[simp] theorem content_setChild : (t.setChild n s m).content k = t.content k := by
  rw [content, content, setChild, Array.getElem?_modify]
  split
  · cases t.nodes[k]? <;> rfl
  · rfl

@[simp] theorem content_removeChild : (t.removeChild n s).content k = t.content k := by
  rw [content, content, removeChild, Array.getElem?_modify]
  split
  · cases t.nodes[k]? <;> rfl
  · rfl

theorem content_modifyContent (f : α → α) : (t.modifyContent n f).content k =
    if n = k ∧ n < t.size then f (t.content k) else t.content k := by
  rw [content, content, modifyContent, Array.getElem?_modify]
  by_cases hk : n = k
  · subst hk
    by_cases hn : n < t.size
    · rw [if_pos rfl, if_pos ⟨rfl, hn⟩, Array.getElem?_eq_getElem hn]
      rfl
    · rw [if_pos rfl, if_neg fun h => hn h.2, Array.getElem?_eq_none (Nat.le_of_not_lt hn)]
      rfl
  · rw [if_neg hk, if_neg fun h => hk h.1]

@[simp] theorem size_alloc : t.alloc.1.size = t.size + 1 := Array.size_push ..

@[simp] theorem alloc_snd : t.alloc.2 = t.size := rfl

@[simp] theorem edges_alloc : t.alloc.1.edges n = t.edges n := by
  rw [edges, edges, alloc, Array.getElem?_push]
  split
  · next h => subst h; rw [Array.getElem?_eq_none (Nat.le_refl _)]; rfl
  · rfl

@[simp] theorem child?_alloc : t.alloc.1.child? n s = t.child? n s := by
  rw [child?, edges_alloc, child?]

@[simp] theorem content_alloc : t.alloc.1.content n = t.content n := by
  rw [content, content, alloc, Array.getElem?_push]
  split
  · next h => subst h; rw [Array.getElem?_eq_none (Nat.le_refl _)]; rfl
  · rfl

end Trie

/-! ### Paths -/

namespace Trie

variable {α : Type} {t t' : Trie α} {n m : NodeId}

@[simp] theorem follow?_nil (t : Trie α) (n : NodeId) : t.follow? n [] = some n := rfl

theorem follow?_cons (t : Trie α) (n : NodeId) (s : Symbol) (path : List Symbol) :
    t.follow? n (s :: path) = t.child? n s >>= fun m => t.follow? m path := by
  simp only [follow?, List.foldlM_cons]

theorem follow?_append (t : Trie α) (n : NodeId) (path rest : List Symbol) :
    t.follow? n (path ++ rest) = t.follow? n path >>= fun m => t.follow? m rest := by
  simp only [follow?, List.foldlM_append]

theorem follow?_congr (h : ∀ k s, t.child? k s = t'.child? k s) (n : NodeId)
    (path : List Symbol) : t.follow? n path = t'.follow? n path := by
  induction path generalizing n with
  | nil => rfl
  | cons s path ih => simp only [follow?_cons, h, ih]

/-- Paths are kept when children are only added. -/
theorem follow?_mono (h : ∀ n s m, t.child? n s = some m → t'.child? n s = some m)
    {path : List Symbol} (hp : t.follow? n path = some m) : t'.follow? n path = some m := by
  induction path generalizing n with
  | nil => exact hp
  | cons s path ih =>
    rw [follow?_cons] at hp ⊢
    obtain ⟨k, hk, hp⟩ := Option.bind_eq_some_iff.1 hp
    exact Option.bind_eq_some_iff.2 ⟨k, h n s k hk, ih hp⟩

/-- The steps along symbols from a node. -/
inductive Trail (t : Trie α) : NodeId → List Symbol → List Step → Prop
  | nil (n : NodeId) : Trail t n [] []
  | cons {n : NodeId} {s : Symbol} {step : Step} {symbols : List Symbol} {steps : List Step}
      (hc : t.child? n s = some step.node) (h : Trail t step.node symbols steps) :
      Trail t n (s :: symbols) (step :: steps)

theorem Trail.getLast? {symbols : List Symbol} {steps : List Step} (h : t.Trail n symbols steps)
    (hs : symbols ≠ []) :
    ∃ last, steps.getLast? = some last ∧ t.follow? n symbols = some last.node := by
  induction h with
  | nil n => exact absurd rfl hs
  | @cons n s step symbols steps hc h ih =>
    cases h with
    | nil _ => exact ⟨step, rfl, by rw [follow?_cons, hc]; rfl⟩
    | cons hc' h' =>
      obtain ⟨last, hlast, hp⟩ := ih nofun
      refine ⟨last, ?_, ?_⟩
      · rw [List.getLast?_cons, hlast]
        rfl
      · rw [follow?_cons, hc]
        exact hp

/-- Each step of a trail is where its symbols lead. -/
theorem Trail.follow?_take {symbols : List Symbol} {steps : List Step}
    (h : t.Trail n symbols steps) {i : Nat} {step : Step} (hi : steps[i]? = some step) :
    t.follow? n (symbols.take (i + 1)) = some step.node := by
  induction h generalizing i with
  | nil n => cases hi
  | @cons n s step' symbols steps hc ht ih =>
    rw [List.take_succ_cons, follow?_cons, hc]
    cases i with
    | zero =>
      cases hi
      rfl
    | succ i => exact ih hi

theorem Trail.length_eq {symbols : List Symbol} {steps : List Step}
    (h : t.Trail n symbols steps) : steps.length = symbols.length := by
  induction h with
  | nil n => rfl
  | cons hc ht ih => simp [ih]

end Trie

end TrieLexer
