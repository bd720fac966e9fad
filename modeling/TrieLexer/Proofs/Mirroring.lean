import Mathlib.Data.Fintype.Card
import TrieLexer.Proofs.Drafting

/-!
# Drafts that mirror each other

Two drafts are laid side by side. Every node of the smaller one has an image in the larger one,
which has the same children, the same claim and the same behaviour, except that nodes are renamed
and that the smaller draft has no nested runs. The larger draft may have more nodes besides, which
hang off the root by symbols that are kept out.

## Main definitions

* `Fallback.rename`, `Behaviour.Mirrors`, `Site.Mirrors` — what nodes and their images do.
* `Trie.Mirrors` — an arena and its image.
* `Trie.Tame` — paths are short and lead to nodes of the arena.
* `Draft.Mirrors` — a draft and its image.

## Main results

* `Trie.Mirrors.extend` — a literal is spelled in both.
* `Draft.mirrors_redirectWithin`, `Draft.Mirrors.pruneBoundaries` — what is done to subtrees.
-/

namespace TrieLexer

/-- How many symbols lead to a place. -/
def Locus.depth : Locus → Nat
  | ⟨.float, path⟩ => path.length + 1
  | ⟨_, path⟩ => path.length

theorem Locus.depth_down (p : Locus) (s : Symbol) : (p.down s).depth = p.depth + 1 := by
  obtain hd | ⟨rfl, rfl, hd⟩ := p.down_eq_or s
  · rw [hd]
    obtain ⟨o, path⟩ := p
    cases o <;> simp [depth]
  · rfl

/-! ### Renaming nodes -/

/-- A renaming of nodes that keeps the nodes of every draft. -/
structure Renames (f : NodeId → NodeId) : Prop where
  inj {n m : NodeId} (h : f n = f m) : n = m
  start {n : NodeId} (h : n < 5) : f n = n

namespace Renames

variable {f : NodeId → NodeId} {n m : NodeId}

theorem root (h : Renames f) : f .root = .root := h.start (by decide)
theorem unknown (h : Renames f) : f .unknown = .unknown := h.start (by decide)
theorem identifier (h : Renames f) : f .identifier = .identifier := h.start (by decide)
theorem number (h : Renames f) : f .number = .number := h.start (by decide)
theorem float (h : Renames f) : f .float = .float := h.start (by decide)

theorem eq_iff (h : Renames f) : f n = f m ↔ n = m := ⟨h.inj, congrArg f⟩

theorem eq_root_iff (h : Renames f) : f n = .root ↔ n = .root :=
  ⟨fun hn => h.inj (hn.trans h.root.symm), fun hn => hn ▸ h.root⟩

end Renames

/-- The same edges to other nodes. -/
def Edges.rename (f : NodeId → NodeId) (edges : Edges) : Edges := edges.map fun e => (e.1, f e.2)

namespace Edges

variable (f : NodeId → NodeId)

theorem find?_rename (edges : Edges) (s : Symbol) :
    find? (rename f edges) s = (find? edges s).map f := by
  induction edges with
  | nil => rfl
  | cons e edges ih =>
    obtain ⟨t, m⟩ := e
    change (if s = t then some (f m) else find? (rename f edges) s) = _
    rw [ih, find?_cons]
    split <;> rfl

theorem rename_insert (edges : Edges) (s : Symbol) (n : NodeId) :
    rename f (insert edges s n) = insert (rename f edges) s (f n) := by
  induction edges with
  | nil => rfl
  | cons e edges ih =>
    obtain ⟨t, m⟩ := e
    change _ = if s = t then (s, f n) :: rename f edges
      else if s.before t then (s, f n) :: (t, f m) :: rename f edges
      else (t, f m) :: insert (rename f edges) s (f n)
    rw [← ih, insert]
    split
    · rfl
    · split <;> rfl

theorem rename_erase (edges : Edges) (s : Symbol) :
    rename f (erase edges s) = erase (rename f edges) s := by
  rw [erase, erase, rename, rename, List.filter_map]
  rfl

end Edges

/-- The same fallback to other nodes. -/
def Fallback.rename (f : NodeId → NodeId) : Fallback → Fallback
  | reroute target => .reroute (f target)
  | classify test hit miss => .classify test (f hit) (f miss)
  | stay => .stay
  | dispatch => .dispatch
  | release label => .release label

/-- An action and its image, which may end a nested run. -/
inductive Action.Mirrors (f : NodeId → NodeId) : Action → Action → Prop
  | none : Mirrors f .none .none
  | literal (label : Option Label) : Mirrors f (.literal label) (.literal label)
  | boundary (label : Label) (length : Nat) : Mirrors f (.boundary label length)
      (.boundary label length)
  | close {c c' : Close} (h : { c' with nested := Option.none } = { c with body := f c.body }) :
      Mirrors f (.close c) (.close c')

/-- The behaviour of a node and of its image. -/
structure Behaviour.Mirrors (f : NodeId → NodeId) (b b' : Behaviour) : Prop where
  fallback : b'.fallback = b.fallback.rename f
  action : b.action.Mirrors f b'.action
  run : b.run = none

/-- A node in the making and its image. -/
structure Site.Mirrors (f : NodeId → NodeId) (site site' : Site) : Prop where
  behaviour : site.behaviour.Mirrors f site'.behaviour
  claim : site'.claim = site.claim

theorem Site.mirrors_default (f : NodeId → NodeId) : Site.Mirrors f {} {} :=
  ⟨⟨rfl, .none, rfl⟩, rfl⟩

/-! ### Arenas -/

namespace Trie

/-- An arena and its image. The children of the root for the symbols that are kept out have no
counterparts. -/
structure Mirrors (f : NodeId → NodeId) (out : Symbol → Prop) (t u : Trie Site) : Prop where
  pos : 0 < t.size
  le : t.size ≤ u.size
  size (k : Nat) : f (t.size + k) = u.size + k
  sorted (n : NodeId) : (t.edges n).Sorted
  edges {n : NodeId} (hn : n ≠ .root) : u.edges (f n) = Edges.rename f (t.edges n)
  root {s : Symbol} (hs : ¬out s) : u.child? .root s = (t.child? .root s).map f
  content (n : NodeId) : (t.content n).Mirrors f (u.content (f n))
  parent {n m : NodeId} {s : Symbol} (h : t.child? n s = some m) : m ≠ .root

/-- Whether a symbol at a node is not kept out. -/
def Keeps (out : Symbol → Prop) (n : NodeId) (s : Symbol) : Prop := n = .root → ¬out s

variable {f : NodeId → NodeId} {out : Symbol → Prop} {t u : Trie Site} {n m k : NodeId} {s : Symbol}

/-- A step at the image of its node. -/
def Step.rename (f : NodeId → NodeId) (step : Step) : Step := { step with node := f step.node }

theorem lt_size_of_edges_ne (h : t.edges n ≠ []) : n < t.size :=
  Nat.lt_of_not_le fun hle => h (t.edges_of_size_le n hle)

namespace Mirrors

theorem size_eq (h : t.Mirrors f out u) : f t.size = u.size := h.size 0

theorem lt_size_iff (h : t.Mirrors f out u) (hf : Renames f) : f n < u.size ↔ n < t.size := by
  constructor
  · intro hn
    refine Nat.lt_of_not_le fun hle => ?_
    have hsize := h.size (n - t.size)
    rw [Nat.add_sub_cancel' hle] at hsize
    exact Nat.not_lt.2 (hsize ▸ Nat.le_add_right ..) hn
  · intro hn
    refine Nat.lt_of_not_le fun hle => ?_
    have hsize := h.size (f n - u.size)
    rw [Nat.add_sub_cancel' hle] at hsize
    exact Nat.not_lt.2 (hf.inj hsize ▸ Nat.le_add_right ..) hn

/-- A node and its image have the same children. -/
theorem child? (h : t.Mirrors f out u) (hf : Renames f) (hn : Keeps out n s) :
    u.child? (f n) s = (t.child? n s).map f := by
  by_cases hroot : n = .root
  · subst hroot
    rw [hf.root]
    exact h.root (hn rfl)
  · rw [Trie.child?, h.edges hroot, Edges.find?_rename]
    rfl

theorem modifyContent (h : t.Mirrors f out u) (hf : Renames f) {g g' : Site → Site}
    (hg : (t.content n).Mirrors f (u.content (f n)) →
      (g (t.content n)).Mirrors f (g' (u.content (f n)))) :
    (t.modifyContent n g).Mirrors f out (u.modifyContent (f n) g') where
  pos := by simpa using h.pos
  le := by simpa using h.le
  size k := by simpa using h.size k
  sorted k := by simpa using h.sorted k
  edges hk := by simpa using h.edges hk
  root hs := by simpa using h.root hs
  content k := by
    simp only [content_modifyContent, hf.eq_iff, h.lt_size_iff hf]
    split
    · next hk =>
      rw [← hk.1]
      exact hg (h.content n)
    · exact h.content k
  parent hc := h.parent (by simpa using hc)

theorem alloc (h : t.Mirrors f out u) : t.alloc.1.Mirrors f out u.alloc.1 where
  pos := by simp
  le := by simpa using h.le
  size k := by
    rw [size_alloc, size_alloc, Nat.add_assoc, h.size, Nat.add_assoc]
  sorted k := by simpa using h.sorted k
  edges hk := by simpa using h.edges hk
  root hs := by simpa using h.root hs
  content k := by simpa using h.content k
  parent hc := h.parent (by simpa using hc)

theorem setChild (h : t.Mirrors f out u) (hf : Renames f) (hm : m ≠ .root) :
    (t.setChild n s m).Mirrors f out (u.setChild (f n) s (f m)) where
  pos := by simpa using h.pos
  le := by simpa using h.le
  size k := by simpa using h.size k
  sorted k := by
    rw [edges_setChild]
    split
    · exact (h.sorted k).insert s m
    · exact h.sorted k
  edges {k} hk := by
    simp only [edges_setChild, hf.eq_iff, h.lt_size_iff hf, h.edges hk]
    split
    · exact (Edges.rename_insert f _ s m).symm
    · rfl
  root {v} hv := by
    have huroot := h.root hv
    rw [Trie.child?, Trie.child?] at huroot ⊢
    simp only [edges_setChild, hf.eq_root_iff, h.lt_size_iff hf]
    split
    · rw [Edges.find?_insert, Edges.find?_insert, huroot]
      split <;> rfl
    · exact huroot
  content k := by simpa using h.content k
  parent {k l v} hc := by
    by_cases hn : n < t.size
    · rw [child?_setChild _ _ _ _ _ _ hn] at hc
      split at hc
      · cases hc
        exact hm
      · exact h.parent hc
    · rw [Trie.child?, edges_setChild, if_neg fun hk => hn hk.2] at hc
      exact h.parent hc

theorem removeChild (h : t.Mirrors f out u) (hf : Renames f) (hn : n ≠ .root) :
    (t.removeChild n s).Mirrors f out (u.removeChild (f n) s) where
  pos := by simpa using h.pos
  le := by simpa using h.le
  size k := by simpa using h.size k
  sorted k := by
    rw [edges_removeChild]
    split
    · exact (h.sorted k).erase s
    · exact h.sorted k
  edges {k} hk := by
    simp only [edges_removeChild, hf.eq_iff, h.edges hk]
    split
    · exact (Edges.rename_erase f _ s).symm
    · rfl
  root {v} hv := by
    rw [child?_removeChild, child?_removeChild, if_neg fun hk => hn (hf.eq_root_iff.1 hk.1.symm),
      if_neg fun hk => hn hk.1.symm]
    exact h.root hv
  content k := by simpa using h.content k
  parent hc := by
    rw [child?_removeChild] at hc
    split at hc
    · cases hc
    · exact h.parent hc

theorem addChild (h : t.Mirrors f out u) (hf : Renames f) (hn : Keeps out n s) :
    (t.addChild n s).1.Mirrors f out (u.addChild (f n) s).1 ∧
      (u.addChild (f n) s).2 = (t.addChild n s).2.rename f ∧ (t.addChild n s).2.node ≠ .root := by
  rw [Trie.addChild, Trie.addChild, h.child? hf hn]
  cases hc : t.child? n s with
  | some m => exact ⟨h, rfl, h.parent hc⟩
  | none =>
    have hroot : t.size ≠ NodeId.root := Nat.pos_iff_ne_zero.1 h.pos
    have hset := h.alloc.setChild hf (n := n) (s := s) hroot
    rw [h.size_eq] at hset
    exact ⟨hset, by rw [Step.rename]; exact congrArg (Step.mk · true) h.size_eq.symm, hroot⟩

/-- A literal is spelled in both. -/
theorem extend (h : t.Mirrors f out u) (hf : Renames f) {symbols : List Symbol}
    (hn : ∀ s, symbols.head? = some s → Keeps out n s) :
    (t.extend n symbols).1.Mirrors f out (u.extend (f n) symbols).1 ∧
      (u.extend (f n) symbols).2 = (t.extend n symbols).2.map (·.rename f) ∧
      ∀ step ∈ (t.extend n symbols).2, step.node ≠ .root := by
  induction symbols generalizing t u n with
  | nil => exact ⟨h, rfl, List.forall_mem_nil _⟩
  | cons s symbols ih =>
    obtain ⟨hadd, hstep, hroot⟩ := h.addChild hf (hn s rfl)
    obtain ⟨hext, hsteps, hroots⟩ := ih hadd (n := (t.addChild n s).2.node) fun _ _ hm =>
      absurd hm hroot
    have hnode : (u.addChild (f n) s).2.node = f (t.addChild n s).2.node := by
      rw [hstep]
      rfl
    rw [← hnode] at hext hsteps
    refine ⟨hext, ?_, List.forall_mem_cons.2 ⟨hroot, hroots⟩⟩
    simp only [Trie.extend, List.map_cons]
    rw [hsteps, hstep]

end Mirrors

/-! ### Subtrees -/

/-- All paths below a node are shorter than so many symbols. -/
def Within (t : Trie Site) (n : NodeId) (depth : Nat) : Prop :=
  ∀ path k, t.follow? n path = some k → path.length < depth

/-- All paths are shorter than there are nodes. -/
def Short (t : Trie Site) : Prop := ∀ n, t.Within n t.size

variable {depth depth' : Nat} {t' : Trie Site}

theorem not_within_zero (t : Trie Site) (n : NodeId) : ¬t.Within n 0 := fun h =>
  Nat.lt_irrefl 0 (h [] n rfl)

theorem Within.child (h : t.Within n (depth + 1)) (hc : t.child? n s = some m) :
    t.Within m depth := by
  intro path k hp
  refine Nat.lt_of_succ_lt_succ (h (s :: path) k ?_)
  rw [follow?_cons, hc]
  exact hp

theorem Within.mono (h : t.Within n depth) (hle : depth ≤ depth') : t.Within n depth' :=
  fun path k hp => Nat.lt_of_lt_of_le (h path k hp) hle

theorem Within.congr (h : t.Within n depth) (he : ∀ k, t'.edges k = t.edges k) :
    t'.Within n depth := by
  intro path k hp
  have hchild (k : NodeId) (s : Symbol) : t'.child? k s = t.child? k s := by
    rw [Trie.child?, he k, Trie.child?]
  exact h path k (follow?_congr hchild n path ▸ hp)

theorem Short.congr (h : t.Short) (hsize : t'.size = t.size) (he : ∀ k, t'.edges k = t.edges k) :
    t'.Short :=
  fun n => hsize ▸ (h n).congr he

theorem Short.removeChild (h : t.Short) : (t.removeChild n s).Short := by
  intro k path j hp
  rw [size_removeChild]
  refine h k path j (follow?_mono (fun k s m hc => ?_) hp)
  rw [child?_removeChild] at hc
  split at hc
  · cases hc
  · exact hc

theorem Short.alloc (h : t.Short) : t.alloc.1.Short := by
  intro k path j hp
  rw [size_alloc]
  rw [follow?_congr fun k s => child?_alloc t k s] at hp
  exact Nat.lt_succ_of_lt (h k path j hp)

/-- A new child without children makes paths longer by one symbol at most. -/
theorem Short.addChild (h : t.Short) (hn : n < t.size) : (t.addChild n s).1.Short := by
  rw [Trie.addChild]
  cases hc : t.child? n s with
  | some m => exact h
  | none =>
    intro k path j (hp : (t.alloc.1.setChild n s t.size).follow? k path = some j)
    change _ < (t.alloc.1.setChild n s t.size).size
    rw [size_setChild, size_alloc]
    have hchild (k : NodeId) (v : Symbol) : (t.alloc.1.setChild n s t.size).child? k v =
        if k = n ∧ v = s then some t.size else t.child? k v := by
      have hlt : n < t.alloc.1.size := by
        rw [size_alloc]
        exact Nat.lt_succ_of_lt hn
      rw [child?_setChild _ _ _ _ _ _ hlt, child?_alloc]
    have hleaf (v : Symbol) : (t.alloc.1.setChild n s t.size).child? t.size v = none := by
      rw [hchild, if_neg fun hk => Nat.lt_irrefl _ (hk.1 ▸ hn), child?,
        edges_of_size_le _ _ (Nat.le_refl _)]
      rfl
    suffices hpath : (t.follow? k path = some j) ∨
        ∃ front, path = front ++ [s] ∧ t.follow? k front = some n by
      rcases hpath with hpath | ⟨front, rfl, hfront⟩
      · exact Nat.lt_succ_of_lt (h k path j hpath)
      · rw [List.length_append]
        exact Nat.succ_lt_succ (h k front n hfront)
    induction path generalizing k with
    | nil => exact .inl hp
    | cons v path ih =>
      rw [follow?_cons, hchild] at hp
      split at hp
      · next hk =>
        obtain ⟨rfl, rfl⟩ := hk
        cases path with
        | nil => exact .inr ⟨[], rfl, rfl⟩
        | cons w path =>
          change (t.alloc.1.setChild k v t.size).follow? t.size (w :: path) = some j at hp
          rw [follow?_cons, hleaf] at hp
          cases hp
      · obtain ⟨m, hm, hp⟩ := Option.bind_eq_some_iff.1 hp
        rcases ih m hp with hpath | ⟨front, rfl, hfront⟩
        · exact .inl (by rw [follow?_cons, hm]; exact hpath)
        · exact .inr ⟨v :: front, rfl, by rw [follow?_cons, hm]; exact hfront⟩

/-- All paths are short, and all children are in the arena. -/
structure Tame (t : Trie Site) : Prop where
  short : t.Short
  child {n m : NodeId} {s : Symbol} (h : t.child? n s = some m) : m < t.size

theorem Tame.congr (h : t.Tame) (hsize : t'.size = t.size) (he : ∀ k, t'.edges k = t.edges k) :
    t'.Tame where
  short := h.short.congr hsize he
  child {n m s} hc := by
    rw [Trie.child?, he] at hc
    exact hsize ▸ h.child hc

theorem Tame.alloc (h : t.Tame) : t.alloc.1.Tame where
  short := h.short.alloc
  child hc := by
    rw [child?_alloc] at hc
    rw [size_alloc]
    exact Nat.lt_succ_of_lt (h.child hc)

theorem Tame.addChild (h : t.Tame) (hn : n < t.size) :
    (t.addChild n s).1.Tame ∧ t.size ≤ (t.addChild n s).1.size ∧
      (t.addChild n s).2.node < (t.addChild n s).1.size := by
  have hshort := h.short.addChild hn (s := s)
  rw [Trie.addChild] at hshort ⊢
  cases hc : t.child? n s with
  | some m => exact ⟨h, Nat.le_refl _, h.child hc⟩
  | none =>
    rw [hc] at hshort
    have hsize : (t.alloc.1.setChild n s t.size).size = t.size + 1 := by
      rw [size_setChild, size_alloc]
    refine ⟨⟨hshort, fun {k m v} hm => ?_⟩, Nat.le_of_lt (Nat.lt_of_lt_of_eq (Nat.lt_succ_self _)
      hsize.symm), Nat.lt_of_lt_of_eq (Nat.lt_succ_self _) hsize.symm⟩
    change (t.alloc.1.setChild n s t.size).child? k v = some m at hm
    refine Nat.lt_of_lt_of_eq ?_ hsize.symm
    have hlt : n < t.alloc.1.size := by
      rw [size_alloc]
      exact Nat.lt_succ_of_lt hn
    rw [child?_setChild _ _ _ _ _ _ hlt, child?_alloc] at hm
    split at hm
    · cases hm
      exact Nat.lt_succ_self _
    · exact Nat.lt_succ_of_lt (h.child hm)

theorem Tame.extend (h : t.Tame) (hn : n < t.size) (symbols : List Symbol) :
    (t.extend n symbols).1.Tame ∧ t.size ≤ (t.extend n symbols).1.size ∧
      ∀ step ∈ (t.extend n symbols).2, step.node < (t.extend n symbols).1.size := by
  induction symbols generalizing t n with
  | nil => exact ⟨h, Nat.le_refl _, List.forall_mem_nil _⟩
  | cons s symbols ih =>
    obtain ⟨hadd, hsize, hnode⟩ := h.addChild hn (s := s)
    obtain ⟨hext, hsize', hnodes⟩ := ih hadd hnode
    exact ⟨hext, Nat.le_trans hsize hsize',
      List.forall_mem_cons.2 ⟨Nat.lt_of_lt_of_le hnode hsize', hnodes⟩⟩

end Trie

namespace Draft

open Trie (Within)

variable {f : NodeId → NodeId} {out : Symbol → Prop} {t u : Trie Site} {d e : Draft}
  {n k body : NodeId} {depth depth' : Nat}

theorem edges_foldl {step : Trie Site → Symbol × NodeId → Trie Site}
    (hstep : ∀ t e k, (step t e).edges k = t.edges k) (edges : Edges) (t : Trie Site)
    (k : NodeId) : (edges.foldl step t).edges k = t.edges k := by
  induction edges generalizing t with
  | nil => rfl
  | cons e edges ih => rw [List.foldl_cons, ih, hstep]

theorem edges_unclaimWithin (depth : Nat) (t : Trie Site) (n k : NodeId) :
    (unclaimWithin depth t n).edges k = t.edges k := by
  induction depth generalizing t n k with
  | zero => rfl
  | succ depth ih =>
    rw [unclaimWithin, edges_foldl fun t e k => ih t e.2 k, Trie.edges_modifyContent]

theorem edges_redirectWithin (body : NodeId) (depth : Nat) (t : Trie Site) (n k : NodeId) :
    (redirectWithin body depth t n).edges k = t.edges k := by
  induction depth generalizing t n k with
  | zero => rfl
  | succ depth ih =>
    rw [redirectWithin, edges_foldl]
    intro t e k
    split
    · rfl
    · rw [ih, Trie.edges_modifyContent]

/-- What is done to one edge after the other is mirrored. -/
theorem mirrors_foldl {step step' : Trie Site → Symbol × NodeId → Trie Site} {edges : Edges}
    (h : t.Mirrors f out u)
    (hedges : ∀ t e k, (step t e).edges k = t.edges k)
    (hstep : ∀ e ∈ edges, ∀ t' u', t'.Mirrors f out u' → (∀ k, t'.edges k = t.edges k) →
      (step t' e).Mirrors f out (step' u' (e.1, f e.2))) :
    (edges.foldl step t).Mirrors f out ((Edges.rename f edges).foldl step' u) := by
  suffices hgo : ∀ (rest : Edges) (t' u' : Trie Site), t'.Mirrors f out u' →
      (∀ k, t'.edges k = t.edges k) → (∀ e ∈ rest, e ∈ edges) →
      (rest.foldl step t').Mirrors f out ((Edges.rename f rest).foldl step' u') from
    hgo edges t u h (fun _ => rfl) fun _ he => he
  intro rest
  induction rest with
  | nil => exact fun _ _ h' _ _ => h'
  | cons e rest ih =>
    intro t' u' h' ht' hrest
    rw [List.forall_mem_cons] at hrest
    exact ih _ _ (hstep e hrest.1 t' u' h' ht') (fun k => (hedges t' e k).trans (ht' k)) hrest.2

/-- A node has nothing but ends of open-ended tokens below it if its image has nothing else. -/
theorem onlyBoundariesWithin_eq (h : d.trie.Mirrors f out e.trie) (hn : n ≠ .root)
    (hd : d.trie.Within n depth) (hd' : d.trie.Within n depth') :
    e.onlyBoundariesWithin depth' (f n) = d.onlyBoundariesWithin depth n := by
  induction depth generalizing depth' n with
  | zero => exact absurd hd (d.trie.not_within_zero n)
  | succ depth ih =>
    cases depth' with
    | zero => exact absurd hd' (d.trie.not_within_zero n)
    | succ depth' =>
      rw [onlyBoundariesWithin, onlyBoundariesWithin, h.edges hn, claim?, claim?, site, site,
        (h.content n).claim, Edges.rename, List.all_map]
      refine congrArg _ (Bool.eq_iff_iff.2 ?_)
      simp only [List.all_eq_true]
      refine forall₂_congr fun x hx => ?_
      have hc := (h.sorted n).find?_of_mem hx
      rw [Function.comp, ih (h.parent hc) (hd.child hc) (hd'.child hc)]

/-- Dropping the claims below a node is mirrored. -/
theorem mirrors_unclaimWithin (h : t.Mirrors f out u) (hf : Renames f) (hn : n ≠ .root)
    (hd : t.Within n depth) (hd' : t.Within n depth') :
    (unclaimWithin depth t n).Mirrors f out (unclaimWithin depth' u (f n)) := by
  induction depth generalizing depth' n t u with
  | zero => exact absurd hd (t.not_within_zero n)
  | succ depth ih =>
    cases depth' with
    | zero => exact absurd hd' (t.not_within_zero n)
    | succ depth' =>
      have hmod : (t.modifyContent n fun site => { site with claim := none }).Mirrors f out
          (u.modifyContent (f n) fun site => { site with claim := none }) :=
        h.modifyContent hf fun hs => ⟨hs.behaviour, rfl⟩
      rw [unclaimWithin, unclaimWithin, hmod.edges hn]
      refine mirrors_foldl hmod (fun t x k => edges_unclaimWithin depth t x.2 k)
        fun x hx t' u' h' ht' => ?_
      have hc := (hmod.sorted n).find?_of_mem hx
      have hwithin {depth : Nat} (hd : t.Within n (depth + 1)) : t'.Within x.2 depth :=
        ((hd.congr fun k => Trie.edges_modifyContent ..).child hc).congr ht'
      exact ih h' (hmod.parent hc) (hwithin hd) (hwithin hd')

/-- Sending the unclaimed nodes below a node elsewhere is mirrored. -/
theorem mirrors_redirectWithin (h : t.Mirrors f out u) (hf : Renames f) (hn : n ≠ .root)
    (hd : t.Within n depth) (hd' : t.Within n depth') :
    (redirectWithin body depth t n).Mirrors f out (redirectWithin (f body) depth' u (f n)) := by
  induction depth generalizing depth' n t u with
  | zero => exact absurd hd (t.not_within_zero n)
  | succ depth ih =>
    cases depth' with
    | zero => exact absurd hd' (t.not_within_zero n)
    | succ depth' =>
      rw [redirectWithin, redirectWithin, h.edges hn]
      refine mirrors_foldl h (fun t x k => ?_) fun x hx t' u' h' ht' => ?_
      · split
        · rfl
        · rw [edges_redirectWithin, Trie.edges_modifyContent]
      · have hc := (h.sorted n).find?_of_mem hx
        simp only [(h'.content x.2).claim]
        split
        · exact h'
        · have hmod : (t'.modifyContent x.2 fun site =>
              { site with behaviour := { site.behaviour with fallback := .reroute body } }).Mirrors
              f out (u'.modifyContent (f x.2) fun site => { site with
                behaviour := { site.behaviour with fallback := .reroute (f body) } }) :=
            h'.modifyContent hf fun hs =>
              ⟨⟨rfl, hs.behaviour.action, hs.behaviour.run⟩, hs.claim⟩
          have hwithin {depth : Nat} (hd : t.Within n (depth + 1)) :
              (t'.modifyContent x.2 fun site =>
                { site with behaviour := { site.behaviour with fallback := .reroute body } }).Within
                x.2 depth :=
            (hd.child hc).congr fun k => (Trie.edges_modifyContent ..).trans (ht' k)
          exact ih hmod (h.parent hc) (hwithin hd) (hwithin hd')

/-! ### Charted drafts -/

section

variable {lexicon : Lexicon} {matchers : List (GreedyMatcher Compilation)} {pointed : Prop}
  {marked : String → Prop} {loose : NodeId → Prop} {place : NodeId → Locus}

/-- The nodes on a path lie deeper and deeper. -/
theorem Charted.exists_depth (h : Charted lexicon matchers pointed marked loose d place)
    (hn : n < d.trie.size) {path : List Symbol} (hp : d.trie.follow? n path = some k) :
    ∃ g : Nat → NodeId, ∀ i ≤ path.length,
      g i < d.trie.size ∧ (place (g i)).depth = (place n).depth + i := by
  induction path generalizing n with
  | nil => exact ⟨fun _ => n, fun i hi => ⟨hn, by rw [Nat.le_zero.1 hi, Nat.add_zero]⟩⟩
  | cons s path ih =>
    rw [Trie.follow?_cons] at hp
    obtain ⟨m, hm, hp⟩ := Option.bind_eq_some_iff.1 hp
    obtain ⟨hlt, hplace⟩ := h.child hm
    obtain ⟨g, hg⟩ := ih hlt hp
    refine ⟨fun i => i.casesOn n g, fun i hi => ?_⟩
    cases i with
    | zero => exact ⟨hn, rfl⟩
    | succ i =>
      obtain ⟨hlt, hdepth⟩ := hg i (Nat.le_of_succ_le_succ hi)
      refine ⟨hlt, hdepth.trans ?_⟩
      rw [hplace, Locus.depth_down, Nat.add_assoc, Nat.add_comm 1]

/-- A path of a charted draft comes to every node once at most. -/
theorem Charted.tame (h : Charted lexicon matchers pointed marked loose d place) :
    d.trie.Tame where
  short n path k hp := by
    by_cases hn : n < d.trie.size
    · obtain ⟨g, hg⟩ := h.exists_depth hn hp
      have hinj : Function.Injective fun i : Fin (path.length + 1) =>
          (⟨g i, (hg i (Nat.le_of_lt_succ i.2)).1⟩ : Fin d.trie.size) := by
        intro i j hij
        have hi := (hg i (Nat.le_of_lt_succ i.2)).2
        rw [Fin.mk.inj hij, (hg j (Nat.le_of_lt_succ j.2)).2] at hi
        exact Fin.ext (Nat.add_left_cancel hi).symm
      have hcard := Fintype.card_le_of_injective _ hinj
      rwa [Fintype.card_fin, Fintype.card_fin] at hcard
    · cases path with
      | nil => exact Nat.lt_of_lt_of_le (by decide) h.size
      | cons s path =>
        rw [Trie.follow?_cons] at hp
        obtain ⟨m, hm, -⟩ := Option.bind_eq_some_iff.1 hp
        exact absurd (Trie.lt_size_of_child? hm) hn
  child hc := (h.child hc).1

end

/-! ### Drafts -/

/-- A draft and its image. -/
structure Mirrors (f : NodeId → NodeId) (out : Symbol → Prop) (d e : Draft) : Prop where
  trie : d.trie.Mirrors f out e.trie
  tame : d.trie.Tame
  openers : e.openers = d.openers.map fun o => (f o.1, f o.2)
  opener {o : NodeId × NodeId} (h : o ∈ d.openers) : o.1 ≠ .root
  runs : d.runs = #[]

namespace Mirrors

theorem site (h : d.Mirrors f out e) (n : NodeId) : (d.site n).Mirrors f (e.site (f n)) :=
  h.trie.content n

theorem claim? (h : d.Mirrors f out e) (n : NodeId) : e.claim? (f n) = d.claim? n :=
  (h.site n).claim

theorem warnings (h : d.Mirrors f out e) (ws ws' : Array Warning) :
    Mirrors f out { d with warnings := ws } { e with warnings := ws' } :=
  ⟨h.trie, h.tame, h.openers, h.opener, h.runs⟩

theorem runs_right (h : d.Mirrors f out e) (runs : Array (NestedRun Automaton)) :
    d.Mirrors f out { e with runs } :=
  ⟨h.trie, h.tame, h.openers, h.opener, h.runs⟩

theorem modifyContent (h : d.Mirrors f out e) (hf : Renames f) {g g' : Site → Site}
    (hg : (d.site n).Mirrors f (e.site (f n)) → (g (d.site n)).Mirrors f (g' (e.site (f n)))) :
    Mirrors f out { d with trie := d.trie.modifyContent n g }
      { e with trie := e.trie.modifyContent (f n) g' } where
  trie := h.trie.modifyContent hf hg
  tame := h.tame.congr (by simp) (by simp)
  openers := h.openers
  opener := h.opener
  runs := h.runs

theorem recordClaim (h : d.Mirrors f out e) (hf : Renames f) (n : NodeId) (role : Role) :
    (d.recordClaim n role).Mirrors f out (e.recordClaim (f n) role) :=
  h.modifyContent hf fun hs => ⟨hs.behaviour, rfl⟩

theorem modifyBehaviour (h : d.Mirrors f out e) (hf : Renames f) {g g' : Behaviour → Behaviour}
    (hg : ∀ b b', Behaviour.Mirrors f b b' → (g b).Mirrors f (g' b')) :
    (d.modifyBehaviour n g).Mirrors f out (e.modifyBehaviour (f n) g') :=
  h.modifyContent hf fun hs => ⟨hg _ _ hs.behaviour, hs.claim⟩

theorem alloc (h : d.Mirrors f out e) :
    Mirrors f out { d with trie := d.trie.alloc.1 } { e with trie := e.trie.alloc.1 } where
  trie := h.trie.alloc
  tame := h.tame.alloc
  openers := h.openers
  opener := h.opener
  runs := h.runs

/-- A path that only ends open-ended tokens is removed in both. -/
theorem pruneBoundary (h : d.Mirrors f out e) (hf : Renames f) (hn : n ≠ .root)
    {x : Symbol × NodeId} (hx : x.2 ≠ .root)
    (hk : ∀ m, d.trie.child? n x.1 = some m → m = x.2) :
    (d.pruneBoundary n x).Mirrors f out (e.pruneBoundary (f n) (x.1, f x.2)) ∧
      Prunes n d (d.pruneBoundary n x) := by
  rw [Draft.pruneBoundary, Draft.pruneBoundary, Draft.onlyBoundaries, Draft.onlyBoundaries,
    onlyBoundariesWithin_eq h.trie hx (h.tame.short x.2) ((h.tame.short x.2).mono h.trie.le)]
  split
  · next hb =>
    have hp := prunes_removeChild hk hb
    have hremove := h.trie.removeChild hf hn (s := x.1)
    have hshort := h.tame.short.removeChild (n := n) (s := x.1)
    refine ⟨⟨?_, ⟨?_, fun hc => hp.size ▸ h.tame.child (hp.child hc)⟩, h.openers,
      h.opener, h.runs⟩, hp⟩
    · exact mirrors_unclaimWithin hremove hf hx (hshort x.2) ((hshort x.2).mono hremove.le)
    · exact hshort.congr (hp.size.trans (Trie.size_removeChild ..).symm)
        fun k => edges_unclaimWithin ..
  · exact ⟨h, .refl n d⟩

/-- Pruning is mirrored. -/
theorem pruneBoundaries (h : d.Mirrors f out e) (hf : Renames f) (hn : n ≠ .root) :
    (d.pruneBoundaries n).Mirrors f out (e.pruneBoundaries (f n)) := by
  rw [Draft.pruneBoundaries, Draft.pruneBoundaries, h.trie.edges hn]
  suffices hgo : ∀ (rest : Edges) (d' e' : Draft), d'.Mirrors f out e' → Prunes n d d' →
      (∀ x ∈ rest, x ∈ d.trie.edges n) →
      (rest.foldl (·.pruneBoundary n) d').Mirrors f out
        ((Edges.rename f rest).foldl (·.pruneBoundary (f n)) e') from
    hgo _ d e h (.refl n d) fun _ hx => hx
  intro rest
  induction rest with
  | nil => exact fun _ _ h' _ _ => h'
  | cons x rest ih =>
    intro d' e' h' hp hrest
    rw [List.forall_mem_cons] at hrest
    have hc := (h.trie.sorted n).find?_of_mem hrest.1
    obtain ⟨hstep, hp'⟩ := h'.pruneBoundary hf hn (h.trie.parent hc) fun m hm =>
      Option.some.inj ((hp.child hm).symm.trans hc)
    exact ih _ _ hstep (hp.trans hp') hrest.2

end Mirrors

end Draft

end TrieLexer
