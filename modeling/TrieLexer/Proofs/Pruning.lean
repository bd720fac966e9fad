import TrieLexer.Automaton.Assembly
import TrieLexer.Proofs.Arena

/-!
# Pruning drafts

A node that becomes an opener or punctuation loses the paths below it that only ended open-ended
tokens. Nothing else is lost: the nodes keep their behaviours, the paths to every other claimed
node are kept, and only claims of such ends are dropped.

## Main definitions

* `Draft.Unclaims` — some ends of open-ended tokens lose their claims.
* `Draft.Prunes` — some paths that only end open-ended tokens are gone.

## Main results

* `Draft.prunes_pruneBoundaries` — what pruning does.
-/

namespace TrieLexer

namespace Draft

/-- Some ends of open-ended tokens lose their claims. -/
structure Unclaims (t t' : Trie Site) : Prop where
  size : t'.size = t.size
  edges (n : NodeId) : t'.edges n = t.edges n
  behaviour (n : NodeId) : (t'.content n).behaviour = (t.content n).behaviour
  claim (n : NodeId) : (t'.content n).claim = (t.content n).claim ∨
    (t'.content n).claim = none ∧ ∃ role, (t.content n).claim = some role ∧ role.isBoundary

/-- A later draft without some paths below a node that only ended open-ended tokens. -/
structure Prunes (n : NodeId) (d d' : Draft) : Prop where
  size : d'.trie.size = d.trie.size
  runs : d'.runs = d.runs
  openers : d'.openers = d.openers
  sorted {k : NodeId} (h : (d.trie.edges k).Sorted) : (d'.trie.edges k).Sorted
  edges {k : NodeId} (hk : k ≠ n) : d'.trie.edges k = d.trie.edges k
  child {k m : NodeId} {s : Symbol} (h : d'.trie.child? k s = some m) :
    d.trie.child? k s = some m
  behaviour (k : NodeId) : (d'.site k).behaviour = (d.site k).behaviour
  claim (k : NodeId) : d'.claim? k = d.claim? k ∨
    d'.claim? k = none ∧ ∃ role, d.claim? k = some role ∧ role.isBoundary
  follow {path : List Symbol} {k : NodeId} {role : Role}
    (h : d.trie.follow? .root path = some k) (hc : d.claim? k = some role)
    (hr : role.isBoundary = false) : d'.trie.follow? .root path = some k

variable {d d' d'' : Draft} {t t' t'' : Trie Site} {n k : NodeId} {depth : Nat}

/-! ### Dropping claims -/

theorem Unclaims.trans (h : Unclaims t t') (h' : Unclaims t' t'') : Unclaims t t'' := by
  refine ⟨h'.size.trans h.size, fun n => (h'.edges n).trans (h.edges n),
    fun n => (h'.behaviour n).trans (h.behaviour n), fun n => ?_⟩
  rcases h'.claim n with hsame | ⟨hnone, role, hrole, hb⟩
  · exact (h.claim n).imp hsame.trans fun hn => ⟨hsame.trans hn.1, hn.2⟩
  · rcases h.claim n with hsame | ⟨hnone', -⟩
    · exact .inr ⟨hnone, role, hsame.symm.trans hrole, hb⟩
    · cases hnone'.symm.trans hrole

/-- A smaller draft with fewer claims has nothing but ends of open-ended tokens where a larger one
has nothing else. -/
theorem onlyBoundariesWithin_mono
    (hedges : ∀ k e, e ∈ d'.trie.edges k → e ∈ d.trie.edges k)
    (hclaim : ∀ k role, d'.claim? k = some role → d.claim? k = some role)
    (h : d.onlyBoundariesWithin depth n) : d'.onlyBoundariesWithin depth n := by
  induction depth generalizing n with
  | zero => cases h
  | succ depth ih =>
    simp only [onlyBoundariesWithin, Bool.and_eq_true, Option.all_eq_true, List.all_eq_true] at h ⊢
    exact ⟨fun role hr => h.1 role (hclaim n role hr), fun e he => ih (h.2 e (hedges n e he))⟩

/-- Below such a node only ends of open-ended tokens are claimed. -/
theorem isBoundary_of_follow? (h : d.onlyBoundariesWithin depth n) {path : List Symbol}
    {role : Role} (hp : d.trie.follow? n path = some k) (hc : d.claim? k = some role) :
    role.isBoundary := by
  induction path generalizing n depth with
  | nil =>
    cases hp
    cases depth with
    | zero => cases h
    | succ depth =>
      simp only [onlyBoundariesWithin, Bool.and_eq_true, Option.all_eq_true] at h
      exact h.1 role hc
  | cons s path ih =>
    rw [Trie.follow?_cons] at hp
    obtain ⟨m, hm, hp⟩ := Option.bind_eq_some_iff.1 hp
    cases depth with
    | zero => cases h
    | succ depth =>
      simp only [onlyBoundariesWithin, Bool.and_eq_true, List.all_eq_true] at h
      exact ih (h.2 _ (Edges.mem_of_find? hm)) hp

theorem unclaims_modifyContent
    (h : ∀ role, (t.content n).claim = some role → role.isBoundary) :
    Unclaims t (t.modifyContent n fun site => { site with claim := none }) := by
  refine ⟨Trie.size_modifyContent .., fun k => Trie.edges_modifyContent .., fun k => ?_,
    fun k => ?_⟩
  · rw [Trie.content_modifyContent]
    split <;> rfl
  · rw [Trie.content_modifyContent]
    split
    · next hk =>
      rw [← hk.1]
      cases hc : (t.content n).claim with
      | none => exact .inl rfl
      | some role => exact .inr ⟨rfl, role, rfl, h role hc⟩
    · exact .inl rfl

/-- The claims on a node and below it may be dropped where they are those of ends of open-ended
tokens. -/
theorem unclaims_unclaimWithin (h : d.onlyBoundariesWithin depth n) :
    Unclaims d.trie (unclaimWithin depth d.trie n) := by
  induction depth generalizing d n with
  | zero => cases h
  | succ depth ih =>
    have hmono {t : Trie Site} (ht : Unclaims d.trie t) {m : NodeId}
        (hm : d.onlyBoundariesWithin depth m) :
        ({ d with trie := t } : Draft).onlyBoundariesWithin depth m := by
      refine onlyBoundariesWithin_mono (fun k e he => ht.edges k ▸ he) (fun k role hr => ?_) hm
      exact (ht.claim k).elim (fun hsame => hsame.symm.trans hr) fun hn => by
        cases hn.1.symm.trans hr
    simp only [onlyBoundariesWithin, Bool.and_eq_true, Option.all_eq_true, List.all_eq_true] at h
    suffices ∀ (edges : Edges) (t : Trie Site), Unclaims d.trie t →
        (∀ e ∈ edges, d.onlyBoundariesWithin depth e.2) →
        Unclaims d.trie (edges.foldl (fun t e => unclaimWithin depth t e.2) t) from
      this _ _ (unclaims_modifyContent h.1) fun e he => h.2 e (by simpa using he)
    intro edges
    induction edges with
    | nil => exact fun t ht _ => ht
    | cons e edges ihe =>
      intro t ht hedges
      rw [List.foldl_cons]
      have hstep := ih (d := { d with trie := t }) (hmono ht (hedges e List.mem_cons_self))
      exact ihe _ (ht.trans hstep) fun f hf => hedges f (List.mem_cons_of_mem _ hf)

/-! ### Removing paths -/

theorem Prunes.refl (n : NodeId) (d : Draft) : Prunes n d d :=
  ⟨rfl, rfl, rfl, id, fun _ => rfl, id, fun _ => rfl, fun _ => .inl rfl, fun h _ _ => h⟩

/-- Claims other than those of ends of open-ended tokens are kept. -/
theorem Prunes.claim_of_isBoundary (h : Prunes n d d') {role : Role} (hc : d.claim? k = some role)
    (hr : role.isBoundary = false) : d'.claim? k = some role := by
  rcases h.claim k with hsame | ⟨-, role', hc', hb⟩
  · exact hsame.trans hc
  · cases hc.symm.trans hc'
    cases hr.symm.trans hb

theorem Prunes.trans (h : Prunes n d d') (h' : Prunes n d' d'') : Prunes n d d'' := by
  refine ⟨h'.size.trans h.size, h'.runs.trans h.runs, h'.openers.trans h.openers,
    fun hs => h'.sorted (h.sorted hs), fun hk => (h'.edges hk).trans (h.edges hk),
    fun hc => h.child (h'.child hc), fun k => (h'.behaviour k).trans (h.behaviour k),
    fun k => ?_, fun hp hc hr => ?_⟩
  · rcases h'.claim k with hsame | ⟨hnone, role, hrole, hb⟩
    · exact (h.claim k).imp hsame.trans fun hn => ⟨hsame.trans hn.1, hn.2⟩
    · rcases h.claim k with hsame | ⟨hnone', -⟩
      · exact .inr ⟨hnone, role, hsame.symm.trans hrole, hb⟩
      · cases hnone'.symm.trans hrole
  · exact h'.follow (h.follow hp hc hr) (h.claim_of_isBoundary hc hr) hr

/-- A path either misses an edge or leads through it. -/
theorem follow?_removeChild {s : Symbol} {m k : NodeId} {path : List Symbol}
    (h : t.follow? m path = some k) :
    (t.removeChild n s).follow? m path = some k ∨
      ∃ child rest, t.child? n s = some child ∧ t.follow? child rest = some k := by
  induction path generalizing m with
  | nil => exact .inl h
  | cons u path ih =>
    rw [Trie.follow?_cons] at h ⊢
    obtain ⟨j, hj, h⟩ := Option.bind_eq_some_iff.1 h
    rw [Trie.child?_removeChild]
    split
    · next hmu =>
      rw [hmu.1, hmu.2] at hj
      exact .inr ⟨j, path, hj, h⟩
    · exact (ih h).imp_left fun h => Option.bind_eq_some_iff.2 ⟨j, hj, h⟩

/-- A path that only ends open-ended tokens is removed. -/
theorem prunes_removeChild {s : Symbol} (hk : ∀ m, d.trie.child? n s = some m → m = k)
    (h : d.onlyBoundaries k) :
    Prunes n d (({ d with trie := d.trie.removeChild n s } : Draft).unclaim k) := by
  let d₁ : Draft := { d with trie := d.trie.removeChild n s }
  have hclaim (j : NodeId) : d₁.claim? j = d.claim? j := by simp [d₁, claim?, site]
  have hsize : d₁.trie.size = d.trie.size := by simp [d₁]
  have hu : Unclaims d₁.trie (d₁.unclaim k).trie := by
    refine unclaims_unclaimWithin ?_
    rw [hsize]
    refine onlyBoundariesWithin_mono (fun j e he => ?_) (fun j role hr => ?_) h
    · rw [Trie.edges_removeChild] at he
      split at he
      · exact (List.mem_filter.1 he).1
      · exact he
    · exact (hclaim j).symm.trans hr
  have hchild (j : NodeId) (u : Symbol) :
      (d₁.unclaim k).trie.child? j u = if j = n ∧ u = s then none else d.trie.child? j u := by
    rw [Trie.child?, hu.edges]
    exact Trie.child?_removeChild ..
  refine ⟨hu.size.trans hsize, rfl, rfl, fun {j} hs => ?sorted, fun {j} hj => ?edges,
    fun {j m u} hc => ?child,
    fun j => ?behaviour, fun j => ?claim, fun {path j role} hp hc hr => ?follow⟩
  case sorted =>
    rw [hu.edges, Trie.edges_removeChild]
    split
    · exact hs.erase s
    · exact hs
  case edges => rw [hu.edges, Trie.edges_removeChild, if_neg (Ne.symm hj)]
  case child =>
    rw [hchild] at hc
    split at hc
    · cases hc
    · exact hc
  case behaviour =>
    exact (hu.behaviour j).trans (congrArg Site.behaviour (Trie.content_removeChild ..))
  case claim => exact hclaim j ▸ hu.claim j
  case follow =>
    rcases follow?_removeChild hp with hkept | ⟨child, rest, hchild', hrest⟩
    · refine (Trie.follow?_congr (fun j u => ?_) _ _).trans hkept
      rw [Trie.child?, hu.edges, Trie.child?]
    · rw [hk child hchild'] at hrest
      cases hr.symm.trans (isBoundary_of_follow? h hrest hc)

/-- What pruning does. -/
theorem prunes_pruneBoundaries (hs : (d.trie.edges n).Sorted) :
    Prunes n d (d.pruneBoundaries n) := by
  suffices ∀ (edges : Edges) (d' : Draft), (∀ e ∈ edges, e ∈ d.trie.edges n) → Prunes n d d' →
      Prunes n d (edges.foldl (·.pruneBoundary n) d') from
    this _ d (fun _ he => he) (.refl n d)
  intro edges
  induction edges with
  | nil => exact fun _ _ h => h
  | cons e edges ih =>
    intro d' hmem h
    refine ih _ (fun f hf => hmem f (List.mem_cons_of_mem _ hf)) ?_
    dsimp only [pruneBoundary]
    split
    · next ho =>
      refine h.trans (prunes_removeChild (fun m hm => ?_) ho)
      have := (hs.find?_of_mem (hmem e List.mem_cons_self)).symm.trans (h.child hm)
      exact (Option.some.inj this).symm
    · exact h

end Draft

end TrieLexer
