import TrieLexer.Proofs.Bodies

/-!
# What claims tell

A node that is claimed for a role does what the role asks for, whatever has been built on the same
node before. A node that is not claimed, and that can be reached, does nothing but pass symbols on.
Both hold after every building step: a role is recorded together with its behaviour, a weak role
gives way before it is carried out, and where claims are dropped the nodes are cut off.

## Main definitions

* `Role.Describes` — what a node does that is claimed for a role.
* `Behaviour.Idle` — a node acts on nothing and decides nothing.
* `Trie.Truthful` — claims describe their nodes.
* `Assembly.Tells` — a building step keeps the claims truthful.

## Main results

* `Trie.Truthful.pruneBoundaries` — dropped claims are those of nodes that are cut off.
* `Assembly.Tells.bind`, `Assembly.tells_forM` — sequences and loops.
* `Assembly.tells_assign`, `Assembly.tells_replace` — a role is recorded and carried out.
-/

namespace TrieLexer

/-- What a node does that is claimed for a role; an opener leads to the body of a run. -/
def Role.Describes (bodies : NodeId → Prop) : Role → Behaviour → Prop
  | identifierPrefix, b | keyword _, b =>
    b.action = .none ∧ b.fallback = Lexicon.identifierFallback
  | weakBoundary label, b | boundary label, b => ∃ length, b.action = .boundary label length
  | delimiter label, b => b.action = .literal label
  | punctuation label, b => b.action = .none ∧ b.fallback = .release label
  | opener _, b => b.action = .none ∧ ∃ body, bodies body ∧ b.fallback = .reroute body
  | close label, b => ∃ c, b.action = .close c ∧ c.label = label
  | decimalPoint, b => b.action = .none ∧ b.fallback = .classify .digit .float .unknown

/-- There may be more bodies. -/
theorem Role.Describes.mono {bodies bodies' : NodeId → Prop} {role : Role} {b : Behaviour}
    (h : role.Describes bodies b) (hmono : ∀ n, bodies n → bodies' n) :
    role.Describes bodies' b := by
  cases role with
  | opener label =>
    obtain ⟨ha, body, hbody, hf⟩ := h
    exact ⟨ha, body, hmono body hbody, hf⟩
  | _ => exact h

/-- The end of an open-ended token is one whatever symbols without a child do there. -/
theorem Role.Describes.of_isBoundary {bodies : NodeId → Prop} {role : Role} {b b' : Behaviour}
    (h : role.Describes bodies b) (hr : role.isBoundary) (ha : b'.action = b.action) :
    role.Describes bodies b' := by
  cases role with
  | weakBoundary label | boundary label =>
    obtain ⟨length, haction⟩ := h
    exact ⟨length, ha.trans haction⟩
  | _ => cases hr

/-- The node acts on nothing, and keeps symbols without a child or sends them to another node. -/
def Behaviour.Idle (b : Behaviour) : Prop :=
  b.action = .none ∧ (b.fallback = .stay ∨ ∃ m, b.fallback = .reroute m)

namespace Trie

/-- A node that text begins at: the root, that of a category, or the body of a run. The node of
numbers with a point is left out, since it is below that of whole numbers. -/
def IsStart (bodies : NodeId → Prop) (n : NodeId) : Prop := n ≤ .number ∨ bodies n

/-- A node that can be reached where text begins. -/
def Reaches (bodies : NodeId → Prop) (t : Trie Site) (n : NodeId) : Prop :=
  ∃ b, IsStart bodies b ∧ t.Under b n

/-- Claimed nodes do what their roles say, and unclaimed ones that can be reached are idle, apart
from pending nodes. -/
structure Truthful (bodies pending : NodeId → Prop) (t : Trie Site) : Prop where
  lt {b : NodeId} (hb : IsStart bodies b) : b < t.size
  orphan {b : NodeId} (hb : IsStart bodies b) (n : NodeId) (s : Symbol) : t.child? n s ≠ some b
  claimed {n : NodeId} (hn : ¬pending n) {role : Role} (h : (t.content n).claim = some role) :
    role.Describes bodies (t.content n).behaviour
  idle {n : NodeId} (hn : ¬pending n) (hstart : n ≠ .identifier ∧ n ≠ .number)
    (hr : t.Reaches bodies n) (h : (t.content n).claim = none) : (t.content n).behaviour.Idle
  plain (n : NodeId) : (t.content n).behaviour.fallback ≠ .dispatch

variable {bodies pending : NodeId → Prop} {t t' : Trie Site} {n m k b : NodeId} {s : Symbol}
  {p q symbols : List Symbol}

/-! ### Changes of the arena -/

/-- Paths among old nodes are old. -/
theorem Extends.follow?_of_lt (he : t.Extends n p symbols t')
    (hk : k < t.size) (hq : t'.follow? b q = some k) : t.follow? b q = some k := by
  induction q using List.reverseRecOn generalizing k with
  | nil => exact hq
  | append_singleton q s ih =>
    rw [follow?_concat] at hq ⊢
    obtain ⟨m, hm, hmk⟩ := Option.bind_eq_some_iff.1 hq
    have hold := (he.child hmk).resolve_right (Nat.not_le_of_lt hk)
    have hlt : m < t.size := lt_size_of_child? hold
    exact Option.bind_eq_some_iff.2 ⟨m, ih hlt hm, hold⟩

/-- A literal is spelled. -/
theorem Truthful.extend (h : t.Truthful bodies pending) (he : t.Extends n p symbols t') :
    t'.Truthful bodies pending := by
  refine ⟨fun hb => Nat.lt_of_lt_of_le (h.lt hb) he.size, fun {b} hb k s hc => ?_,
    fun {k} hk role hrole => ?_, fun {k} hk hstart hr hnone => ?_, fun k => ?_⟩
  · rcases he.child hc with hold | hle
    · exact h.orphan hb k s hold
    · exact Nat.not_le_of_lt (h.lt hb) hle
  · rw [he.content] at hrole ⊢
    exact h.claimed hk hrole
  · rw [he.content] at hnone ⊢
    by_cases hlt : k < t.size
    · obtain ⟨b, hb, q, hq⟩ := hr
      exact h.idle hk hstart ⟨b, hb, q, he.follow?_of_lt hlt hq⟩ hnone
    · rw [content_of_size_le _ _ (Nat.le_of_not_lt hlt)]
      exact ⟨rfl, .inl rfl⟩
  · rw [he.content]
    exact h.plain k

/-- What stands where does not matter for reaching it. -/
theorem Reaches.congr (hchild : ∀ k s, t'.child? k s = t.child? k s) (h : t'.Reaches bodies n) :
    t.Reaches bodies n := by
  obtain ⟨b, hb, q, hq⟩ := h
  exact ⟨b, hb, q, (follow?_congr hchild b q).symm.trans hq⟩

/-- A node changes what it holds. -/
theorem Truthful.modifyContent (h : t.Truthful bodies pending) (hn : n < t.size) {f : Site → Site}
    {pending' : NodeId → Prop} (hp : ∀ k, k ≠ n → pending k → pending' k)
    (hclaimed : ¬pending' n → ∀ role, (f (t.content n)).claim = some role →
      role.Describes bodies (f (t.content n)).behaviour)
    (hidle : ¬pending' n → n ≠ .identifier ∧ n ≠ .number → t.Reaches bodies n →
      (f (t.content n)).claim = none → (f (t.content n)).behaviour.Idle)
    (hplain : (f (t.content n)).behaviour.fallback ≠ .dispatch) :
    (t.modifyContent n f).Truthful bodies pending' := by
  have hchild (k : NodeId) (s : Symbol) : (t.modifyContent n f).child? k s = t.child? k s :=
    child?_modifyContent ..
  have hcontent (k : NodeId) :
      (t.modifyContent n f).content k = if k = n then f (t.content n) else t.content k := by
    rw [content_modifyContent]
    by_cases hk : k = n
    · subst hk
      rw [if_pos ⟨rfl, hn⟩, if_pos rfl]
    · rw [if_neg fun heq => hk heq.1.symm, if_neg hk]
  refine ⟨fun hb => by simpa using h.lt hb, fun hb k s => by rw [hchild]; exact h.orphan hb k s,
    fun {k} hk role hrole => ?_, fun {k} hk hstart hr hnone => ?_, fun k => ?_⟩
  · rw [hcontent] at hrole ⊢
    split at hrole
    · next hkn => exact if_pos hkn ▸ hclaimed (hkn ▸ hk) role hrole
    · next hkn => exact if_neg hkn ▸ h.claimed (fun hpk => hk (hp k hkn hpk)) hrole
  · rw [hcontent] at hnone ⊢
    have hr := hr.congr hchild
    split at hnone
    · next hkn => exact if_pos hkn ▸ hidle (hkn ▸ hk) (hkn ▸ hstart) (hkn ▸ hr) hnone
    · next hkn => exact if_neg hkn ▸ h.idle (fun hpk => hk (hp k hkn hpk)) hstart hr hnone
  · rw [hcontent]
    split
    · exact hplain
    · exact h.plain k

/-! ### Pruning -/

/-- Of two nodes above a third one, one is above the other. -/
theorem Forest.under_or (h : t.Forest) (hb : t.Under b k) (hm : t.Under m k) :
    t.Under b m ∨ t.Under m b := by
  obtain ⟨p, hp⟩ := hb
  obtain ⟨q, hq⟩ := hm
  induction p using List.reverseRecOn generalizing k q with
  | nil =>
    cases hp
    exact .inr ⟨q, hq⟩
  | append_singleton p s ih =>
    rcases q.eq_nil_or_concat with rfl | ⟨q, u, rfl⟩
    · cases hq
      exact .inl ⟨p ++ [s], hp⟩
    · rw [List.concat_eq_append] at hq
      rw [follow?_concat] at hp hq
      obtain ⟨j, hj, hjk⟩ := Option.bind_eq_some_iff.1 hp
      obtain ⟨i, hi, hik⟩ := Option.bind_eq_some_iff.1 hq
      obtain ⟨rfl, rfl⟩ := h.parent hjk hik
      exact ih hj q hi

/-- A node below another one is that node, or some node leads to it. -/
theorem Under.eq_or (h : t.Under b n) :
    n = b ∨ ∃ k s, t.Under b k ∧ t.child? k s = some n := by
  obtain ⟨q, hq⟩ := h
  rcases q.eq_nil_or_concat with rfl | ⟨q, s, rfl⟩
  · exact .inl (Option.some.inj hq).symm
  · rw [List.concat_eq_append, follow?_concat] at hq
    obtain ⟨k, hk, hkn⟩ := Option.bind_eq_some_iff.1 hq
    exact .inr ⟨k, s, ⟨q, hk⟩, hkn⟩

theorem under_congr (hedges : ∀ k, t'.edges k = t.edges k) : t'.Under b n ↔ t.Under b n := by
  have hchild (k : NodeId) (s : Symbol) : t'.child? k s = t.child? k s := by
    rw [child?, hedges, child?]
  simp only [Under, follow?_congr hchild]

/-- Only the claims of what stands below a node are dropped with its own. -/
theorem claim_unclaimWithin {depth : Nat} (hs : ∀ n, (t.edges n).Sorted) (hk : ¬t.Under n k) :
    ((Draft.unclaimWithin depth t n).content k).claim = (t.content k).claim := by
  induction depth generalizing t n with
  | zero => rfl
  | succ depth ih =>
    have hmod (j : NodeId) :
        (t.modifyContent n fun site => { site with claim := none }).edges j = t.edges j :=
      edges_modifyContent ..
    have hstart : ((t.modifyContent n fun site => { site with claim := none }).content k).claim =
        (t.content k).claim := by
      rw [content_modifyContent, if_neg]
      rintro ⟨rfl, -⟩
      exact hk (t.under_self n)
    rw [Draft.unclaimWithin, hmod, ← hstart]
    suffices ∀ (edges : Edges) (t' : Trie Site), (∀ e ∈ edges, e ∈ t.edges n) →
        (∀ j, t'.edges j = t.edges j) →
        ((edges.foldl (fun t e => Draft.unclaimWithin depth t e.2) t').content k).claim =
          (t'.content k).claim from
      this _ _ (fun _ he => he) hmod
    intro edges
    induction edges with
    | nil => exact fun _ _ _ => rfl
    | cons e edges ihe =>
      intro t' hmem ht'
      have hunder : ¬t'.Under e.2 k := by
        rw [under_congr ht']
        rintro ⟨q, hq⟩
        refine hk ⟨e.1 :: q, ?_⟩
        rw [follow?_cons]
        exact Option.bind_eq_some_iff.2
          ⟨e.2, (hs n).find?_of_mem (hmem e List.mem_cons_self), hq⟩
      rw [List.foldl_cons, ihe _ (fun f hf => hmem f (List.mem_cons_of_mem _ hf))
        fun j => (Draft.edges_unclaimWithin ..).trans (ht' j)]
      exact ih (fun j => ht' j ▸ hs j) hunder

/-- Claims may be dropped where no start leads to any more. -/
theorem Truthful.prunes {d d' : Draft} (h : d.trie.Truthful bodies pending)
    (hP : Draft.Prunes n d d')
    (hcut : ∀ k, d'.trie.Reaches bodies k → d'.claim? k = d.claim? k) :
    d'.trie.Truthful bodies pending := by
  have hbehaviour (k : NodeId) : (d'.trie.content k).behaviour = (d.trie.content k).behaviour :=
    hP.behaviour k
  refine ⟨fun hb => hP.size ▸ h.lt hb, fun {b} hb j s hj => h.orphan hb j s (hP.child hj),
    fun {k} hk role hrole => ?_, fun {k} hk hstart hr hnone => ?_, fun k => ?_⟩
  · rw [hbehaviour]
    rcases hP.claim k with hsame | ⟨hnone, -⟩
    · exact h.claimed hk (hsame.symm.trans hrole)
    · cases hnone.symm.trans hrole
  · rw [hbehaviour]
    have hclaim := (hcut k hr).symm.trans hnone
    obtain ⟨b, hb, q, hq⟩ := hr
    exact h.idle hk hstart ⟨b, hb, q, follow?_mono (fun _ _ _ hj => hP.child hj) hq⟩ hclaim
  · rw [hbehaviour]
    exact h.plain k

/-- What stood below a child that has been removed can no longer be reached. -/
theorem Truthful.not_under_removeChild (h : t.Truthful bodies pending) (hf : t.Forest)
    (hc : t.child? n s = some m) (hr : (t.removeChild n s).Reaches bodies k) :
    ¬(t.removeChild n s).Under m k := by
  intro hmk
  obtain ⟨b, hb, hbk⟩ := hr
  have hchild {j i : NodeId} {u : Symbol} (hj : (t.removeChild n s).child? j u = some i) :
      t.child? j u = some i ∧ i ≠ m := by
    rw [child?_removeChild] at hj
    split at hj
    · cases hj
    · next hne => exact ⟨hj, fun him => hne (hf.parent (him ▸ hj) hc)⟩
  have hf' : (t.removeChild n s).Forest :=
    ⟨fun j => by
        rw [edges_removeChild]
        split
        · exact (hf.sorted j).erase s
        · exact hf.sorted j,
      fun hj => by simpa using hf.up (hchild hj).1,
      fun hj hj' => hf.parent (hchild hj).1 (hchild hj').1⟩
  have hne : b ≠ m := fun hbm => h.orphan hb n s (hbm ▸ hc)
  rcases hf'.under_or hbk hmk with hbm | hmb
  · rcases hbm.eq_or with hbm | ⟨j, u, -, hj⟩
    · exact hne hbm.symm
    · exact (hchild hj).2 rfl
  · rcases hmb.eq_or with hbm | ⟨j, u, -, hj⟩
    · exact hne hbm
    · exact h.orphan hb j u (hchild hj).1

/-- A path that only ends open-ended tokens is cut off, and the claims on it are dropped. -/
theorem Truthful.pruneBoundary {d : Draft} (h : d.trie.Truthful bodies pending)
    (hf : d.trie.Forest) {e : Symbol × NodeId} (hc : d.trie.child? n e.1 = some e.2) :
    (d.pruneBoundary n e).trie.Truthful bodies pending := by
  rw [Draft.pruneBoundary]
  split
  · next ho =>
    have hP := Draft.prunes_removeChild (fun m hm => Option.some.inj (hm.symm.trans hc)) ho
    have hedges (j : NodeId) :
        (({ d with trie := d.trie.removeChild n e.1 } : Draft).unclaim e.2).trie.edges j =
          (d.trie.removeChild n e.1).edges j :=
      Draft.edges_unclaimWithin ..
    refine h.prunes hP fun k hr => ?_
    have hr' : (d.trie.removeChild n e.1).Reaches bodies k :=
      hr.congr fun j s => by rw [child?, child?, hedges]
    refine (claim_unclaimWithin (fun j => ?_) (h.not_under_removeChild hf hc hr')).trans
      (congrArg Site.claim (content_removeChild ..))
    exact hedges j ▸ (hP.forest hf).sorted j
  · exact h

theorem prunes_pruneBoundary {d : Draft} {e : Symbol × NodeId}
    (hc : d.trie.child? n e.1 = some e.2) : Draft.Prunes n d (d.pruneBoundary n e) := by
  rw [Draft.pruneBoundary]
  split
  · next ho => exact Draft.prunes_removeChild (fun m hm => Option.some.inj (hm.symm.trans hc)) ho
  · exact .refl n d

/-- The other children are kept. -/
theorem child?_pruneBoundary (d : Draft) {e : Symbol × NodeId} (hs : s ≠ e.1) :
    (d.pruneBoundary n e).trie.child? n s = d.trie.child? n s := by
  rw [Draft.pruneBoundary]
  split
  · rw [child?, Draft.unclaim, Draft.edges_unclaimWithin, ← child?, child?_removeChild,
      if_neg fun heq => hs heq.2]
  · rfl

/-- So are all paths below a node that only end open-ended tokens. -/
theorem Truthful.pruneBoundaries {d : Draft} (h : d.trie.Truthful bodies pending)
    (hf : d.trie.Forest) : (d.pruneBoundaries n).trie.Truthful bodies pending := by
  suffices ∀ (edges : Edges) (d' : Draft), edges.Sorted →
      (∀ e ∈ edges, d'.trie.child? n e.1 = some e.2) → d'.trie.Forest →
      d'.trie.Truthful bodies pending →
      (edges.foldl (·.pruneBoundary n) d').trie.Truthful bodies pending from
    this _ d (hf.sorted n) (fun e he => (hf.sorted n).find?_of_mem he) hf h
  intro edges
  induction edges with
  | nil => exact fun _ _ _ _ h => h
  | cons e edges ih =>
    intro d' hs hmem hf' h'
    obtain ⟨hfirst, hs⟩ := List.pairwise_cons.1 hs
    have hc := hmem e List.mem_cons_self
    refine ih _ hs (fun f hfm => ?_) ((prunes_pruneBoundary hc).forest hf')
      (h'.pruneBoundary hf' hc)
    rw [child?_pruneBoundary]
    · exact hmem f (List.mem_cons_of_mem _ hfm)
    · intro heq
      have hbefore := hfirst f hfm
      rw [heq, Symbol.before_irrefl] at hbefore
      cases hbefore

end Trie

/-! ### Building steps -/

/-- Nothing is claimed at the node but the end of an identifier in the making. -/
def Draft.Soft (d : Draft) (n : NodeId) : Prop :=
  ∀ role, d.claim? n = some role → ∃ label, role = .weakBoundary label

/-- A building step keeps claims truthful, and the nodes that it does not touch stay soft. -/
structure Assembly.Tells {α : Type} (bodies touched : NodeId → Prop) (d : Draft) (x : Assembly α) :
    Prop where
  tells {d' : Draft} {a : α} (hf : d.trie.Forest)
    (h : d.trie.Truthful bodies fun _ => False) (hy : x.Yields d a d') :
    (d'.trie.Truthful bodies fun _ => False) ∧ ∀ k, ¬touched k → d.Soft k → d'.Soft k

namespace Draft

variable {bodies : NodeId → Prop} {d d₁ d₂ : Draft} {n k : NodeId} {policy : ConflictPolicy}
  {literal : String} {role : Role} {f : Behaviour → Behaviour}

/-- A claim is recorded; the node has not got its behaviour yet. -/
theorem truthful_claim (hn : n < d.trie.size)
    (h : d.trie.Truthful bodies fun _ => False)
    (hy : (Assembly.claim policy n literal role).Yields d true d₁) :
    d₁.trie.Truthful bodies (· = n) := by
  rcases hy.claim with ⟨-, ⟨ws, rfl⟩, -⟩ | ⟨⟨⟩, -⟩
  exact h.modifyContent hn (f := fun site => { site with claim := some role })
    (fun _ _ => False.elim) (fun hne => absurd rfl hne) (fun hne => absurd rfl hne) (h.plain n)

/-- A claimed node gets the behaviour of its role. -/
theorem truthful_behave (hn : n < d.trie.size) (h : d.trie.Truthful bodies (· = n))
    (hclaim : d.claim? n = some role) (hdescribes : ∀ b, role.Describes bodies (f b))
    (hplain : ∀ b, b.fallback ≠ .dispatch → (f b).fallback ≠ .dispatch) :
    (d.modifyBehaviour n f).trie.Truthful bodies fun _ => False := by
  refine h.modifyContent hn (f := fun site => { site with behaviour := f site.behaviour })
    (fun k hk hk' => absurd hk' hk) (fun _ role' hrole' => ?_) (fun _ _ _ hnone => ?_)
    (hplain _ (h.plain n))
  · cases hclaim.symm.trans hrole'
    exact hdescribes _
  · cases hclaim.symm.trans hnone

/-- A role is recorded and carried out. -/
theorem truthful_assign (hn : n < d.trie.size) (h : d.trie.Truthful bodies fun _ => False)
    (hy : (Assembly.claim policy n literal role).Yields d true d₁)
    (hdescribes : ∀ b, role.Describes bodies (f b))
    (hplain : ∀ b, b.fallback ≠ .dispatch → (f b).fallback ≠ .dispatch) :
    (d₁.modifyBehaviour n f).trie.Truthful bodies fun _ => False := by
  have h₁ := truthful_claim hn h hy
  have hclaimed := claim?_of_yields hy hn
  rcases hy.claim with ⟨-, ⟨ws, rfl⟩, -⟩ | ⟨⟨⟩, -⟩
  exact truthful_behave (by simpa using hn) h₁ hclaimed hdescribes hplain

/-- A role is recorded and carried out, and the node loses the ends of what it was before. -/
theorem truthful_replace (hf : d.trie.Forest) (hn : n < d.trie.size)
    (h : d.trie.Truthful bodies fun _ => False)
    (hy : (Assembly.claim policy n literal role).Yields d true d₁)
    (hrole : role.isBoundary = false) (hdescribes : ∀ b, role.Describes bodies (f b))
    (hplain : ∀ b, b.fallback ≠ .dispatch → (f b).fallback ≠ .dispatch) :
    ((d₁.pruneBoundaries n).modifyBehaviour n f).trie.Truthful bodies fun _ => False := by
  have hplants := ((Assembly.plants_claim policy role).plants hf hy).1
  have hprunes := prunes_pruneBoundaries (n := n) (hplants.forest.sorted n)
  exact truthful_behave (hprunes.size ▸ Nat.lt_of_lt_of_le hn hplants.size)
    ((truthful_claim hn h hy).pruneBoundaries hplants.forest)
    (hprunes.claim_of_isBoundary (claim?_of_yields hy hn) hrole) hdescribes hplain

/-- A soft node may send symbols without a child elsewhere. -/
theorem truthful_reroute (hn : n < d.trie.size) (h : d.trie.Truthful bodies fun _ => False)
    (hsoft : d.Soft n) (target : NodeId) :
    (d.modifyBehaviour n fun b => { b with fallback := .reroute target }).trie.Truthful bodies
      fun _ => False := by
  refine h.modifyContent hn (f := fun site =>
    { site with behaviour := { site.behaviour with fallback := .reroute target } })
    (fun _ _ => id) (fun _ role hrole => ?_) (fun _ hstart hr hnone => ?_) (by simp)
  · obtain ⟨label, rfl⟩ := hsoft role hrole
    exact (h.claimed id hrole).of_isBoundary rfl rfl
  · exact ⟨(h.idle id hstart hr hnone).1, .inr ⟨target, rfl⟩⟩

/-! ### What stays soft -/

theorem Soft.of_claim? (h : d.Soft k) (hc : d₁.claim? k = d.claim? k) : d₁.Soft k :=
  fun role hrole => h role (hc.symm.trans hrole)

theorem soft_modifyBehaviour : (d.modifyBehaviour n f).Soft k ↔ d.Soft k := by
  rw [Soft, claim?_modifyBehaviour, Soft]

/-- A claim on another node does not matter, and neither does the end of an identifier in the
making. -/
theorem Soft.claim (h : d.Soft k) {ok : Bool}
    (hy : (Assembly.claim policy n literal role).Yields d ok d₁)
    (hk : k ≠ n ∨ ∃ label, role = .weakBoundary label) : d₁.Soft k := by
  rcases hy.claim with ⟨-, ⟨ws, rfl⟩, -⟩ | ⟨-, rfl, -⟩
  · intro r hr
    change (d.recordClaim n role).claim? k = some r at hr
    by_cases hlt : n < d.trie.size
    · rw [claim?_recordClaim hlt] at hr
      split at hr
      · next hkn =>
        cases hr
        exact hk.resolve_left fun hne => hne hkn.symm
      · exact h r hr
    · rw [claim?, site, recordClaim, Trie.content_modifyContent, if_neg fun heq => hlt heq.2] at hr
      exact h r hr
  · exact h

theorem Soft.prunes (h : d.Soft k) (hP : Prunes n d d₁) : d₁.Soft k := by
  rcases hP.claim k with hsame | ⟨hnone, -⟩
  · exact h.of_claim? hsame
  · intro role hrole
    cases hnone.symm.trans hrole

end Draft

namespace Assembly

open Draft (truthful_assign truthful_replace)

variable {α β : Type} {bodies touched : NodeId → Prop} {d : Draft} {x : Assembly α}
  {f : α → Assembly β} {P : Trie Site → α → Prop} {n : NodeId} {policy : ConflictPolicy}
  {literal : String} {role : Role} {b : Behaviour → Behaviour}

/-- More nodes may count as touched. -/
theorem Tells.mono (h : Tells bodies touched d x) {touched' : NodeId → Prop}
    (ht : ∀ k, touched k → touched' k) : Tells bodies touched' d x := by
  refine ⟨fun hf htrue hy => ?_⟩
  obtain ⟨htrue, hsoft⟩ := h.tells hf htrue hy
  exact ⟨htrue, fun k hk => hsoft k fun hk' => hk (ht k hk')⟩

theorem Tells.bind (hx : Tells bodies touched d x) (hP : Plants d x P)
    (hf : ∀ a (d₁ : Draft), d.trie.size ≤ d₁.trie.size → P d₁.trie a →
      Tells bodies touched d₁ (f a)) : Tells bodies touched d (x >>= f) := by
  refine ⟨fun hforest h hy => ?_⟩
  obtain ⟨a, d₁, hxa, hfa⟩ := yields_bind.1 hy
  obtain ⟨h₁, hsoft₁⟩ := hx.tells hforest h hxa
  obtain ⟨hplants, ha⟩ := hP.plants hforest hxa
  obtain ⟨h', hsoft'⟩ := (hf a d₁ hplants.size ha).tells hplants.forest h₁ hfa
  exact ⟨h', fun k hk hs => hsoft' k hk (hsoft₁ k hk hs)⟩

theorem tells_pure (a : α) : Tells bodies touched d (pure a) := by
  refine ⟨fun _ h hy => ?_⟩
  obtain ⟨-, rfl⟩ := yields_pure.1 hy
  exact ⟨h, fun _ _ => id⟩

theorem tells_get : Tells bodies touched d (get : Assembly Draft) := by
  refine ⟨fun _ h hy => ?_⟩
  obtain ⟨-, rfl⟩ := yields_get.1 hy
  exact ⟨h, fun _ _ => id⟩

theorem tells_ite {c : Prop} [Decidable c] {x y : Assembly α} (hx : Tells bodies touched d x)
    (hy : Tells bodies touched d y) : Tells bodies touched d (if c then x else y) := by
  split
  · exact hx
  · exact hy

/-- A loop keeps what each round keeps. -/
theorem tells_forM {γ : Type} {g : γ → Assembly PUnit} {xs : List γ}
    (hplants : ∀ x ∈ xs, ∀ d₁ : Draft, d.trie.size ≤ d₁.trie.size →
      Plants d₁ (g x) fun _ _ => True)
    (hg : ∀ x ∈ xs, ∀ d₁ : Draft, d.trie.size ≤ d₁.trie.size → Tells bodies touched d₁ (g x)) :
    Tells bodies touched d (xs.forM g) := by
  induction xs generalizing d with
  | nil => exact tells_pure (α := PUnit) ⟨⟩
  | cons x xs ih =>
    rw [List.forall_mem_cons] at hplants hg
    exact (hg.1 d (Nat.le_refl _)).bind (hplants.1 d (Nat.le_refl _)) fun _ d₁ hsize _ =>
      ih (fun y hy d₂ hsize' => hplants.2 y hy d₂ (Nat.le_trans hsize hsize'))
        fun y hy d₂ hsize' => hg.2 y hy d₂ (Nat.le_trans hsize hsize')

/-- A node is taken for a role, and if it is, the role is carried out. -/
theorem tells_claim {g : Assembly PUnit}
    (hg : ∀ {d₁ d' : Draft}, d.trie.Forest → d.trie.Truthful bodies (fun _ => False) →
      (claim policy n literal role).Yields d true d₁ → g.Yields d₁ ⟨⟩ d' →
      d'.trie.Truthful bodies (fun _ => False) ∧ ∀ k, ¬touched k → d.Soft k → d'.Soft k) :
    Tells bodies touched d (claim policy n literal role >>= fun ok =>
      if ok then g else pure ⟨⟩) := by
  refine ⟨fun hf h hy => ?_⟩
  obtain ⟨ok, d₁, hclaim, hy⟩ := yields_bind.1 hy
  cases ok with
  | true => exact hg hf h hclaim hy
  | false =>
    obtain ⟨-, rfl⟩ := yields_pure.1 hy
    rcases hclaim.claim with ⟨⟨⟩, -⟩ | ⟨-, rfl, -⟩
    exact ⟨h, fun _ _ => id⟩

/-- The node gets the behaviour of its role. -/
theorem tells_assign (hn : n < d.trie.size) (hdescribes : ∀ c, role.Describes bodies (b c))
    (hplain : ∀ c, c.fallback ≠ .dispatch → (b c).fallback ≠ .dispatch)
    (ht : touched n ∨ ∃ label, role = .weakBoundary label) :
    Tells bodies touched d (claim policy n literal role >>= fun ok =>
      if ok then modifyBehaviour n b else pure ⟨⟩) :=
  tells_claim fun _ h hclaim hy => by
    obtain rfl := yields_modify.1 hy
    exact ⟨truthful_assign hn h hclaim hdescribes hplain, fun k hk hs =>
      Draft.soft_modifyBehaviour.2 (hs.claim hclaim (ht.imp_left fun hn' hkn => hk (hkn ▸ hn')))⟩

/-- The node gets the behaviour of its role, and more is built. -/
theorem tells_assign_then (hn : n < d.trie.size) (hdescribes : ∀ c, role.Describes bodies (b c))
    (hplain : ∀ c, c.fallback ≠ .dispatch → (b c).fallback ≠ .dispatch)
    (hrun : ∀ c, (b c).run = c.run)
    (ht : touched n ∨ ∃ label, role = .weakBoundary label) {rest : Assembly PUnit}
    (hrest : ∀ d₁ : Draft, d.trie.size ≤ d₁.trie.size → Tells bodies touched d₁ rest) :
    Tells bodies touched d (claim policy n literal role >>= fun ok =>
      if ok then (do modifyBehaviour n b; rest) else pure ⟨⟩) :=
  tells_claim fun hf h hclaim hy => by
    obtain ⟨⟨⟩, d₂, hmod, hy⟩ := yields_bind.1 hy
    obtain rfl := yields_modify.1 hmod
    have hplants := ((plants_claim policy role).plants hf hclaim).1
    have hplants := hplants.trans (Draft.plants_modifyBehaviour (n := n) hplants.forest hrun)
    obtain ⟨h', hsoft⟩ := (hrest _ hplants.size).tells hplants.forest
      (truthful_assign hn h hclaim hdescribes hplain) hy
    exact ⟨h', fun k hk hs => hsoft k hk (Draft.soft_modifyBehaviour.2
      (hs.claim hclaim (ht.imp_left fun hn' hkn => hk (hkn ▸ hn'))))⟩

/-- The node loses the ends of what it was before, and gets the behaviour of its role. -/
theorem tells_replace (hn : n < d.trie.size) (hrole : role.isBoundary = false)
    (hdescribes : ∀ c, role.Describes bodies (b c))
    (hplain : ∀ c, c.fallback ≠ .dispatch → (b c).fallback ≠ .dispatch) (ht : touched n) :
    Tells bodies touched d (claim policy n literal role >>= fun ok =>
      if ok then (do pruneBoundaries n; modifyBehaviour n b) else pure ⟨⟩) :=
  tells_claim fun hf h hclaim hy => by
    obtain ⟨⟨⟩, d₂, hprune, hy⟩ := yields_bind.1 hy
    obtain rfl := yields_modify.1 hprune
    obtain rfl := yields_modify.1 hy
    have hplants := ((plants_claim policy role).plants hf hclaim).1
    exact ⟨truthful_replace hf hn h hclaim hrole hdescribes hplain, fun k hk hs =>
      Draft.soft_modifyBehaviour.2 ((hs.claim hclaim (.inl fun hkn => hk (hkn ▸ ht))).prunes
        (Draft.prunes_pruneBoundaries (hplants.forest.sorted n)))⟩

end Assembly

end TrieLexer
