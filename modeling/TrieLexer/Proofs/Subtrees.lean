import Mathlib.Data.List.Induction
import TrieLexer.Proofs.Construction

/-!
# What stands below a node

While no node has got a second parent, the nodes of a draft form a forest, and a path from a node is
known by its end. What stands below a node is then a map from paths to what their ends do, and each
building step overwrites it at the paths of its literals and nowhere else.

## Main definitions

* `Trie.Forest` — every node has one parent at most, which is older.
* `Face`, `Draft.below` — what a node does, and what the end of a path does.
* `Along` — the paths that lead along symbols from a place.
* `Draft.Overwrites` — the ends of tokens are spelled below a place.
* `Draft.Lays` — a literal is spelled below a place.
* `Lexicon.ending` — what ends a token below a place.

## Main results

* `Trie.Forest.extend` — spelling a literal only adds what is missing.
* `Draft.overwrites_endBefore`, `Draft.overwrites_forM` — the ends of tokens.
* `Draft.Overwrites.below_eq` — afterwards nothing but the ends of tokens stands there.
-/

namespace TrieLexer

open Text (byteLength)

/-! ### Forests -/

/-- A path leads along symbols from a place, and beyond the place. -/
def Along (p symbols q : List Symbol) : Prop := ∃ r, r ≠ [] ∧ r <+: symbols ∧ q = p ++ r

theorem Along.of_tail {p symbols q : List Symbol} {s : Symbol} (h : Along (p ++ [s]) symbols q) :
    Along p (s :: symbols) q := by
  obtain ⟨r, -, hr, rfl⟩ := h
  exact ⟨s :: r, List.cons_ne_nil _ _, List.cons_prefix_cons.2 ⟨rfl, hr⟩, by simp⟩

theorem along_head (p symbols : List Symbol) (s : Symbol) : Along p (s :: symbols) (p ++ [s]) :=
  ⟨[s], List.cons_ne_nil _ _, List.cons_prefix_cons.2 ⟨rfl, List.nil_prefix⟩, rfl⟩

theorem not_along_self (p symbols : List Symbol) : ¬Along p symbols p := by
  rintro ⟨r, hne, -, hr⟩
  exact hne (List.append_cancel_left (hr.symm.trans (List.append_nil p).symm))

/-- The first symbol leads to the first place, the others beyond it. -/
theorem along_cons {p symbols q : List Symbol} {s : Symbol} (h : Along p (s :: symbols) q) :
    q = p ++ [s] ∨ Along (p ++ [s]) symbols q := by
  obtain ⟨r, hne, hr, rfl⟩ := h
  obtain ⟨u, r, rfl⟩ := List.exists_cons_of_ne_nil hne
  obtain ⟨rfl, hrest⟩ := List.cons_prefix_cons.1 hr
  by_cases hnil : r = []
  · exact .inl (by rw [hnil])
  · exact .inr ⟨r, hnil, hrest, by simp⟩

namespace Trie

variable {t t₁ t' : Trie Site} {n m k b : NodeId} {s u : Symbol} {p q symbols : List Symbol}
  {steps : List Step}

theorem follow?_concat {α : Type} (t : Trie α) (n : NodeId) (path : List Symbol) (s : Symbol) :
    t.follow? n (path ++ [s]) = t.follow? n path >>= fun m => t.child? m s := by
  rw [follow?_append]
  refine congrArg _ (funext fun m => ?_)
  rw [follow?_cons]
  exact bind_pure _

/-- Every node has one parent at most, which was there before it. -/
structure Forest (t : Trie Site) : Prop where
  sorted (n : NodeId) : (t.edges n).Sorted
  up {n m : NodeId} {s : Symbol} (h : t.child? n s = some m) : n < m ∧ m < t.size
  parent {n k m : NodeId} {s u : Symbol} (h : t.child? n s = some m) (h' : t.child? k u = some m) :
    n = k ∧ s = u

namespace Forest

theorem congr (h : t.Forest) (hsize : t'.size = t.size) (hedges : ∀ n, t'.edges n = t.edges n) :
    t'.Forest := by
  have hchild (n : NodeId) (s : Symbol) : t'.child? n s = t.child? n s := by
    rw [child?, hedges, child?]
  exact ⟨fun n => hedges n ▸ h.sorted n, fun hc => hsize ▸ h.up (hchild _ _ ▸ hc),
    fun hc hc' => h.parent (hchild _ _ ▸ hc) (hchild _ _ ▸ hc')⟩

theorem le_of_follow? (h : t.Forest) (hp : t.follow? n p = some m) : n ≤ m := by
  induction p generalizing n with
  | nil =>
    cases hp
    exact Nat.le_refl _
  | cons s p ih =>
    rw [follow?_cons] at hp
    obtain ⟨k, hk, hp⟩ := Option.bind_eq_some_iff.1 hp
    exact Nat.le_of_lt (Nat.lt_of_lt_of_le (h.up hk).1 (ih hp))

theorem lt_size_of_follow? (h : t.Forest) (hn : n < t.size) (hp : t.follow? n p = some m) :
    m < t.size := by
  induction p generalizing n with
  | nil =>
    cases hp
    exact hn
  | cons s p ih =>
    rw [follow?_cons] at hp
    obtain ⟨k, hk, hp⟩ := Option.bind_eq_some_iff.1 hp
    exact ih (h.up hk).2 hp

/-- No path leads back to where it begins. -/
theorem not_follow?_self (h : t.Forest) (hp : p ≠ []) : t.follow? n p ≠ some n := by
  intro hn
  obtain ⟨s, p, rfl⟩ := List.exists_cons_of_ne_nil hp
  rw [follow?_cons] at hn
  obtain ⟨k, hk, hn⟩ := Option.bind_eq_some_iff.1 hn
  exact absurd (h.le_of_follow? hn) (Nat.not_le_of_lt (h.up hk).1)

/-- A path is known by its end. -/
theorem follow?_inj (h : t.Forest) (hp : t.follow? n p = some m) (hq : t.follow? n q = some m) :
    p = q := by
  induction p using List.reverseRecOn generalizing q m with
  | nil =>
    cases hp
    exact (Decidable.byContradiction fun hne => h.not_follow?_self (Ne.symm hne) hq)
  | append_singleton p s ih =>
    rcases q.eq_nil_or_concat with rfl | ⟨q, u, rfl⟩
    · cases hq
      exact absurd hp (h.not_follow?_self (by simp))
    · rw [List.concat_eq_append] at hq ⊢
      rw [follow?_concat] at hp hq
      obtain ⟨k, hk, hkm⟩ := Option.bind_eq_some_iff.1 hp
      obtain ⟨j, hj, hjm⟩ := Option.bind_eq_some_iff.1 hq
      obtain ⟨rfl, rfl⟩ := h.parent hkm hjm
      rw [ih hk hj]

end Forest

/-! ### Spelling -/

/-- A new child. -/
def grow (t : Trie Site) (n : NodeId) (s : Symbol) : Trie Site := t.alloc.1.setChild n s t.size

theorem child?_grow (hn : n < t.size) (k : NodeId) (u : Symbol) :
    (t.grow n s).child? k u = if k = n ∧ u = s then some t.size else t.child? k u :=
  Draft.child?_bindNew (d := { trie := t }) hn s u k

theorem Forest.grow (h : t.Forest) (hn : n < t.size) : (t.grow n s).Forest := by
  have hsize : (t.grow n s).size = t.size + 1 := by simp [Trie.grow]
  refine ⟨fun k => ?_, fun {k m u} hc => ?_, fun {k j m u v} hc hc' => ?_⟩
  · rw [Trie.grow, edges_setChild, edges_alloc]
    split
    · exact (h.sorted k).insert s t.size
    · exact h.sorted k
  · rw [child?_grow hn] at hc
    split at hc
    · next hk =>
      cases hc
      exact ⟨hk.1 ▸ hn, hsize ▸ Nat.lt_succ_self _⟩
    · exact ⟨(h.up hc).1, hsize ▸ Nat.lt_succ_of_lt (h.up hc).2⟩
  · rw [child?_grow hn] at hc hc'
    split at hc <;> split at hc'
    · next hk hj => exact ⟨hk.1.trans hj.1.symm, hk.2.trans hj.2.symm⟩
    · cases hc
      exact absurd (h.up hc').2 (Nat.lt_irrefl _)
    · cases hc'
      exact absurd (h.up hc).2 (Nat.lt_irrefl _)
    · exact h.parent hc hc'

/-- A new child ends one more path. -/
theorem Forest.follow?_grow (h : t.Forest) (hn : n < t.size) (hp : t.follow? b p = some n)
    (hnone : t.child? n s = none) (q : List Symbol) :
    (t.grow n s).follow? b q = if q = p ++ [s] then some t.size else t.follow? b q := by
  induction q using List.reverseRecOn with
  | nil => rw [if_neg (by simp)]; rfl
  | append_singleton q u ih =>
    rw [follow?_concat, ih, follow?_concat]
    by_cases hq : q = p ++ [s]
    · subst hq
      rw [if_pos rfl, if_neg (by simp), follow?_concat, hp]
      have hleaf : (t.grow n s).child? t.size u = none := by
        rw [child?_grow hn, if_neg fun hk => Nat.ne_of_gt hn hk.1, child?,
          edges_of_size_le _ _ (Nat.le_refl _)]
        rfl
      change (t.grow n s).child? t.size u = (t.child? n s).bind _
      rw [hleaf, hnone]
      rfl
    · rw [if_neg hq]
      cases hk : t.follow? b q with
      | none =>
        rw [if_neg fun heq => ?_]
        · rfl
        · rw [(List.append_inj' heq rfl).1, hp] at hk
          cases hk
      | some k =>
        refine Eq.trans (b := (t.grow n s).child? k u) rfl ?_
        rw [child?_grow hn]
        by_cases heq : q ++ [u] = p ++ [s]
        · obtain ⟨rfl, hus⟩ := List.append_inj' heq rfl
          cases hp.symm.trans hk
          rw [if_pos heq, if_pos ⟨rfl, List.head_eq_of_cons_eq hus⟩]
        · rw [if_neg heq, if_neg]
          · rfl
          · rintro ⟨rfl, rfl⟩
            exact heq (by rw [h.follow?_inj hk hp])

/-- The steps of a walk end where its symbols lead, and they are new where there was nothing. -/
inductive Walked (t t' : Trie Site) (b : NodeId) : List Symbol → List Symbol → List Step → Prop
  | nil (p : List Symbol) : Walked t t' b p [] []
  | cons {p symbols : List Symbol} {s : Symbol} {step : Step} {steps : List Step}
      (hnode : t'.follow? b (p ++ [s]) = some step.node)
      (hnew : step.created = (t.follow? b (p ++ [s])).isNone)
      (h : Walked t t' b (p ++ [s]) symbols steps) :
      Walked t t' b p (s :: symbols) (step :: steps)

theorem Walked.congr (h : t₁.Walked t' b p symbols steps)
    (heq : ∀ r, r ≠ [] → t₁.follow? b (p ++ r) = t.follow? b (p ++ r)) :
    t.Walked t' b p symbols steps := by
  induction h with
  | nil p => exact .nil p
  | @cons p symbols s step steps hnode hnew h ih =>
    refine .cons hnode (by rw [hnew, heq [s] (by simp)]) (ih fun r hr => ?_)
    rw [List.append_assoc]
    exact heq ([s] ++ r) (by simp)

theorem Walked.dropLast (h : t.Walked t' b p symbols steps) :
    t.Walked t' b p symbols.dropLast steps.dropLast := by
  induction h with
  | nil p => exact .nil p
  | cons hnode hnew h ih =>
    cases h with
    | nil p => exact .nil _
    | cons hnode' hnew' h' => exact .cons hnode hnew ih

/-- The last step ends where all symbols lead. -/
theorem Walked.getLast? (h : t.Walked t' b p symbols steps) (hs : symbols ≠ []) :
    ∃ last, steps.getLast? = some last ∧ t'.follow? b (p ++ symbols) = some last.node := by
  induction h with
  | nil p => exact absurd rfl hs
  | @cons p symbols s step steps hnode hnew h ih =>
    cases h with
    | nil _ => exact ⟨step, rfl, hnode⟩
    | cons hnode' hnew' h' =>
      obtain ⟨last, hlast, hp⟩ := ih (List.cons_ne_nil _ _)
      refine ⟨last, ?_, by rwa [List.append_assoc] at hp⟩
      rw [List.getLast?_cons, hlast]
      rfl

/-- A path along the symbols leads to a step. -/
theorem Walked.exists_step (h : t.Walked t' b p symbols steps) (ha : Along p symbols q) :
    ∃ step ∈ steps, t'.follow? b q = some step.node := by
  induction h with
  | nil p =>
    obtain ⟨r, hne, hr, -⟩ := ha
    exact absurd (List.prefix_nil.1 hr) hne
  | cons hnode hnew h ih =>
    rcases along_cons ha with rfl | ha
    · exact ⟨_, List.mem_cons_self, hnode⟩
    · obtain ⟨step, hstep, hq⟩ := ih ha
      exact ⟨step, List.mem_cons_of_mem _ hstep, hq⟩

/-- Every step ends where a path along the symbols leads. -/
theorem Walked.exists_along (h : t.Walked t' b p symbols steps) {step : Step}
    (hstep : step ∈ steps) : ∃ q, Along p symbols q ∧ t'.follow? b q = some step.node := by
  induction h with
  | nil p => cases hstep
  | cons hnode hnew h ih =>
    rcases List.mem_cons.1 hstep with rfl | hstep
    · exact ⟨_, along_head .., hnode⟩
    · obtain ⟨q, hq, hnode⟩ := ih hstep
      exact ⟨q, hq.of_tail, hnode⟩

/-- What spelling a literal leaves behind: the old paths, and new ones along the literal. -/
structure Extends (t : Trie Site) (b : NodeId) (p symbols : List Symbol) (t' : Trie Site) :
    Prop where
  forest : t'.Forest
  size : t.size ≤ t'.size
  content (k : NodeId) : t'.content k = t.content k
  child {k m : NodeId} {s : Symbol} (h : t'.child? k s = some m) :
    t.child? k s = some m ∨ t.size ≤ m
  keep {q : List Symbol} {m : NodeId} (h : t.follow? b q = some m) : t'.follow? b q = some m
  fresh {q : List Symbol} {m : NodeId} (h : t'.follow? b q = some m) :
    t.follow? b q = some m ∨ t.size ≤ m ∧ t.follow? b q = none ∧ Along p symbols q

/-- Spelling a literal only adds what is missing. -/
theorem Forest.extend (h : t.Forest) (hn : n < t.size) (hp : t.follow? b p = some n)
    (symbols : List Symbol) : t.Extends b p symbols (t.extend n symbols).1 ∧
      t.Walked (t.extend n symbols).1 b p symbols (t.extend n symbols).2 := by
  induction symbols generalizing t n p with
  | nil => exact ⟨⟨h, Nat.le_refl _, fun _ => rfl, .inl, id, .inl⟩, .nil p⟩
  | cons s symbols ih =>
    rw [Trie.extend, addChild]
    cases hc : t.child? n s with
    | some m =>
      have hm : t.follow? b (p ++ [s]) = some m := by
        rw [follow?_concat, hp]
        exact hc
      obtain ⟨hext, hwalk⟩ := ih h (h.up hc).2 hm
      refine ⟨⟨hext.forest, hext.size, hext.content, hext.child, hext.keep, fun hq => ?_⟩,
        .cons (hext.keep hm) (by rw [hm]; rfl) hwalk⟩
      exact (hext.fresh hq).imp_right fun hnew => ⟨hnew.1, hnew.2.1, hnew.2.2.of_tail⟩
    | none =>
      have hfollow := h.follow?_grow hn hp hc
      have hsize : (t.grow n s).size = t.size + 1 := by simp [Trie.grow]
      have hm : (t.grow n s).follow? b (p ++ [s]) = some t.size := by rw [hfollow, if_pos rfl]
      have hnew : t.follow? b (p ++ [s]) = none := by
        rw [follow?_concat, hp]
        exact hc
      obtain ⟨hext, hwalk⟩ := ih (h.grow hn) (hsize ▸ Nat.lt_succ_self _) hm
      change t.Extends b p (s :: symbols) ((t.grow n s).extend t.size symbols).1 ∧
        t.Walked ((t.grow n s).extend t.size symbols).1 b p (s :: symbols)
          (⟨t.size, true⟩ :: ((t.grow n s).extend t.size symbols).2)
      refine ⟨⟨hext.forest, Nat.le_trans (hsize ▸ Nat.le_succ _) hext.size, fun k => ?_,
        fun {k m u} hk => ?_, fun {q m} hq => hext.keep ?_, fun {q m} hq => ?_⟩,
        .cons (hext.keep hm) (by rw [hnew]; rfl) (hwalk.congr fun r hr => ?_)⟩
      · rw [hext.content, Trie.grow, content_setChild, content_alloc]
      · rcases hext.child hk with hold | hle
        · rw [child?_grow hn] at hold
          split at hold
          · cases hold
            exact .inr (Nat.le_refl _)
          · exact .inl hold
        · exact .inr (Nat.le_trans (hsize ▸ Nat.le_succ _) hle)
      · rw [hfollow, if_neg, hq]
        rintro rfl
        cases hnew.symm.trans hq
      · rcases hext.fresh hq with hold | ⟨hle, hnone, halong⟩
        · rw [hfollow] at hold
          split at hold
          · next heq =>
            cases hold
            exact .inr ⟨Nat.le_refl _, heq ▸ hnew, heq ▸ along_head p symbols s⟩
          · exact .inl hold
        · rw [hfollow] at hnone
          split at hnone
          · cases hnone
          · exact .inr ⟨Nat.le_trans (hsize ▸ Nat.le_succ _) hle, hnone, halong.of_tail⟩
      · rw [hfollow, if_neg]
        intro heq
        exact hr (List.append_cancel_left (heq.trans (List.append_nil _).symm))

end Trie

/-! ### Faces -/

/-- What a node does and what it is claimed for, its nested run apart. -/
structure Face where
  fallback : Fallback := .stay
  action : Action := .none
  claim : Option Role := none
deriving DecidableEq, Repr

/-- What a node does and what it is claimed for. -/
def Site.face (site : Site) : Face :=
  ⟨site.behaviour.fallback, site.behaviour.action, site.claim⟩

namespace Face

/-- The end of a token. -/
def ended (label : Label) (weak : Bool) (length : Nat) : Face :=
  ⟨.stay, .boundary label length, some (if weak then .weakBoundary label else .boundary label)⟩

/-- A node on the way to the end of a token. -/
def through : Face := { fallback := .reroute .unknown }

/-- A node at which a word stands, or the beginning of one. -/
def word (role : Role) : Face := ⟨Lexicon.identifierFallback, .none, some role⟩

/-- A weak claim on the node is carried out. -/
def GivesWay (face : Face) : Prop := ∀ role ∈ face.claim, role.isWeak = true

theorem givesWay_through : through.GivesWay := by
  rintro role ⟨⟩

theorem givesWay_ended (label : Label) (length : Nat) : (ended label true length).GivesWay := by
  rintro role ⟨⟩
  rfl

end Face

namespace Draft

open Assembly (yields_bind yields_pure yields_get yields_modify yields_modifyGet)

variable {lexicon : Lexicon} {d d₁ d₂ d' : Draft} {b n : NodeId} {p q : List Symbol}
  {steps : List Trie.Step} {literal terminator : String} {label : Label} {weak : Bool}
  {ts : List String}

/-- What the end of a path from a node does. -/
def below (d : Draft) (b : NodeId) (path : List Symbol) : Option Face :=
  (d.trie.follow? b path).map fun n => (d.site n).face

theorem below_eq_none : d.below b q = none ↔ d.trie.follow? b q = none := Option.map_eq_none_iff

/-- What nodes do changes at some places, and nothing else does. -/
structure Alters (d : Draft) (b : NodeId) (chosen : List Symbol → Prop) (φ : Face → Face)
    (d' : Draft) : Prop where
  size : d'.trie.size = d.trie.size
  edges (n : NodeId) : d'.trie.edges n = d.trie.edges n
  on {q : List Symbol} (hq : chosen q) : d'.below b q = (d.below b q).map φ
  off {q : List Symbol} (hq : ¬chosen q) : d'.below b q = d.below b q

namespace Alters

variable {chosen other : List Symbol → Prop} {φ : Face → Face}

theorem child? (h : d.Alters b chosen φ d') (n : NodeId) (s : Symbol) :
    d'.trie.child? n s = d.trie.child? n s := by
  rw [Trie.child?, h.edges, Trie.child?]

theorem follow? (h : d.Alters b chosen φ d') (q : List Symbol) :
    d'.trie.follow? b q = d.trie.follow? b q := Trie.follow?_congr h.child? b q

theorem forest (h : d.Alters b chosen φ d') (hd : d.trie.Forest) : d'.trie.Forest :=
  hd.congr h.size h.edges

/-- Nothing changes. -/
theorem refl (d : Draft) (h : ∀ q, chosen q → d.below b q = none) : d.Alters b chosen φ d :=
  ⟨rfl, fun _ => rfl, fun hq => by rw [h _ hq]; rfl, fun _ => rfl⟩

/-- Places change one after the other. -/
theorem trans (h : d.Alters b chosen φ d₁) (h' : d₁.Alters b other φ d')
    (hne : ∀ q, chosen q → ¬other q) : d.Alters b (fun q => chosen q ∨ other q) φ d' where
  size := h'.size.trans h.size
  edges n := (h'.edges n).trans (h.edges n)
  on {q} hq := by
    rcases hq with hq | hq
    · rw [h'.off (hne q hq), h.on hq]
    · rw [h'.on hq, h.off fun hq' => hne q hq' hq]
  off hq := by
    rw [not_or] at hq
    rw [h'.off hq.2, h.off hq.1]

theorem congr (h : d.Alters b chosen φ d') (heq : ∀ q, other q ↔ chosen q) :
    d.Alters b other φ d' :=
  ⟨h.size, h.edges, fun hq => h.on ((heq _).1 hq), fun hq => h.off (mt (heq _).2 hq)⟩

end Alters

/-- A node changes what it does. -/
theorem alters_modifyContent (h : d.trie.Forest) (hp : d.trie.follow? b p = some n)
    (hn : n < d.trie.size) {g : Site → Site} {φ : Face → Face}
    (hφ : ∀ site, (g site).face = φ site.face) (ws : Array Warning) :
    d.Alters b (· = p) φ { d with trie := d.trie.modifyContent n g, warnings := ws } := by
  have hfollow (q : List Symbol) : (d.trie.modifyContent n g).follow? b q = d.trie.follow? b q :=
    Trie.follow?_congr (fun _ _ => Trie.child?_modifyContent ..) b q
  refine ⟨Trie.size_modifyContent .., fun _ => Trie.edges_modifyContent .., ?_, fun {q} hq => ?_⟩
  · rintro q rfl
    rw [below, below, hfollow, hp, Option.map_some, Option.map_some, Option.map_some, site, site,
      Trie.content_modifyContent, if_pos ⟨rfl, hn⟩, hφ]
  · rw [below, below, hfollow]
    cases hq' : d.trie.follow? b q with
    | none => rfl
    | some m =>
      rw [Option.map_some, Option.map_some, site, site, Trie.content_modifyContent, if_neg]
      rintro ⟨rfl, -⟩
      exact hq (h.follow?_inj hq' hp)

theorem alters_modifyBehaviour (h : d.trie.Forest) (hp : d.trie.follow? b p = some n)
    (hn : n < d.trie.size) {f : Behaviour → Behaviour} {φ : Face → Face}
    (hφ : ∀ site : Site, ({ site with behaviour := f site.behaviour } : Site).face = φ site.face) :
    d.Alters b (· = p) φ (d.modifyBehaviour n f) :=
  alters_modifyContent h hp hn hφ d.warnings

/-! ### Spelling -/

/-- A literal is spelled below a place. -/
theorem extends_path (h : d.trie.Forest) (hn : n < d.trie.size) (hp : d.trie.follow? b p = some n)
    (hy : (Assembly.path n literal.toList).Yields d steps d') :
    d.trie.Extends b p (spelling literal.toList) d'.trie ∧
      d.trie.Walked d'.trie b p (spelling literal.toList) steps := by
  have hrun := yields_modifyGet.1 hy
  cases hrun
  exact h.extend hn hp _

/-- Where there was nothing along the literal, there is an empty node. -/
theorem below_extends (he : d.trie.Extends b p q d'.trie) (r : List Symbol) :
    d'.below b r = d.below b r ∨
      d.below b r = none ∧ d'.below b r = some {} ∧ Along p q r := by
  cases hr : d'.trie.follow? b r with
  | none =>
    refine .inl ?_
    rw [below, hr, eq_comm, Option.map_none, below_eq_none]
    cases hr' : d.trie.follow? b r with
    | none => rfl
    | some m => cases (he.keep hr').symm.trans hr
  | some m =>
    rw [below, hr, Option.map_some, site, he.content]
    rcases he.fresh hr with hold | ⟨hle, hnone, halong⟩
    · exact .inl (by rw [below, hold]; rfl)
    · refine .inr ⟨below_eq_none.2 hnone, ?_, halong⟩
      rw [Trie.content_of_size_le _ _ hle]
      rfl

/-- New nodes along a walk send symbols without a child elsewhere, and nothing else changes. -/
theorem alters_reroute {t t' : Trie Site} {symbols : List Symbol}
    (hw : t.Walked t' b p symbols steps) (h : d.trie.Forest) (hb : b < d.trie.size)
    (hfollow : ∀ q, d.trie.follow? b q = t'.follow? b q) {target : NodeId}
    (hy : (steps.forM fun step =>
      if step.created then
        Assembly.modifyBehaviour step.node fun b => { b with fallback := .reroute target }
      else pure ()).Yields d ⟨⟩ d') :
    d.Alters b (fun q => Along p symbols q ∧ t.follow? b q = none)
      (fun face => { face with fallback := .reroute target }) d' := by
  induction hw generalizing d with
  | nil p =>
    obtain ⟨-, rfl⟩ := yields_pure.1 hy
    refine .refl _ ?_
    rintro q ⟨⟨r, hne, hr, -⟩, -⟩
    exact absurd (List.prefix_nil.1 hr) hne
  | @cons p symbols s step steps hnode hnew hw ih =>
    obtain ⟨⟨⟩, d₁, hstep, hy⟩ := yields_bind.1 hy
    have hfirst : d.Alters b (fun q => q = p ++ [s] ∧ t.follow? b q = none)
        (fun face => { face with fallback := .reroute target }) d₁ := by
      dsimp only at hstep
      split at hstep
      · next hcreated =>
        obtain rfl := yields_modify.1 hstep
        have hn := (hfollow _).trans hnode
        refine (alters_modifyBehaviour h hn (h.lt_size_of_follow? hb hn) fun _ => rfl).congr
          fun q => and_iff_left_of_imp ?_
        rintro rfl
        exact Option.isNone_iff_eq_none.1 (hnew ▸ hcreated)
      · next hcreated =>
        obtain ⟨-, rfl⟩ := yields_pure.1 hstep
        refine .refl _ ?_
        rintro q ⟨rfl, hnone⟩
        exact absurd (hnew.trans (by rw [hnone]; rfl)) hcreated
    have hrest := ih (hfirst.forest h) (hfirst.size ▸ hb)
      (fun q => (hfirst.follow? q).trans (hfollow q)) hy
    refine (hfirst.trans hrest ?_).congr fun q => ?_
    · rintro q ⟨rfl, -⟩ ⟨ha, -⟩
      exact not_along_self _ _ ha
    · rw [← or_and_right]
      exact and_congr_left fun _ => ⟨along_cons, by
        rintro (rfl | ha)
        exacts [along_head p symbols s, ha.of_tail]⟩

/-! ### Ends of tokens -/

/-- The ends of tokens before terminators are spelled below a place: the end of each terminator
acts, new nodes on the way lead to unknown text, and everything else is as it was. -/
structure Overwrites (d : Draft) (b : NodeId) (p : List Symbol) (label : Label) (weak : Bool)
    (ts : List String) (d' : Draft) : Prop where
  forest : d'.trie.Forest
  size : d.trie.size ≤ d'.trie.size
  keep {q : List Symbol} {m : NodeId} (h : d.trie.follow? b q = some m) :
    d'.trie.follow? b q = some m
  last {t : String} (ht : t ∈ ts) : d'.below b (p ++ spelling t.toList) =
    some (.ended label weak (byteLength t.toList))
  way {t : String} {r : List Symbol} (ht : t ∈ ts) (hne : r ≠ []) (hr : r <+: spelling t.toList)
    (hu : ∀ u ∈ ts, r ≠ spelling u.toList) :
    d'.below b (p ++ r) = some ((d.below b (p ++ r)).getD .through)
  rest {q : List Symbol} (hq : ∀ t ∈ ts, ¬Along p (spelling t.toList) q) :
    d'.below b q = d.below b q

theorem overwrites_nil (h : d.trie.Forest) : d.Overwrites b p label weak [] d :=
  ⟨h, Nat.le_refl _, id, by simp, by simp, fun _ => rfl⟩

/-- A strong claim is carried out, and so is a weak one that nothing strong stands against. -/
theorem alters_claim (h : d.trie.Forest) (hn : n < d.trie.size)
    (hp : d.trie.follow? b p = some n) {policy : ConflictPolicy} {role : Role} {ok : Bool}
    (hy : (Assembly.claim policy n literal role).Yields d ok d')
    (hweak : role.isWeak = true → ∀ face ∈ d.below b p, face.GivesWay) :
    ok = true ∧ d.Alters b (· = p) (fun face => { face with claim := some role }) d' := by
  rcases hy.claim with ⟨rfl, ⟨ws, rfl⟩, -⟩ | ⟨-, -, hrole, r, hr, hstrong⟩
  · exact ⟨rfl, alters_modifyContent (g := fun site => { site with claim := some role }) h hp hn
      (fun _ => rfl) ws⟩
  · have hface : (d.site n).face ∈ d.below b p := by rw [below, hp]; rfl
    exact absurd (hweak hrole _ hface r hr) (by simp [hstrong])

/-- A node takes a role and changes what it does. -/
theorem alters_assign (h : d.trie.Forest) (hn : n < d.trie.size)
    (hp : d.trie.follow? b p = some n) {policy : ConflictPolicy} {role : Role} {ok : Bool}
    (hy : (Assembly.claim policy n literal role).Yields d ok d')
    (hweak : role.isWeak = true → ∀ face ∈ d.below b p, face.GivesWay)
    {f : Behaviour → Behaviour} {φ : Face → Face}
    (hφ : ∀ site : Site, ({ site with behaviour := f site.behaviour } : Site).face = φ site.face) :
    ok = true ∧ d.Alters b (· = p) (fun face => φ { face with claim := some role })
      (d'.modifyBehaviour n f) := by
  obtain ⟨hok, hclaimed⟩ := alters_claim h hn hp hy hweak
  have hbehave := alters_modifyBehaviour (hclaimed.forest h) ((hclaimed.follow? _).trans hp)
    (hclaimed.size ▸ hn) hφ
  refine ⟨hok, hbehave.size.trans hclaimed.size,
    fun k => (hbehave.edges k).trans (hclaimed.edges k), fun hq => ?_,
    fun hq => (hbehave.off hq).trans (hclaimed.off hq)⟩
  rw [hbehave.on hq, hclaimed.on hq, Option.map_map]
  rfl

/-- A literal is spelled below a place: the end of the literal is there, new nodes on the way do
what `way` does, and everything else is as it was. -/
structure Lays (d : Draft) (b : NodeId) (p symbols : List Symbol) (way : Face) (d' : Draft) :
    Prop where
  forest : d'.trie.Forest
  size : d.trie.size ≤ d'.trie.size
  child {k m : NodeId} {s : Symbol} (h : d'.trie.child? k s = some m) :
    d.trie.child? k s = some m ∨ d.trie.size ≤ m
  keep {q : List Symbol} {m : NodeId} (h : d.trie.follow? b q = some m) :
    d'.trie.follow? b q = some m
  last : d'.below b (p ++ symbols) = some ((d.below b (p ++ symbols)).getD {})
  way {r : List Symbol} (hne : r ≠ []) (hr : r <+: symbols) (hproper : r ≠ symbols) :
    d'.below b (p ++ r) = some ((d.below b (p ++ r)).getD way)
  rest {q : List Symbol} (hq : ¬Along p symbols q) : d'.below b q = d.below b q

/-- A literal is spelled, and new nodes before its end send symbols without a child elsewhere. -/
theorem lays_rerouteCreated (h : d.trie.Forest) (hb : b < d.trie.size)
    (hp : d.trie.follow? b p = some n) {target : NodeId}
    (hpath : (Assembly.path n literal.toList).Yields d steps d₁)
    (hre : (Lexicon.rerouteCreated steps target).Yields d₁ ⟨⟩ d') :
    d.Lays b p (spelling literal.toList) { fallback := .reroute target } d' ∧
      ∃ last, steps.getLast? = some last ∧
        d'.trie.follow? b (p ++ spelling literal.toList) = some last.node := by
  obtain ⟨he, hw⟩ := extends_path h (h.lt_size_of_follow? hb hp) hp hpath
  have hreroute := alters_reroute hw.dropLast he.forest (Nat.lt_of_lt_of_le hb he.size)
    (fun _ => rfl) hre
  obtain ⟨last, hlast, hnode⟩ := hw.getLast? (spelling_ne_nil _)
  -- New nodes are rerouted before the last one only.
  have hend : ¬(Along p (spelling literal.toList).dropLast (p ++ spelling literal.toList) ∧
      d.trie.follow? b (p ++ spelling literal.toList) = none) := by
    rintro ⟨⟨r, -, hr, heq⟩, -⟩
    have hle := hr.length_le
    rw [← List.append_cancel_left heq, List.length_dropLast] at hle
    exact absurd hle (Nat.not_le_of_lt (Nat.sub_lt (List.length_pos_iff.2 (spelling_ne_nil _))
      Nat.one_pos))
  have hthere {r : List Symbol} (hne : r ≠ []) (hr : r <+: spelling literal.toList)
      (hnone : d.below b (p ++ r) = none) : d₁.below b (p ++ r) = some {} := by
    rcases below_extends he (p ++ r) with hold | ⟨-, hnew, -⟩
    · obtain ⟨_, -, hm⟩ := hw.exists_step ⟨r, hne, hr, rfl⟩
      rw [hnone, below_eq_none] at hold
      cases hold.symm.trans hm
    · exact hnew
  have hold {q : List Symbol} {face : Face} (hface : d.below b q = some face) :
      d₁.below b q = some face := by
    rcases below_extends he q with hold | ⟨hnone, -, -⟩
    · exact hold.trans hface
    · cases hnone.symm.trans hface
  refine ⟨⟨hreroute.forest he.forest, hreroute.size ▸ he.size,
      fun hk => he.child (hreroute.child? _ _ ▸ hk),
      fun hq => (hreroute.follow? _).trans (he.keep hq), ?_, fun {r} hne hr hproper => ?_,
      fun {q} hq => ?_⟩,
    last, hlast, (hreroute.follow? _).trans hnode⟩
  · rw [hreroute.off hend]
    cases hface : d.below b (p ++ spelling literal.toList) with
    | none => exact hthere (spelling_ne_nil _) List.prefix_rfl hface
    | some face => exact hold hface
  · have halong : Along p (spelling literal.toList).dropLast (p ++ r) := by
      obtain ⟨more, hmore⟩ := hr
      refine ⟨r, hne, ?_, rfl⟩
      rw [← hmore, List.dropLast_append_of_ne_nil]
      · exact List.prefix_append ..
      · rintro rfl
        exact hproper ((List.append_nil r).symm.trans hmore)
    cases hface : d.below b (p ++ r) with
    | none =>
      rw [hreroute.on ⟨halong, below_eq_none.1 hface⟩, hthere hne hr hface]
      rfl
    | some face =>
      rw [hreroute.off, hold hface]
      · rfl
      · rintro ⟨-, hnone⟩
        rw [below_eq_none.2 hnone] at hface
        cases hface
  · rw [hreroute.off]
    · exact (below_extends he q).resolve_right fun hnew => hq hnew.2.2
    · rintro ⟨⟨r, hne, hr, rfl⟩, -⟩
      exact hq ⟨r, hne, hr.trans (List.dropLast_prefix _), rfl⟩

/-- The end of a token before a terminator. -/
theorem overwrites_endBefore (h : d.trie.Forest) (hb : b < d.trie.size)
    (hp : d.trie.follow? b p = some n)
    (hweak : weak = true → ∀ face ∈ d.below b (p ++ spelling terminator.toList), face.GivesWay)
    (hy : (lexicon.endBefore n label weak terminator).Yields d ⟨⟩ d') :
    d.Overwrites b p label weak [terminator] d' := by
  obtain ⟨steps, d₁, hpath, hy⟩ := yields_bind.1 hy
  obtain ⟨⟨⟩, d₂, hre, hy⟩ := yields_bind.1 hy
  obtain ⟨hlays, last, hlast, hnode⟩ := lays_rerouteCreated h hb hp hpath hre
  rw [hlast] at hy
  obtain ⟨ok, d₃, hclaim, hy⟩ := yields_bind.1 hy
  have hlt := hlays.forest.lt_size_of_follow? (Nat.lt_of_lt_of_le hb hlays.size) hnode
  have hgives (hw : weak = true) :
      ∀ face ∈ d₂.below b (p ++ spelling terminator.toList), face.GivesWay := by
    rw [hlays.last]
    rintro face ⟨⟩
    cases hface : d.below b (p ++ spelling terminator.toList) with
    | none => rintro role ⟨⟩
    | some face => exact hweak hw face hface
  obtain ⟨rfl, hassigned⟩ := alters_assign hlays.forest hlt hnode hclaim (fun hrole => hgives (by
    cases weak with
    | true => rfl
    | false => cases hrole))
    (f := fun b => { b with
      action := .boundary label (byteLength terminator.toList), fallback := .stay })
    (φ := fun face => { face with
      action := .boundary label (byteLength terminator.toList), fallback := .stay }) fun _ => rfl
  obtain rfl := yields_modify.1 hy
  refine ⟨hassigned.forest hlays.forest, ?_, fun hq => ?_, fun ht => ?_,
    fun {t r} ht hne hr hu => ?_, fun {q} hq => ?_⟩
  · rw [hassigned.size]
    exact hlays.size
  · rw [hassigned.follow?]
    exact hlays.keep hq
  · obtain rfl := List.mem_singleton.1 ht
    rw [hassigned.on rfl, hlays.last]
    rfl
  · obtain rfl := List.mem_singleton.1 ht
    rw [hassigned.off fun heq => hu t ht (List.append_cancel_left heq)]
    exact hlays.way hne hr (hu t ht)
  · have hq := hq terminator (List.mem_singleton_self _)
    rw [hassigned.off, hlays.rest hq]
    rintro rfl
    exact hq ⟨_, spelling_ne_nil _, List.prefix_rfl, rfl⟩

/-- Terminators are spelled one after the other. -/
theorem Overwrites.cons {t : String} (h : d.Overwrites b p label weak [t] d₁)
    (h' : d₁.Overwrites b p label weak ts d') : d.Overwrites b p label weak (t :: ts) d' where
  forest := h'.forest
  size := Nat.le_trans h.size h'.size
  keep hq := h'.keep (h.keep hq)
  last {u} hu := by
    by_cases hin : ∃ v ∈ ts, spelling u.toList = spelling v.toList
    · obtain ⟨v, hv, heq⟩ := hin
      rw [heq, h'.last hv, ← pathText_spelling v.toList, ← heq, pathText_spelling]
    · have hfirst := h.last (t := t) (List.mem_singleton_self t)
      obtain rfl : u = t := (List.mem_cons.1 hu).resolve_right fun hmem => hin ⟨u, hmem, rfl⟩
      by_cases hon : ∃ v ∈ ts, spelling u.toList <+: spelling v.toList
      · obtain ⟨v, hv, hfront⟩ := hon
        rw [h'.way hv (spelling_ne_nil _) hfront fun w hw heq => hin ⟨w, hw, heq⟩, hfirst]
        rfl
      · rw [h'.rest, hfirst]
        rintro v hv ⟨r, -, hr, heq⟩
        exact hon ⟨v, hv, List.append_cancel_left heq ▸ hr⟩
  way {u r} hu hne hr hends := by
    have hends' (v : String) (hv : v ∈ ts) : r ≠ spelling v.toList :=
      hends v (List.mem_cons_of_mem _ hv)
    have hfirst : d₁.below b (p ++ r) = d.below b (p ++ r) ∨
        d₁.below b (p ++ r) = some ((d.below b (p ++ r)).getD .through) := by
      by_cases hon : r <+: spelling t.toList
      · refine .inr (h.way (List.mem_singleton_self t) hne hon fun v hv => ?_)
        exact List.mem_singleton.1 hv ▸ hends t List.mem_cons_self
      · refine .inl (h.rest fun v hv => ?_)
        rintro ⟨r', -, hr', heq⟩
        exact hon (List.append_cancel_left heq ▸ List.mem_singleton.1 hv ▸ hr')
    by_cases hon : ∃ v ∈ ts, r <+: spelling v.toList
    · obtain ⟨v, hv, hrv⟩ := hon
      rw [h'.way hv hne hrv hends']
      rcases hfirst with hsame | hnew
      · rw [hsame]
      · rw [hnew]
        rfl
    · rw [h'.rest fun v hv ⟨r', _, hr', heq⟩ =>
        hon ⟨v, hv, List.append_cancel_left heq ▸ hr'⟩]
      obtain rfl : u = t := (List.mem_cons.1 hu).resolve_right fun hmem => hon ⟨u, hmem, hr⟩
      exact h.way (List.mem_singleton_self u) hne hr fun v hv =>
        List.mem_singleton.1 hv ▸ hends u List.mem_cons_self
  rest {q} hq := by
    rw [h'.rest fun v hv => hq v (List.mem_cons_of_mem _ hv),
      h.rest fun v hv => List.mem_singleton.1 hv ▸ hq t List.mem_cons_self]

/-- After a weak end has been spelled, other weak claims are still carried out. -/
theorem Overwrites.givesWay {t : String} (h : d.Overwrites b p label true [t] d₁) {r : List Symbol}
    (hr : ∀ face ∈ d.below b (p ++ r), face.GivesWay) :
    ∀ face ∈ d₁.below b (p ++ r), face.GivesWay := by
  by_cases hon : r ≠ [] ∧ r <+: spelling t.toList
  · by_cases heq : r = spelling t.toList
    · rw [heq, h.last (List.mem_singleton_self t)]
      rintro face ⟨⟩
      exact Face.givesWay_ended label _
    · rw [h.way (List.mem_singleton_self t) hon.1 hon.2 fun v hv => List.mem_singleton.1 hv ▸ heq]
      rintro face ⟨⟩
      cases hface : d.below b (p ++ r) with
      | none => exact Face.givesWay_through
      | some face => exact hr face hface
  · rw [h.rest]
    · exact hr
    · rintro v hv ⟨r', hne, hr', heq⟩
      obtain rfl := List.append_cancel_left heq
      exact hon ⟨hne, List.mem_singleton.1 hv ▸ hr'⟩

/-- The ends of a token before all terminators. -/
theorem overwrites_forM (h : d.trie.Forest) (hb : b < d.trie.size)
    (hp : d.trie.follow? b p = some n)
    (hweak : weak = true → ∀ t ∈ ts, ∀ face ∈ d.below b (p ++ spelling t.toList), face.GivesWay)
    (hy : (ts.forM (lexicon.endBefore n label weak)).Yields d ⟨⟩ d') :
    d.Overwrites b p label weak ts d' := by
  induction ts generalizing d with
  | nil =>
    obtain ⟨-, rfl⟩ := yields_pure.1 hy
    exact overwrites_nil h
  | cons t ts ih =>
    obtain ⟨⟨⟩, d₁, hfirst, hy⟩ := yields_bind.1 hy
    have h₁ := overwrites_endBefore h hb hp (fun hw => hweak hw t List.mem_cons_self) hfirst
    refine h₁.cons (ih h₁.forest (Nat.lt_of_lt_of_le hb h₁.size) (h₁.keep hp)
      (fun hw u hu => ?_) hy)
    subst hw
    exact h₁.givesWay (hweak rfl u (List.mem_cons_of_mem _ hu))

end Draft

/-! ### What ends a token -/

/-- What stands at the end of a path below open-ended text: the end of a token, a node on the way
to one, or nothing. -/
def Lexicon.ending (lexicon : Lexicon) (label : Label) (weak : Bool) (path : List Symbol) :
    Option Face :=
  if ∃ t ∈ lexicon.terminators, path = spelling t.toList then
    some (.ended label weak (byteLength (pathText path)))
  else if ∃ t ∈ lexicon.terminators, path <+: spelling t.toList then some .through
  else none

namespace Draft

variable {lexicon : Lexicon} {d d' : Draft} {b n : NodeId} {p q : List Symbol}
  {label label' : Label} {weak weak' : Bool}

/-- When the ends are spelled, nothing but them stands below the place, if that was so before. -/
theorem Overwrites.below_eq (h : d.Overwrites b p label weak lexicon.terminators d') (hq : q ≠ [])
    (hd : d.below b (p ++ q) = none ∨
      ∃ label weak, d.below b (p ++ q) = lexicon.ending label weak q) :
    d'.below b (p ++ q) = lexicon.ending label weak q := by
  rw [Lexicon.ending]
  split
  · next hend =>
    obtain ⟨t, ht, rfl⟩ := hend
    rw [h.last ht, pathText_spelling]
  · next hend =>
    have hnone : d.below b (p ++ q) = none ∨ d.below b (p ++ q) =
        if ∃ t ∈ lexicon.terminators, q <+: spelling t.toList then some .through else none := by
      rcases hd with hd | ⟨label, weak, hd⟩
      · exact .inl hd
      · exact .inr (by rw [hd, Lexicon.ending, if_neg hend])
    split
    · next hon =>
      rw [if_pos hon] at hnone
      obtain ⟨t, ht, hfront⟩ := hon
      rw [h.way ht hq hfront fun u hu heq => hend ⟨u, hu, heq⟩]
      rcases hnone with hnone | hsome
      · rw [hnone]; rfl
      · rw [hsome]; rfl
    · next hon =>
      rw [if_neg hon, or_self] at hnone
      rw [h.rest, hnone]
      rintro t ht ⟨r, -, hr, heq⟩
      exact hon ⟨t, ht, List.append_cancel_left heq ▸ hr⟩

end Draft

end TrieLexer
