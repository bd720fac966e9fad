import TrieLexer.Proofs.Lockstep

/-!
# What building leaves alone

A part of a grammar is built on paths that begin at the root or at nodes of its own. Nodes that no
such path comes to are spared: they keep their children and what they do. Children of the root for
symbols that no literal begins with are kept as well.

## Main definitions

* `Trie.Apart` — no path of a builder comes to the spared nodes.
* `Trie.Spares` — the spared nodes are as they were.
* `Assembly.Spares` — a building step leaves the spared nodes alone.

## Main results

* `Assembly.Spares.bind`, `Assembly.spares_forM` — sequences and loops.
* `Lexicon.spares_buildKeywords`, `Lexicon.spares_buildMatchers`, `Lexicon.spares_buildDelimiters`,
  `Lexicon.spares_buildPunctuation` — the parts of a grammar.
-/

namespace TrieLexer

namespace Trie

variable {kept : NodeId → Prop} {out : Symbol → Prop} {t t' t'' : Trie Site} {n m : NodeId}
  {s : Symbol}

/-- A node that may be changed; the root may only get more children. -/
def Free (kept : NodeId → Prop) (n : NodeId) : Prop := ¬kept n ∧ n ≠ .root

/-- No path comes to the spared nodes, unless it begins at one of them or leaves the root by a
symbol that is kept out. -/
structure Apart (kept : NodeId → Prop) (out : Symbol → Prop) (t : Trie Site) : Prop where
  pos : 0 < t.size
  root : ¬kept .root
  lt {n : NodeId} (h : kept n) : n < t.size
  edge {n : NodeId} {e : Symbol × NodeId} (hn : ¬kept n) (hs : n = .root → ¬out e.1)
    (he : e ∈ t.edges n) : Free kept e.2

/-- The spared nodes are as they were, and they are still apart. -/
structure Spares (kept : NodeId → Prop) (out : Symbol → Prop) (t t' : Trie Site) : Prop where
  apart : t'.Apart kept out
  size : t.size ≤ t'.size
  edges {n : NodeId} (h : kept n) : t'.edges n = t.edges n
  content {n : NodeId} (h : ¬Free kept n) : t'.content n = t.content n
  root {s : Symbol} (hs : out s) : t'.child? .root s = t.child? .root s

theorem not_free_of_kept (h : kept n) : ¬Free kept n := fun hn => hn.1 h

theorem Apart.child (h : t.Apart kept out) (hn : ¬kept n) (hs : n = .root → ¬out s)
    (hc : t.child? n s = some m) : Free kept m :=
  h.edge hn hs (Edges.mem_of_find? hc)

theorem Apart.not_kept_of_size_le (h : t.Apart kept out) (hn : t.size ≤ n) : ¬kept n := fun hk =>
  Nat.not_lt.2 hn (h.lt hk)

/-- A new node may be changed. -/
theorem Apart.free_size (h : t.Apart kept out) : Free kept t.size :=
  ⟨h.not_kept_of_size_le (Nat.le_refl _), Nat.pos_iff_ne_zero.1 h.pos⟩

theorem Spares.refl (h : t.Apart kept out) : t.Spares kept out t :=
  ⟨h, Nat.le_refl _, fun _ => rfl, fun _ => rfl, fun _ => rfl⟩

theorem Spares.trans (h : t.Spares kept out t') (h' : t'.Spares kept out t'') :
    t.Spares kept out t'' :=
  ⟨h'.apart, Nat.le_trans h.size h'.size, fun hn => (h'.edges hn).trans (h.edges hn),
    fun hn => (h'.content hn).trans (h.content hn), fun hs => (h'.root hs).trans (h.root hs)⟩

/-- The paths from a spared node are kept, if none of them leads elsewhere, and they end at spared
nodes. -/
theorem Spares.follow? (h : t.Spares kept out t')
    (hclosed : ∀ {n m : NodeId} {s : Symbol}, kept n → t.child? n s = some m → kept m)
    (hn : kept n) (q : List Symbol) :
    t'.follow? n q = t.follow? n q ∧ ∀ {m : NodeId}, t.follow? n q = some m → kept m := by
  induction q generalizing n with
  | nil => exact ⟨rfl, fun hm => Option.some.inj hm ▸ hn⟩
  | cons s q ih =>
    have hchild : t'.child? n s = t.child? n s := by rw [child?, h.edges hn, child?]
    rw [follow?_cons, follow?_cons, hchild]
    cases hc : t.child? n s with
    | none =>
      refine ⟨rfl, fun hm => ?_⟩
      cases hm
    | some m => exact ih (hclosed hn hc)

/-! ### Changes of the arena -/

theorem spares_modifyContent (h : t.Apart kept out) (hn : Free kept n) (f : Site → Site) :
    t.Spares kept out (t.modifyContent n f) where
  apart := ⟨by simpa using h.pos, h.root, fun hk => by simpa using h.lt hk,
    fun hk hs he => h.edge hk hs (by simpa using he)⟩
  size := by simp
  edges _ := by simp
  content {k} hk := by
    rw [content_modifyContent, if_neg]
    rintro ⟨rfl, -⟩
    exact hk hn
  root _ := by simp

theorem spares_alloc (h : t.Apart kept out) : t.Spares kept out t.alloc.1 where
  apart := ⟨by simp, h.root, fun hk => by simpa using Nat.lt_succ_of_lt (h.lt hk),
    fun hk hs he => h.edge hk hs (by simpa using he)⟩
  size := by simp
  edges _ := by simp
  content _ := by simp
  root _ := by simp

theorem spares_setChild (h : t.Apart kept out) (hn : ¬kept n) (hs : n = .root → ¬out s)
    (hm : Free kept m) : t.Spares kept out (t.setChild n s m) where
  apart := by
    refine ⟨by simpa using h.pos, h.root, fun hk => by simpa using h.lt hk,
      fun {k e} hk hout he => ?_⟩
    rw [edges_setChild] at he
    split at he
    · rcases Edges.mem_insert he with rfl | he
      · exact hm
      · exact h.edge hk hout he
    · exact h.edge hk hout he
  size := by simp
  edges {k} hk := by
    rw [edges_setChild, if_neg]
    rintro ⟨rfl, -⟩
    exact hn hk
  content _ := by simp
  root {u} hu := by
    rw [Trie.child?, edges_setChild]
    split
    · next hroot =>
      rw [Edges.find?_insert, if_neg]
      · rfl
      · rintro rfl
        exact hs hroot.1 hu
    · rfl

theorem spares_removeChild (h : t.Apart kept out) (hn : Free kept n) (s : Symbol) :
    t.Spares kept out (t.removeChild n s) where
  apart := by
    refine ⟨by simpa using h.pos, h.root, fun hk => by simpa using h.lt hk,
      fun {k e} hk hout he => ?_⟩
    rw [edges_removeChild] at he
    split at he
    · exact h.edge hk hout (List.mem_filter.1 he).1
    · exact h.edge hk hout he
  size := by simp
  edges {k} hk := by
    rw [edges_removeChild, if_neg]
    rintro rfl
    exact hn.1 hk
  content _ := by simp
  root {u} _ := by rw [child?_removeChild, if_neg fun hk => hn.2 hk.1.symm]

theorem spares_addChild (h : t.Apart kept out) (hn : ¬kept n) (hs : n = .root → ¬out s) :
    t.Spares kept out (t.addChild n s).1 ∧ Free kept (t.addChild n s).2.node := by
  rw [Trie.addChild]
  cases hc : t.child? n s with
  | some m => exact ⟨.refl h, h.child hn hs hc⟩
  | none =>
    have halloc := spares_alloc h
    exact ⟨halloc.trans (spares_setChild halloc.apart hn hs h.free_size), h.free_size⟩

/-- A literal is spelled past the spared nodes. -/
theorem spares_extend (h : t.Apart kept out) (hn : ¬kept n) {symbols : List Symbol}
    (hs : ∀ s, symbols.head? = some s → n = .root → ¬out s) :
    t.Spares kept out (t.extend n symbols).1 ∧
      ∀ step ∈ (t.extend n symbols).2, Free kept step.node := by
  induction symbols generalizing t n with
  | nil => exact ⟨.refl h, List.forall_mem_nil _⟩
  | cons s symbols ih =>
    obtain ⟨hadd, hfree⟩ := spares_addChild h hn (hs s rfl)
    obtain ⟨hext, hrest⟩ := ih hadd.apart hfree.1 fun _ _ hr => absurd hr hfree.2
    exact ⟨hadd.trans hext, List.forall_mem_cons.2 ⟨hfree, hrest⟩⟩

/-- What is done below one child after the other spares what each of them spares. -/
theorem spares_foldl {step : Trie Site → Symbol × NodeId → Trie Site} {edges : Edges}
    (h : t.Apart kept out) (he : ∀ e ∈ edges, Free kept e.2)
    (hstep : ∀ (t : Trie Site) e, t.Apart kept out → Free kept e.2 → t.Spares kept out (step t e)) :
    t.Spares kept out (edges.foldl step t) := by
  induction edges generalizing t with
  | nil => exact .refl h
  | cons e edges ih =>
    rw [List.forall_mem_cons] at he
    have hfirst := hstep t e h he.1
    exact hfirst.trans (ih hfirst.apart he.2)

end Trie

namespace Draft

open Trie (Free spares_modifyContent spares_removeChild spares_foldl)

variable {kept : NodeId → Prop} {out : Symbol → Prop} {t : Trie Site} {d : Draft} {n : NodeId}

theorem spares_unclaimWithin (h : t.Apart kept out) (hn : Free kept n) (depth : Nat) :
    t.Spares kept out (unclaimWithin depth t n) := by
  induction depth generalizing t n with
  | zero => exact .refl h
  | succ depth ih =>
    have hmod := spares_modifyContent h hn fun site => { site with claim := none }
    exact hmod.trans (spares_foldl hmod.apart
      (fun e he => hmod.apart.edge hn.1 (fun hr => absurd hr hn.2) he)
      fun t e h he => ih h he)

theorem spares_redirectWithin (h : t.Apart kept out) (hn : Free kept n) (body : NodeId)
    (depth : Nat) : t.Spares kept out (redirectWithin body depth t n) := by
  induction depth generalizing t n with
  | zero => exact .refl h
  | succ depth ih =>
    refine spares_foldl h (fun e he => h.edge hn.1 (fun hr => absurd hr hn.2) he) fun t e h he => ?_
    split
    · exact .refl h
    · have hmod := spares_modifyContent h he fun site =>
        { site with behaviour := { site.behaviour with fallback := .reroute body } }
      exact hmod.trans (ih hmod.apart he)

theorem spares_pruneBoundary (h : d.trie.Apart kept out) (hn : Free kept n)
    {e : Symbol × NodeId} (he : Free kept e.2) :
    d.trie.Spares kept out (d.pruneBoundary n e).trie := by
  rw [pruneBoundary]
  split
  · have hremove := spares_removeChild h hn e.1
    exact hremove.trans (spares_unclaimWithin hremove.apart he _)
  · exact .refl h

theorem spares_pruneBoundaries (h : d.trie.Apart kept out) (hn : Free kept n) :
    d.trie.Spares kept out (d.pruneBoundaries n).trie := by
  suffices hgo : ∀ (rest : Edges) (d : Draft), d.trie.Apart kept out →
      (∀ e ∈ rest, Free kept e.2) →
      d.trie.Spares kept out (rest.foldl (·.pruneBoundary n) d).trie from
    hgo _ d h fun e he => h.edge hn.1 (fun hr => absurd hr hn.2) he
  intro rest
  induction rest with
  | nil => exact fun _ h _ => .refl h
  | cons e rest ih =>
    intro d h he
    rw [List.forall_mem_cons] at he
    have hfirst := spares_pruneBoundary h hn he.1
    exact hfirst.trans (ih _ hfirst.apart he.2)

theorem openers_pruneBoundaries (d : Draft) (n : NodeId) :
    (d.pruneBoundaries n).openers = d.openers := by
  rw [pruneBoundaries]
  generalize d.trie.edges n = edges
  induction edges generalizing d with
  | nil => rfl
  | cons e edges ih =>
    rw [List.foldl_cons, ih, pruneBoundary]
    split <;> rfl

theorem spares_settleOpener (h : d.trie.Apart kept out) (hn : Free kept n) (body : NodeId) :
    d.trie.Spares kept out (d.settleOpener n body).trie := by
  rw [settleOpener]
  split
  · exact spares_redirectWithin h hn body _
  · exact .refl h

theorem spares_settle (h : d.trie.Apart kept out) (openers : List (NodeId × NodeId))
    (ho : ∀ o ∈ openers, Free kept o.1) :
    d.trie.Spares kept out (openers.foldl (fun d o => d.settleOpener o.1 o.2) d).trie := by
  induction openers generalizing d with
  | nil => exact .refl h
  | cons o openers ih =>
    rw [List.forall_mem_cons] at ho
    have hfirst := spares_settleOpener h ho.1 o.2
    exact hfirst.trans (ih hfirst.apart ho.2)

end Draft

/-! ### Building steps -/

/-- No path of a builder comes to the spared nodes, and no opener is spared. -/
structure Draft.Apart (kept : NodeId → Prop) (out : Symbol → Prop) (d : Draft) : Prop where
  trie : d.trie.Apart kept out
  opener : ∀ o ∈ d.openers, Trie.Free kept o.1

/-- A building step leaves the spared nodes alone, and gives a result of some kind. It makes no
spared node an opener. -/
structure Assembly.Spares {α : Type} (kept : NodeId → Prop) (out : Symbol → Prop)
    (x : Assembly α) (P : α → Prop) : Prop where
  spares {d d' : Draft} {a : α} (h : d.trie.Apart kept out) (hy : x.Yields d a d') :
    d.trie.Spares kept out d'.trie ∧ P a ∧
      ((∀ o ∈ d.openers, Trie.Free kept o.1) → ∀ o ∈ d'.openers, Trie.Free kept o.1)

namespace Assembly

variable {α β : Type} {kept : NodeId → Prop} {out : Symbol → Prop} {P : α → Prop} {Q : β → Prop}
  {x : Assembly α} {f : α → Assembly β} {n : NodeId} {literal : String}

/-- The spared nodes stay apart. -/
theorem Spares.keeps {d d' : Draft} {a : α} (hx : x.Spares kept out P) (h : d.Apart kept out)
    (hy : x.Yields d a d') : d'.Apart kept out ∧ d.trie.Spares kept out d'.trie ∧ P a := by
  obtain ⟨hs, ha, hopeners⟩ := hx.spares h.trie hy
  exact ⟨⟨hs.apart, hopeners h.opener⟩, hs, ha⟩

theorem Spares.bind (hx : x.Spares kept out P) (hf : ∀ a, P a → (f a).Spares kept out Q) :
    (x >>= f).Spares kept out Q := by
  refine ⟨fun {d d' b} h hy => ?_⟩
  obtain ⟨a, d₁, hx', hf'⟩ := yields_bind.1 hy
  obtain ⟨hs₁, ha, ho₁⟩ := hx.spares h hx'
  obtain ⟨hs₂, hb, ho₂⟩ := (hf a ha).spares hs₁.apart hf'
  exact ⟨hs₁.trans hs₂, hb, fun ho => ho₂ (ho₁ ho)⟩

theorem spares_pure {a : α} (ha : P a) : (pure a : Assembly α).Spares kept out P := by
  refine ⟨fun {d d' b} h hy => ?_⟩
  obtain ⟨rfl, rfl⟩ := yields_pure.1 hy
  exact ⟨.refl h, ha, id⟩

theorem spares_get : (get : Assembly Draft).Spares kept out fun _ => True := by
  refine ⟨fun {d d' r} h hy => ?_⟩
  obtain ⟨rfl, rfl⟩ := yields_get.1 hy
  exact ⟨.refl h, trivial, id⟩

theorem spares_throw (e : GrammarError) : (throw e : Assembly α).Spares kept out P :=
  ⟨fun _ hy => absurd hy not_yields_throw⟩

theorem spares_pureExcept {r : Except GrammarError α} :
    Spares kept out (ExceptT.mk (pure r)) fun _ => True := by
  refine ⟨fun {d d' a} h hy => ?_⟩
  obtain ⟨-, rfl⟩ := yields_pureExcept.1 hy
  exact ⟨.refl h, trivial, id⟩

/-- A change of the arena that spares the spared nodes. -/
theorem spares_modify {g : Draft → Draft}
    (hg : ∀ d : Draft, d.trie.Apart kept out → d.trie.Spares kept out (g d).trie)
    (ho : ∀ d, (g d).openers = d.openers) :
    (modify g : Assembly PUnit).Spares kept out fun _ => True := by
  refine ⟨fun {d d' a} h hy => ?_⟩
  obtain rfl := yields_modify.1 hy
  exact ⟨hg d h, trivial, fun hopeners => ho d ▸ hopeners⟩

/-- A loop spares what each round spares. -/
theorem spares_forM {γ : Type} {g : γ → Assembly PUnit} {xs : List γ}
    (hg : ∀ x ∈ xs, (g x).Spares kept out fun _ => True) :
    (xs.forM g).Spares kept out fun _ => True := by
  induction xs with
  | nil => exact (spares_pure trivial : (pure ⟨⟩ : Assembly PUnit).Spares kept out fun _ => True)
  | cons x xs ih =>
    rw [List.forall_mem_cons] at hg
    exact Spares.bind hg.1 fun _ _ => ih hg.2

theorem spares_ite {c : Prop} [Decidable c] {x y : Assembly α} (hx : c → x.Spares kept out P)
    (hy : ¬c → y.Spares kept out P) : (if c then x else y).Spares kept out P := by
  split
  · next hc => exact hx hc
  · next hc => exact hy hc

theorem spares_claim (hn : Trie.Free kept n) (policy : ConflictPolicy) (role : Role) :
    (Assembly.claim policy n literal role).Spares kept out fun _ => True := by
  refine ⟨fun {d d' ok} h hy => ?_⟩
  rcases hy.claim with ⟨-, ⟨ws, rfl⟩, -⟩ | ⟨-, rfl, -⟩
  · exact ⟨Trie.spares_modifyContent h hn fun site => { site with claim := some role }, trivial, id⟩
  · exact ⟨.refl h, trivial, id⟩

theorem spares_behave (hn : Trie.Free kept n) (f : Behaviour → Behaviour) :
    (Assembly.modifyBehaviour n f).Spares kept out fun _ => True :=
  spares_modify (g := (·.modifyBehaviour n f)) (fun _ h => Trie.spares_modifyContent h hn
    fun site => { site with behaviour := f site.behaviour }) fun _ => rfl

theorem spares_prune (hn : Trie.Free kept n) :
    (Assembly.pruneBoundaries n).Spares kept out fun _ => True :=
  spares_modify (g := (·.pruneBoundaries n)) (fun _ h => Draft.spares_pruneBoundaries h hn)
    fun d => Draft.openers_pruneBoundaries d n

/-- A literal is spelled past the spared nodes. -/
theorem spares_path (hn : ¬kept n)
    (hs : ∀ s, (spelling literal.toList).head? = some s → n = .root → ¬out s) :
    (Assembly.path n literal.toList).Spares kept out fun steps =>
      steps ≠ [] ∧ ∀ step ∈ steps, Trie.Free kept step.node := by
  refine ⟨fun {d d' steps} h hy => ?_⟩
  have hne := Draft.Mirrors.steps_ne_nil hy
  cases yields_modifyGet.1 hy
  obtain ⟨hext, hsteps⟩ := Trie.spares_extend h hn hs
  exact ⟨hext, ⟨hne, hsteps⟩, id⟩

end Assembly

namespace Lexicon

open Assembly (spares_pure spares_get spares_modify spares_forM spares_ite spares_claim
  spares_behave spares_prune spares_path spares_pureExcept spares_throw)

variable {lexicon : Lexicon} {kept : NodeId → Prop} {out : Symbol → Prop} {n : NodeId}

/-! ### Open-ended tokens -/

theorem spares_rerouteCreated {steps : List Trie.Step}
    (hsteps : ∀ step ∈ steps, Trie.Free kept step.node) (target : NodeId) :
    (rerouteCreated steps target).Spares kept out fun _ => True :=
  spares_forM fun step hstep => spares_ite
    (fun _ => spares_behave (hsteps step (List.mem_of_mem_dropLast hstep)) _)
    fun _ => spares_pure trivial

theorem spares_endBefore (hn : Trie.Free kept n) (label : Label) (weak : Bool)
    (terminator : String) :
    (lexicon.endBefore n label weak terminator).Spares kept out fun _ => True := by
  refine (spares_path hn.1 fun _ _ hr => absurd hr hn.2).bind fun steps ⟨_, hsteps⟩ =>
    (spares_rerouteCreated hsteps _).bind fun _ _ => ?_
  cases hlast : steps.getLast? with
  | none => exact spares_pure trivial
  | some last =>
    have hfree := hsteps last (List.mem_of_getLast? hlast)
    exact (spares_claim hfree _ _).bind fun _ _ => spares_ite (fun _ => spares_behave hfree _)
      fun _ => spares_pure trivial

theorem spares_endBeforeTerminators (hn : Trie.Free kept n) (label : Label) (weak : Bool) :
    (lexicon.endBeforeTerminators n label weak).Spares kept out fun _ => True :=
  spares_forM fun terminator _ => spares_endBefore hn label weak terminator

/-! ### Words and literals -/

theorem spares_buildPrefix (hn : Trie.Free kept n) (text : String) :
    (lexicon.buildPrefix n text).Spares kept out fun _ => True :=
  spares_get.bind fun _ _ => spares_ite (fun _ => spares_pure trivial) fun _ =>
    (spares_claim hn _ _).bind fun _ _ => spares_ite
      (fun _ => (spares_behave hn _).bind fun _ _ => spares_endBeforeTerminators hn _ _)
      fun _ => spares_pure trivial

/-- A literal that does not begin with a symbol that is kept out is spelled from the root. -/
theorem spares_pathRoot (hroot : ¬kept .root) {literal : String} (hl : Admits out literal) :
    (Assembly.path .root literal.toList).Spares kept out fun steps =>
      steps ≠ [] ∧ ∀ step ∈ steps, Trie.Free kept step.node :=
  spares_path hroot fun s hs _ => hl s hs

theorem spares_buildKeyword (hroot : ¬kept .root) {literal : String} (hl : Admits out literal)
    (label : Label) : (lexicon.buildKeyword label literal).Spares kept out fun _ => True := by
  refine (spares_pathRoot hroot hl).bind fun steps ⟨hne, hsteps⟩ => ?_
  refine Assembly.Spares.bind (spares_forM fun x hx =>
    spares_buildPrefix (hsteps x.1 (Draft.mem_of_mem_properPrefixes hx)) x.2) fun _ _ => ?_
  cases hlast : steps.getLast? with
  | none => exact spares_pure trivial
  | some last =>
    have hfree := hsteps last (List.mem_of_getLast? hlast)
    exact (spares_claim hfree _ _).bind fun _ _ => spares_ite
      (fun _ => (spares_behave hfree _).bind fun _ _ => spares_endBeforeTerminators hfree _ _)
      fun _ => spares_pure trivial

theorem spares_rootPath (hroot : ¬kept .root) {literal : String} (hl : Admits out literal) :
    (lexicon.rootPath literal).Spares kept out (Trie.Free kept) := by
  refine (spares_pathRoot hroot hl).bind fun steps ⟨hne, hsteps⟩ => ?_
  refine Assembly.Spares.bind (spares_forM fun x hx => ?_) fun _ _ => ?_
  · have hfree := hsteps x.1 (Draft.mem_of_mem_properPrefixes hx)
    exact spares_ite (fun _ => spares_pure trivial) fun _ => spares_ite
      (fun _ => spares_buildPrefix hfree _) fun _ => spares_behave hfree _
  · refine spares_pure ?_
    obtain ⟨last, hlast⟩ := Option.ne_none_iff_exists'.1 (mt List.getLast?_eq_none_iff.1 hne)
    rw [hlast]
    exact hsteps last (List.mem_of_getLast? hlast)

/-! ### Greedy runs -/

theorem spares_endRun (terminator : String) {close : Close} (hn : Trie.Free kept close.body) :
    (lexicon.endRun terminator close).Spares kept out fun _ => True := by
  refine (spares_path hn.1 fun _ _ hr => absurd hr hn.2).bind fun steps ⟨_, hsteps⟩ =>
    (spares_rerouteCreated hsteps _).bind fun _ _ => ?_
  cases hlast : steps.getLast? with
  | none => exact spares_pure trivial
  | some last =>
    have hfree := hsteps last (List.mem_of_getLast? hlast)
    exact (spares_claim hfree _ _).bind fun _ _ => spares_ite (fun _ => spares_behave hfree _)
      fun _ => spares_pure trivial

/-- The body of a run is a new node. -/
theorem spares_body : Assembly.Spares kept out
    (modifyGet fun d : Draft => (d.trie.alloc.2, { d with trie := d.trie.alloc.1 }))
    (Trie.Free kept) := by
  refine ⟨fun {d d' n} h hy => ?_⟩
  cases Assembly.yields_modifyGet.1 hy
  exact ⟨Trie.spares_alloc h, h.free_size, id⟩

theorem spares_addNestedRun (m : GreedyMatcher Compilation) (terminator : String) :
    (addNestedRun m terminator).Spares kept out fun _ => True := by
  rw [addNestedRun]
  cases m.subGrammar with
  | none => exact spares_pure trivial
  | some c =>
    have hwarn : Assembly.Spares kept out (modify fun d => c.warnings.foldl Draft.warn d)
        fun _ => True := by
      refine ⟨fun {d d' _} h hy => ?_⟩
      obtain rfl := Assembly.yields_modify.1 hy
      rw [Draft.foldl_warn]
      exact ⟨.refl h, trivial, id⟩
    refine hwarn.bind fun _ _ => ?_
    cases c.result with
    | error e => exact spares_throw _
    | ok automaton =>
      refine ⟨fun {d d' _} h hy => ?_⟩
      cases Assembly.yields_modifyGet.1 hy
      exact ⟨.refl h, trivial, id⟩

theorem spares_addOpener (hn : Trie.Free kept n) (body : NodeId) : Assembly.Spares kept out
    (modify fun d : Draft => { d with openers := d.openers ++ [(n, body)] }) fun _ => True := by
  refine ⟨fun {d d' _} h hy => ?_⟩
  obtain rfl := Assembly.yields_modify.1 hy
  exact ⟨.refl h, trivial, fun ho =>
    List.forall_mem_append.2 ⟨ho, List.forall_mem_singleton.2 hn⟩⟩

theorem spares_buildRun (hroot : ¬kept .root) {m : GreedyMatcher Compilation}
    (hl : Admits out m.startsWith) (terminator : String) :
    (lexicon.buildRun m terminator).Spares kept out fun _ => True := by
  refine (spares_rootPath hroot hl).bind fun opener hopener => spares_body.bind fun body hbody =>
    spares_pureExcept.bind fun escape _ => (spares_addNestedRun m terminator).bind fun nested _ =>
    (spares_behave hbody _).bind fun _ _ => (spares_claim hopener _ _).bind fun ok _ => ?_
  refine spares_ite (fun _ => (spares_prune hopener).bind fun _ _ =>
    (spares_behave hopener _).bind fun _ _ => (spares_addOpener hopener body).bind fun _ _ => ?_)
    fun _ => ?_
  all_goals
    refine (spares_endRun _ hbody).bind fun _ _ => (spares_endRun _ hbody).bind fun _ _ => ?_
    cases m.haltMarker with
    | none => exact spares_pure trivial
    | some marker => exact spares_endRun _ hbody

/-- All greedy matchers. -/
theorem spares_buildMatchers (hroot : ¬kept .root) {matchers : List (GreedyMatcher Compilation)}
    (hl : ∀ m ∈ matchers, Admits out m.startsWith) :
    (lexicon.buildMatchers matchers).Spares kept out fun _ => True := by
  refine spares_forM fun m hm => ?_
  cases m.terminator with
  | none => exact spares_buildKeyword hroot (hl m hm) m.kind
  | some terminator => exact spares_buildRun hroot (hl m hm) terminator

/-! ### Definitions -/

/-- The literals of definitions. -/
theorem spares_literals {f : Definition → String → Assembly PUnit} {definitions : List Definition}
    (hf : ∀ definition, ∀ t ∈ literalsOf definitions,
      (f definition t).Spares kept out fun _ => True) :
    Assembly.Spares kept out
      (definitions.forM fun definition => definition.literals.forM (f definition))
      fun _ => True :=
  spares_forM fun definition hdefinition => spares_forM fun t ht =>
    hf definition t (List.mem_flatMap.2 ⟨definition, hdefinition, ht⟩)

/-- All keywords. -/
theorem spares_buildKeywords (hroot : ¬kept .root)
    (hl : ∀ t ∈ literalsOf lexicon.keywords, Admits out t) :
    lexicon.buildKeywords.Spares kept out fun _ => True :=
  spares_literals fun _ t ht => spares_buildKeyword hroot (hl t ht) _

theorem spares_buildDelimiter (hroot : ¬kept .root) {literal : String} (hl : Admits out literal)
    (label : Option Label) : (lexicon.buildDelimiter label literal).Spares kept out fun _ => True :=
  (spares_rootPath hroot hl).bind fun _ hn => (spares_claim hn _ _).bind fun _ _ =>
    spares_ite (fun _ => spares_behave hn _) fun _ => spares_pure trivial

theorem spares_buildMark (hroot : ¬kept .root) {literal : String} (hl : Admits out literal)
    (label : Label) : (lexicon.buildMark label literal).Spares kept out fun _ => True :=
  (spares_rootPath hroot hl).bind fun _ hn => (spares_claim hn _ _).bind fun _ _ =>
    spares_ite (fun _ => (spares_prune hn).bind fun _ _ => spares_behave hn _)
      fun _ => spares_pure trivial

/-- All delimiters. -/
theorem spares_buildDelimiters (hroot : ¬kept .root)
    (hl : ∀ t ∈ literalsOf lexicon.delimiters, Admits out t) :
    lexicon.buildDelimiters.Spares kept out fun _ => True :=
  spares_literals fun _ t ht => spares_buildDelimiter hroot (hl t ht) _

/-- All punctuation. -/
theorem spares_buildPunctuation (hroot : ¬kept .root)
    (hl : ∀ t ∈ literalsOf lexicon.punctuation, Admits out t) :
    lexicon.buildPunctuation.Spares kept out fun _ => True :=
  spares_literals fun _ t ht => spares_buildMark hroot (hl t ht) _

end Lexicon

/-! ### The finished automaton -/

/-- More symbols may be kept out. -/
theorem Trie.Apart.mono {kept : NodeId → Prop} {out out' : Symbol → Prop} {t : Trie Site}
    (h : t.Apart kept out) (hout : ∀ s, out s → out' s) : t.Apart kept out' :=
  ⟨h.pos, h.root, h.lt, fun hn hs he => h.edge hn (fun hr ho => hs hr (hout _ ho)) he⟩

/-- The root may get the decimal point for a child. -/
theorem Trie.Apart.setPoint {kept : NodeId → Prop} {out : Symbol → Prop} {t : Trie Site}
    (h : t.Apart kept out) (m : NodeId) :
    (t.setChild .root (.char '.') m).Apart kept fun s => out s ∨ s = .char '.' := by
  refine ⟨by simpa using h.pos, h.root, fun hk => by simpa using h.lt hk,
    fun {n e} hn hs he => ?_⟩
  rw [edges_setChild] at he
  split at he
  · next hroot =>
    obtain ⟨rfl, -⟩ := hroot
    rcases Edges.mem_insert he with rfl | he
    · exact absurd (.inr rfl) (hs rfl)
    · exact h.edge hn (fun _ hout => hs rfl (.inl hout)) he
  · exact h.edge hn (fun hr hout => hs hr (.inl hout)) he

/-- What is left of the spared nodes in a finished automaton. -/
structure StateGraph.Shows (kept : NodeId → Prop) (out : Symbol → Prop) (d : Draft)
    (g : StateGraph) : Prop where
  child? {n : NodeId} {s : Symbol} (h : kept n ∨ n = .root ∧ out s) :
    g.trie.child? n s = d.trie.child? n s
  behaviour {n : NodeId} (h : kept n) : g.behaviour n = (d.site n).behaviour

/-- An automaton that shows what is left of a later draft shows what is left of an earlier one. -/
theorem StateGraph.Shows.mono {kept : NodeId → Prop} {out : Symbol → Prop} {d d' : Draft}
    {g : StateGraph} (h : g.Shows kept out d') (hs : d.trie.Spares kept out d'.trie) :
    g.Shows kept out d where
  child? {n s} hn := by
    rw [h.child? hn]
    rcases hn with hn | ⟨rfl, hn⟩
    · rw [Trie.child?, hs.edges hn, Trie.child?]
    · exact hs.root hn
  behaviour hn := (h.behaviour hn).trans
    (congrArg Site.behaviour (hs.content (Trie.not_free_of_kept hn)))

namespace Lexicon

variable {lexicon : Lexicon} {kept : NodeId → Prop} {out : Symbol → Prop} {d d' : Draft}
  {matchers : List (GreedyMatcher Compilation)}

/-- Binding the decimal point and settling the openers leave the spared nodes alone. -/
theorem shows_finish (h : d.Apart kept out) (hpoint : ¬out (.char '.'))
    (hpointed : d.Pointed lexicon d') : (lexicon.finish d').toStateGraph.Shows kept out d := by
  have hapart : d'.trie.Apart kept fun s => out s ∨ s = .char '.' := by
    rw [hpointed.trie]
    split
    · exact h.trie.mono fun _ => .inl
    · exact h.trie.setPoint _
  have hsettle := Draft.spares_settle hapart d'.openers fun o ho =>
    h.opener o (hpointed.openers ▸ ho)
  refine ⟨fun {n s} hn => ?_, fun {n} hn => ?_⟩
  · have hsame : d'.trie.child? n s = d.trie.child? n s := by
      rw [hpointed.child? h.trie.pos, if_neg]
      rintro ⟨-, rfl, rfl⟩
      rcases hn with hn | ⟨-, hn⟩
      · exact h.trie.root hn
      · exact hpoint hn
    refine (Trie.child?_map ..).trans ((Trie.child?_modifyContent ..).trans ?_)
    rcases hn with hn | ⟨rfl, hn⟩
    · rw [Trie.child?, hsettle.edges hn, ← Trie.child?, hsame]
    · rw [hsettle.root (.inl hn), hsame]
  · have hroot : n ≠ .root := by
      rintro rfl
      exact h.trie.root hn
    have hcontent : (lexicon.finish d').behaviour n =
        (Trie.content (Draft.modifyBehaviour _ .root _).trie n).behaviour :=
      Trie.content_map _ _ Site.behaviour rfl
    rw [hcontent, Draft.modifyBehaviour, Trie.content_modifyContent,
      if_neg fun hk => hroot hk.1.symm, hsettle.content (Trie.not_free_of_kept hn)]
    exact congrArg Site.behaviour (hpointed.site n)

/-- Whatever is built after the keywords leaves the spared nodes alone. -/
theorem shows_buildRest (h : d.Apart kept out) (hl : lexicon.Admitted matchers out)
    (hy : (lexicon.buildRest matchers).Yields d ⟨⟩ d') :
    (lexicon.finish d').toStateGraph.Shows kept out d := by
  obtain ⟨⟨⟩, d₁, hmatchers, hy⟩ := Assembly.yields_bind.1 hy
  obtain ⟨⟨⟩, d₂, hdelimiters, hy⟩ := Assembly.yields_bind.1 hy
  obtain ⟨⟨⟩, d₃, hpunctuation, hpoint⟩ := Assembly.yields_bind.1 hy
  obtain ⟨h₁, hs₁, -⟩ :=
    (spares_buildMatchers h.trie.root fun _ hm => hl.opener hm).keeps h hmatchers
  obtain ⟨h₂, hs₂, -⟩ :=
    (spares_buildDelimiters h.trie.root fun _ ht => hl.delimiter ht).keeps h₁ hdelimiters
  obtain ⟨h₃, hs₃, -⟩ :=
    (spares_buildPunctuation h.trie.root fun _ ht => hl.punctuation ht).keeps h₂ hpunctuation
  exact (shows_finish h₃ hl.point (Draft.pointed_of_yields hpoint)).mono
    ((hs₁.trans hs₂).trans hs₃)

end Lexicon

end TrieLexer
