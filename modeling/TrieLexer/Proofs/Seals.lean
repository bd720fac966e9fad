import TrieLexer.Proofs.Marks
import TrieLexer.Proofs.Plain

/-!
# The ends of literals that are no words

In a plain grammar the text of a delimiter, a punctuation literal or the opener of a run stays
together when it is complete: it goes out at once, it is released before a symbol that makes no
longer literal, or the symbol leads into a run. Whatever is built later leaves the node at the end
of the literal to its role, and a symbol without a child does not lead to unknown text from there.

## Main definitions

* `Behaviour.Leaves` — text that is complete at a node leaves it.
* `Face.IsSealed` — a node that has a role of its own, and that complete text leaves.
* `Draft.Sealed` — a draft with such nodes at the ends of literals.

## Main results

* `Draft.Sealed.take` — a node takes a role that seals it.
* `Draft.Sealed.buildRun`, `Draft.Sealed.buildDelimiter`, `Draft.Sealed.buildMark` — the literals of
  a grammar are sealed, one after the other.
* `Draft.Stages.leaves` — complete text leaves the ends of literals in the finished automaton.
-/

namespace TrieLexer

/-! ### Nodes that complete text leaves -/

/-- A symbol without a child does not lead on to unknown text. -/
def Fallback.Leaves (f : Fallback) : Prop :=
  (∃ label, f = .release label) ∨ ∃ n, f = .reroute n ∧ n ≠ .unknown

/-- Text that is complete at a node goes out, or it does not go on as unknown text. -/
def Behaviour.Leaves (b : Behaviour) : Prop := b.action ≠ .none ∨ b.fallback.Leaves

/-- Complete text leaves a node that has a role of its own. -/
structure Face.IsSealed (face : Face) : Prop where
  claim : ∃ role, face.claim = some role ∧ role.isBoundary = false
  leaves : face.action ≠ .none ∨ face.fallback.Leaves

/-- A literal that begins as no identifier does begins with a character. -/
theorem Lexicon.SetsOff.head {lexicon : Lexicon} {t : String} (h : lexicon.SetsOff t)
    (hne : t ≠ "") :
    ∃ c cs, t.toList = c :: cs ∧ lexicon.identifierStart.contains c = false := by
  obtain ⟨c, cs, hlist⟩ :=
    List.exists_cons_of_ne_nil fun hnil => hne (String.toList_eq_nil_iff.1 hnil)
  exact ⟨c, cs, hlist, (h c (by rw [hlist]; rfl)).2.1⟩

/-- The literals that are no words set off what stands before them. -/
theorem Lexicon.IsPlain.signs {γ : Type} {lexicon : Lexicon} {matchers : List (GreedyMatcher γ)}
    {t : String} (hp : lexicon.IsPlain matchers) (ht : lexicon.Signs matchers t) :
    lexicon.SetsOff t := by
  cases ht with
  | delimiter h => exact hp.marks t (List.mem_append_left _ h.mem_literalsOf)
  | punctuation h => exact hp.marks t (List.mem_append_right _ h.mem_literalsOf)
  | opener hm ht => exact hp.openers _ hm ht

/-- What stands on the way to a literal or at its end stays there when it is spelled. -/
theorem Draft.Lays.keeps {d d' : Draft} {b : NodeId} {p symbols q : List Symbol} {way face : Face}
    (h : d.Lays b p symbols way d') (hq : d.below b q = some face) : d'.below b q = some face := by
  by_cases halong : Along p symbols q
  · obtain ⟨r, hne, hr, rfl⟩ := halong
    by_cases hproper : r = symbols
    · rw [hproper] at hq ⊢
      rw [h.last, hq]
      rfl
    · rw [h.way hne hr hproper, hq]
      rfl
  · rw [h.rest halong, hq]

namespace Draft

open Assembly (yields_bind yields_pure yields_modify)

variable {lexicon : Lexicon} {matchers : List (GreedyMatcher Compilation)} {d d' d₁ d₂ : Draft}
  {n : NodeId} {literal : String} {done : String → Prop} {role : Role} {s : Symbol}

/-! ### Spared paths from the root -/

/-- What stands on paths from the root is kept if it is spared. -/
theorem below_root_of_spares {heads : Symbol → Prop}
    (hs : d.trie.Spares (d.trie.Stems heads) heads d'.trie) (hhead : heads s) (q : List Symbol) :
    d'.below .root (s :: q) = d.below .root (s :: q) := by
  rw [below, Trie.follow?_cons, hs.root hhead, below, Trie.follow?_cons]
  cases hc : d.trie.child? .root s with
  | none => rfl
  | some m =>
    refine below_of_spares hs Trie.Stems.child ⟨s, [], hhead, ?_⟩ q
    rw [Trie.follow?_cons, hc]
    rfl

/-- No path from the root leads to a top. -/
theorem not_stems_of_isTop {heads : Symbol → Prop} (h : d.trie.IsTop n) :
    ¬d.trie.Stems heads n := by
  rintro ⟨s, q, -, hq⟩
  obtain ⟨front, u, hfront⟩ := (List.eq_nil_or_concat (s :: q)).resolve_left (List.cons_ne_nil _ _)
  rw [hfront, List.concat_eq_append, Trie.follow?_concat] at hq
  obtain ⟨k, -, hk⟩ := Option.bind_eq_some_iff.1 hq
  exact h.orphan k u hk

/-! ### Sealed literals -/

/-- A symbol with which no identifier begins. -/
def Foreign (lexicon : Lexicon) (s : Symbol) : Prop :=
  ∃ c, s = .char c ∧ lexicon.identifierStart.contains c = false

/-- A draft in which nodes are sealed at the ends of literals, which do not begin as identifiers
do. -/
structure Sealed (lexicon : Lexicon) (done : String → Prop) (d : Draft) : Prop where
  forest : d.trie.Forest
  size : NodeId.unknown < d.trie.size
  head {t : String} (ht : done t) :
    ∃ c cs, t.toList = c :: cs ∧ lexicon.identifierStart.contains c = false
  seals {t : String} (ht : done t) :
    ∃ face, d.below .root (spelling t.toList) = some face ∧ face.IsSealed

namespace Sealed

theorem pos (h : d.Sealed lexicon done) : NodeId.root < d.trie.size := Nat.zero_lt_of_lt h.size

theorem mono {fewer : String → Prop} (h : d.Sealed lexicon done) (hfewer : ∀ t, fewer t → done t) :
    d.Sealed lexicon fewer :=
  ⟨h.forest, h.size, fun ht => h.head (hfewer _ ht), fun ht => h.seals (hfewer _ ht)⟩

/-- What stands at the ends of literals is kept. -/
theorem keeps (h : d.Sealed lexicon done) (hforest : d'.trie.Forest)
    (hsize : d.trie.size ≤ d'.trie.size)
    (hbelow : ∀ s q face, Foreign lexicon s → d.below .root (s :: q) = some face →
      d'.below .root (s :: q) = some face) :
    d'.Sealed lexicon done := by
  refine ⟨hforest, Nat.lt_of_lt_of_le h.size hsize, h.head, fun {t} ht => ?_⟩
  obtain ⟨face, hface, hsealed⟩ := h.seals ht
  obtain ⟨c, cs, hlist, hc⟩ := h.head ht
  have hspell : spelling t.toList = .char c :: cs.map .char := by
    rw [hlist, spelling_cons]
  rw [hspell] at hface ⊢
  exact ⟨face, hbelow _ _ _ ⟨c, rfl, hc⟩ hface, hsealed⟩

/-- What spares the paths from the root that begin no identifier keeps literals sealed. -/
theorem spared {α : Type} {x : Assembly α} {P : α → Prop} {a : α} (h : d.Sealed lexicon done)
    (hforest : d'.trie.Forest)
    (hx : x.Spares (d.trie.Stems (Foreign lexicon)) (Foreign lexicon) P) (hy : x.Yields d a d') :
    d'.Sealed lexicon done := by
  have hs := (hx.spares (h.forest.apart_stems h.pos _) hy).1
  exact h.keeps hforest hs.size fun s q face hhead hface =>
    (below_root_of_spares hs hhead q).trans hface

/-- A literal is spelled. -/
theorem rootPath (h : d.Sealed lexicon done)
    (hplain : ∀ c ∈ literal.toList.head?, lexicon.identifierStart.contains c = false)
    (hy : (lexicon.rootPath literal).Yields d n d') :
    d'.Sealed lexicon done ∧ n < d'.trie.size ∧
      d'.trie.follow? .root (spelling literal.toList) = some n := by
  obtain ⟨hlays, hn⟩ := Lexicon.lays_rootPath h.forest h.pos hplain hy
  have hpos := Nat.lt_of_lt_of_le h.pos hlays.size
  exact ⟨h.keeps hlays.forest hlays.size fun _ _ _ _ => hlays.keeps,
    hlays.forest.lt_size_of_follow? hpos hn, hn⟩

/-- A node takes a role of its own, and complete text leaves it from then on. -/
theorem take (h : d.Sealed lexicon done)
    (hhead : ∃ c cs, literal.toList = c :: cs ∧ lexicon.identifierStart.contains c = false)
    (hlt : n < d.trie.size) (hn : d.trie.follow? .root (spelling literal.toList) = some n)
    {policy : ConflictPolicy} (hrole : role.isBoundary = false)
    (hclaim : (Assembly.claim policy n literal role).Yields d true d₁) (hP : Prunes n d₁ d₂)
    {f : Behaviour → Behaviour} (hf : ∀ b, (f b).Leaves) :
    (d₂.modifyBehaviour n f).Sealed lexicon fun t => done t ∨ t = literal := by
  have hclaimed := claim?_of_yields hclaim hlt
  rcases hclaim.claim with ⟨-, ⟨ws, rfl⟩, -⟩ | ⟨⟨⟩, -⟩
  have hsize : d₂.trie.size = d.trie.size := hP.size.trans (Trie.size_modifyContent ..)
  have hforest : d₂.trie.Forest :=
    hP.forest (h.forest.congr (Trie.size_modifyContent ..) fun _ => Trie.edges_modifyContent ..)
  -- A node with a role of its own is sealed, and the node that takes the new role becomes so.
  have hseals {q : List Symbol} {k : NodeId} {r : Role} (hk : d.trie.follow? .root q = some k)
      (hc : (d.recordClaim n role).claim? k = some r) (hr : r.isBoundary = false)
      (hleaves : k ≠ n → (d.site k).behaviour.Leaves) :
      ∃ face, (d₂.modifyBehaviour n f).below .root q = some face ∧ face.IsSealed := by
    have hk₂ : d₂.trie.follow? .root q = some k :=
      hP.follow ((follow?_recordClaim role .root q).trans hk) hc hr
    refine ⟨((d₂.modifyBehaviour n f).site k).face, ?_, ⟨r, ?_, hr⟩, ?_⟩
    · rw [below, follow?_modifyBehaviour, hk₂, Option.map_some]
    · exact (claim?_modifyBehaviour f k).trans (hP.claim_of_isBoundary hc hr)
    · change ((d₂.modifyBehaviour n f).site k).behaviour.Leaves
      rw [behaviour_modifyBehaviour (hsize ▸ hlt)]
      split
      · exact hf _
      · next hne =>
        rw [hP.behaviour]
        exact (behaviour_recordClaim role k).symm ▸ hleaves (Ne.symm hne)
  refine ⟨hforest.congr (size_modifyBehaviour f) (edges_modifyBehaviour f),
    by rw [size_modifyBehaviour, hsize]; exact h.size, fun ht => ?_, fun ht => ?_⟩
  · rcases ht with ht | rfl
    · exact h.head ht
    · exact hhead
  · rcases ht with ht | rfl
    · obtain ⟨face, hface, ⟨r, hc, hr⟩, hleaves⟩ := h.seals ht
      obtain ⟨k, hk, rfl⟩ := Option.map_eq_some_iff.1 hface
      by_cases hkn : k = n
      · exact hseals hk (hkn ▸ hclaimed) hrole fun hne => absurd hkn hne
      · exact hseals hk ((claim?_recordClaim hlt role k).trans ((if_neg (Ne.symm hkn)).trans hc)) hr
          fun _ => hleaves
    · exact hseals hn hclaimed hrole fun hne => absurd rfl hne

/-! ### Building -/

theorem plain_of_head
    (hhead : ∃ c cs, literal.toList = c :: cs ∧ lexicon.identifierStart.contains c = false) :
    ∀ c ∈ literal.toList.head?, lexicon.identifierStart.contains c = false := by
  obtain ⟨c, cs, hlist, hc⟩ := hhead
  rintro d hd
  rw [hlist] at hd
  cases hd
  exact hc

theorem buildDelimiter (h : d.Sealed lexicon done)
    (hhead : ∃ c cs, literal.toList = c :: cs ∧ lexicon.identifierStart.contains c = false)
    {label : Option Label} (hy : (lexicon.buildDelimiter label literal).Yields d ⟨⟩ d') :
    d'.Sealed lexicon fun t => done t ∨ t = literal := by
  obtain ⟨n, d₁, hpath, hy⟩ := yields_bind.1 hy
  obtain ⟨ok, d₂, hclaim, hy⟩ := yields_bind.1 hy
  obtain ⟨h₁, hlt, hn⟩ := h.rootPath (plain_of_head hhead) hpath
  cases ok with
  | false => cases isWeak_of_yields hclaim
  | true =>
    obtain rfl := yields_modify.1 hy
    exact h₁.take hhead hlt hn rfl hclaim (.refl n d₂) fun _ => .inl nofun

theorem buildMark (h : d.Sealed lexicon done)
    (hhead : ∃ c cs, literal.toList = c :: cs ∧ lexicon.identifierStart.contains c = false)
    {label : Label} (hy : (lexicon.buildMark label literal).Yields d ⟨⟩ d') :
    d'.Sealed lexicon fun t => done t ∨ t = literal := by
  obtain ⟨n, d₁, hpath, hy⟩ := yields_bind.1 hy
  obtain ⟨ok, d₂, hclaim, hy⟩ := yields_bind.1 hy
  obtain ⟨h₁, hlt, hn⟩ := h.rootPath (plain_of_head hhead) hpath
  cases ok with
  | false => cases isWeak_of_yields hclaim
  | true =>
    obtain ⟨⟨⟩, d₃, hprune, hy⟩ := yields_bind.1 hy
    obtain rfl := yields_modify.1 hprune
    obtain rfl := yields_modify.1 hy
    have hsorted := ((Assembly.plants_claim _ _).plants h₁.forest hclaim).1.forest.sorted n
    exact h₁.take hhead hlt hn rfl hclaim (prunes_pruneBoundaries hsorted) fun _ =>
      .inr (.inl ⟨label, rfl⟩)

/-- A word begins as an identifier does. -/
theorem buildKeyword (h : d.Sealed lexicon done)
    (hword : lexicon.isIdentifierShaped literal.toList = true) {label : Label}
    (hy : (lexicon.buildKeyword label literal).Yields d ⟨⟩ d') :
    d'.Sealed lexicon done := by
  have hadmits : Admits (Foreign lexicon) literal := by
    rintro s hs ⟨c, rfl, hc⟩
    obtain ⟨cs, hlist⟩ := List.head?_eq_some_iff.1 (head?_spelling.1 hs)
    rw [hlist, Lexicon.isIdentifierShaped, hc, Bool.false_and] at hword
    exact Bool.false_ne_true hword
  have hforest := ((Lexicon.plants_buildKeyword h.pos label literal).plants h.forest hy).1.forest
  have hx : (lexicon.buildKeyword label literal).Spares (d.trie.Stems (Foreign lexicon))
      (Foreign lexicon) fun _ => True :=
    Lexicon.spares_buildKeyword (h.forest.apart_stems h.pos (Foreign lexicon)).root hadmits label
  exact h.spared hforest hx hy

/-- A run is built below its body, which no path from the root leads to. -/
theorem buildRun (h : d.Sealed lexicon done) {m : GreedyMatcher Compilation}
    (hhead : ∃ c cs, m.startsWith.toList = c :: cs ∧ lexicon.identifierStart.contains c = false)
    {terminator : String} (ht : m.terminator = some terminator)
    (hy : (lexicon.buildRun m terminator).Yields d ⟨⟩ d') :
    d'.Sealed lexicon fun t => done t ∨ t = m.startsWith := by
  obtain @⟨opener, d₁, d₂, escape, nested, more, ws, hpath, -, -, hclaim, hends⟩ :=
    runStages_of_yields ht hy
  obtain ⟨h₁, hlt, hn⟩ := h.rootPath (plain_of_head hhead) hpath
  have htop := isTop_bindBody (d₁.runs ++ more) ws nested h₁.forest h₁.pos
  have hchild := child?_bindBody (d := d₁) (d₁.runs ++ more) ws nested
  have hbound : (d₁.bindBody (d₁.runs ++ more) ws nested).Sealed lexicon done := by
    refine h₁.keeps (forest_bindBody _ _ _ h₁.forest) (Nat.le_of_lt htop.lt)
      fun s q face _ hface => ?_
    obtain ⟨k, hk, rfl⟩ := Option.map_eq_some_iff.1 hface
    rw [below, Trie.follow?_congr hchild, hk, Option.map_some, site_bindBody,
      if_neg (Nat.ne_of_lt (h₁.forest.lt_size_of_follow? h₁.pos hk))]
  have hn' := (Trie.follow?_congr hchild .root _).trans hn
  have hlt' := Nat.lt_trans hlt htop.lt
  generalize d₁.bindBody (d₁.runs ++ more) ws nested = d₅ at *
  have hP := prunes_pruneBoundaries
    (((Assembly.plants_claim _ _).plants hbound.forest hclaim).1.forest.sorted opener)
  have htaken := hbound.take hhead hlt' hn' rfl hclaim hP
    (f := fun b => { b with action := .none, fallback := .reroute d₁.trie.size })
    fun _ => .inr (.inr ⟨_, rfl, Nat.ne_of_gt h₁.size⟩)
  have hled : ((d₂.pruneBoundaries opener).leadInto opener d₁.trie.size).Sealed lexicon
      fun t => done t ∨ t = m.startsWith := ⟨htaken.forest, htaken.size, htaken.head, htaken.seals⟩
  have htop' : ((d₂.pruneBoundaries opener).leadInto opener d₁.trie.size).trie.IsTop
      d₁.trie.size := by
    refine ⟨?_, htop.ne_root, fun k s hc => htop.orphan k s ?_⟩
    · rw [size_leadInto, hP.size, size_of_claim hclaim]
      exact htop.lt
    · rw [Trie.child?, edges_leadInto] at hc
      exact (child?_of_claim hclaim _ _).symm.trans (hP.child hc)
  have hbody : ∀ c ∈ lexicon.closings m terminator escape d₁.trie.size nested,
      c.2.body = d₁.trie.size := fun c hc => lexicon.body_of_mem_closings hc
  have hplants := (Assembly.plants_forM fun c hc _ hsize => Lexicon.plants_endRun c.1
    (hbody c hc ▸ Nat.lt_of_lt_of_le htop'.lt hsize)).plants hled.forest hends
  refine hled.spared hplants.1.forest (Assembly.spares_forM fun c hc =>
    Lexicon.spares_endRun c.1 ?_) hends
  rw [hbody c hc]
  exact ⟨not_stems_of_isTop htop', htop'.ne_root⟩

/-- The openers of runs. -/
theorem buildMatchers (h : d.Sealed lexicon done) (hp : lexicon.IsPlain matchers)
    (hproper : lexicon.Proper matchers) (hy : (lexicon.buildMatchers matchers).Yields d ⟨⟩ d') :
    d'.Sealed lexicon fun t => done t ∨ ∃ m ∈ matchers, m.terminator ≠ none ∧ t = m.startsWith := by
  refine hy.forM_adds (fun done d => d.Sealed lexicon done) (fun hfewer h => h.mono hfewer)
    (fun m t => m.terminator ≠ none ∧ t = m.startsWith) (fun m hm done d₁ d₂ h₁ hy₁ => ?_) done h
  split at hy₁
  · next hnone =>
    exact (h₁.buildKeyword (hp.words (.opener hm hnone)) hy₁).mono fun t ht =>
      ht.resolve_right fun hopener => hopener.1 hnone
  · next terminator hterminator =>
    have hhead := (hp.openers m hm (by rw [hterminator]; simp)).head (hproper.opener hm)
    exact (h₁.buildRun hhead hterminator hy₁).mono fun t ht => ht.imp_right And.right

/-- The delimiters and the punctuation. -/
theorem definitions {f : Definition → String → Assembly PUnit} {ds : List Definition}
    (h : d.Sealed lexicon done)
    (hf : ∀ definition ∈ ds, ∀ literal ∈ definition.literals,
      ∀ {done : String → Prop} {d₁ d₂ : Draft}, d₁.Sealed lexicon done →
        (f definition literal).Yields d₁ ⟨⟩ d₂ → d₂.Sealed lexicon fun t => done t ∨ t = literal)
    (hy : (ds.forM fun definition => definition.literals.forM (f definition)).Yields d ⟨⟩ d') :
    d'.Sealed lexicon fun t => done t ∨ t ∈ literalsOf ds :=
  hy.forM_definitions (fun done d => d.Sealed lexicon done) (fun hfewer h => h.mono hfewer)
    (fun definition hd literal hl _ _ _ h₁ hy₁ => hf definition hd literal hl h₁ hy₁) done h

end Sealed

end Draft

/-! ### The finished automaton -/

namespace Draft.Stages

variable {lexicon : Lexicon} {matchers : List (GreedyMatcher Compilation)} {d' : Draft} {n : NodeId}
  {t : String}

/-- Complete text leaves the ends of literals that are no words. -/
theorem leaves (h : Stages lexicon matchers d') (hp : lexicon.IsPlain matchers)
    (hproper : lexicon.Proper matchers) (ht : lexicon.Signs matchers t)
    (hn : (lexicon.finish d').trie.follow? .root (spelling t.toList) = some n) :
    ((lexicon.finish d').behaviour n).Leaves := by
  obtain @⟨d₁, d₂, d₃, d₄, d₅, place₁, place₂, place₃, place₄, place₅, hcategories, -, hkeywords,
    h₂, hruns, -, hdelimiters, -, hpunctuation, h₅, hpointed⟩ := h
  obtain ⟨hp₁, -⟩ := (Lexicon.plants_buildCategories (by decide)).plants forest_start hcategories
  have hpos₁ := Nat.lt_of_lt_of_le (show NodeId.root < start.trie.size by decide) hp₁.size
  obtain ⟨hp₂, -⟩ := (Lexicon.plants_buildKeywords hpos₁).plants hp₁.forest hkeywords
  have hsealed₂ : d₂.Sealed lexicon fun _ => False :=
    ⟨hp₂.forest, Nat.lt_of_lt_of_le (by decide) h₂.size, False.elim, False.elim⟩
  have hmark {t : String} (ht : t ∈ literalsOf lexicon.delimiters ++ literalsOf lexicon.punctuation)
      (hne : t ≠ "") := (hp.marks t ht).head hne
  have hsealed₄ := (hsealed₂.buildMatchers hp hproper hruns).definitions
    (fun definition hd literal hl _ _ _ h₁ hy₁ => h₁.buildDelimiter
      (hmark (List.mem_append_left _ (List.mem_flatMap.2 ⟨definition, hd, hl⟩))
        (hproper.delimiter (List.mem_flatMap.2 ⟨definition, hd, hl⟩))) hy₁) hdelimiters
  have hsealed₅ := hsealed₄.definitions
    (fun definition hd literal hl _ _ _ h₁ hy₁ => h₁.buildMark
      (hmark (List.mem_append_right _ (List.mem_flatMap.2 ⟨definition, hd, hl⟩))
        (hproper.punctuation (List.mem_flatMap.2 ⟨definition, hd, hl⟩))) hy₁) hpunctuation
  obtain ⟨face, hface, ⟨role, hclaim, -⟩, hleaves⟩ :
      ∃ face, d₅.below .root (spelling t.toList) = some face ∧ face.IsSealed := by
    cases ht with
    | delimiter h => exact hsealed₅.seals (.inl (.inr h.mem_literalsOf))
    | punctuation h => exact hsealed₅.seals (.inr h.mem_literalsOf)
    | opener hm ht => exact hsealed₅.seals (.inl (.inl (.inr ⟨_, hm, ht, rfl⟩)))
  obtain ⟨k, hk, rfl⟩ := Option.map_eq_some_iff.1 hface
  have hroot {q : List Symbol} {j : NodeId} (hq : q ≠ []) (hj : d₅.trie.follow? .root q = some j) :
      j ≠ .root := by
    rintro rfl
    exact hsealed₅.forest.not_follow?_self hq hj
  have hfinishes := h₅.finishes hpointed
  -- The decimal point is bound at the root, where no literal that is no word begins with it.
  have hfollow : (lexicon.finish d').trie.follow? .root (spelling t.toList) =
      d₅.trie.follow? .root (spelling t.toList) := by
    refine Trie.follow?_of_child? fun front s back j hpath hj => ?_
    rw [hfinishes.child?, if_neg]
    rintro ⟨-, rfl, rfl⟩
    cases front with
    | nil =>
      have hhead := head?_spelling.1
        (show (spelling t.toList).head? = some (.char '.') by rw [hpath]; rfl)
      exact (hp.signs ht _ hhead).1 rfl
    | cons u front => exact hroot (List.cons_ne_nil u front) hj rfl
  obtain rfl : k = n := Option.some.inj (hk.symm.trans (hfollow.symm.trans hn))
  rcases hfinishes.fallback (hroot (spelling_ne_nil _) hk) with hsame | ⟨hnone, -⟩
  · rw [Behaviour.Leaves, hfinishes.action, hsame]
    exact hleaves
  · cases hclaim.symm.trans hnone

end Draft.Stages

end TrieLexer
