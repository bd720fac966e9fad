import TrieLexer.Proofs.Bodies
import TrieLexer.Proofs.Wordless

/-!
# What building punctuation leaves behind

Where nothing else begins as punctuation does, the root has no children for the first characters of
punctuation when the literals are spelled, one after the other. Then each literal releases its text
under the label that it was listed under last, and new nodes on the way lead to unknown text.
Nothing is pruned below a literal, because only longer literals stand there.

## Main definitions

* `Lexicon.Heads` — the symbols that punctuation begins with.
* `Lexicon.markLabels`, `labelAt?` — the literals with their labels, and the last label of one.
* `standingMark` — what the literals leave at a path from the root.
* `Draft.Marked` — a draft in which this stands below the root.

## Main results

* `Draft.Marked.buildMark` — one literal.
* `Lexicon.faces_assemble` — the punctuation of an automaton.
-/

namespace TrieLexer

/-- The symbols that punctuation begins with. -/
def Lexicon.Heads (lexicon : Lexicon) (s : Symbol) : Prop :=
  ∃ t ∈ literalsOf lexicon.punctuation, ∃ c, t.toList.head? = some c ∧ s = .char c

/-- The punctuation literals with their labels, in their order. -/
def Lexicon.markLabels (lexicon : Lexicon) : List (String × Label) :=
  labelled lexicon.punctuation lexicon.labels.punctuation

/-! ### What stands at a path -/

/-- The label that the literal at a path has been listed under last. -/
def labelAt? (marks : List (String × Label)) (q : List Symbol) : Option Label :=
  (marks.filter fun p => spelling p.1.toList = q).getLast?.map Prod.snd

/-- The end of a punctuation literal, which releases its text. -/
def Face.mark (label : Label) : Face := ⟨.release label, .none, some (.punctuation label)⟩

/-- What punctuation leaves at a path from the root. -/
def standingMark (marks : List (String × Label)) (q : List Symbol) : Option Face :=
  match labelAt? marks q with
  | some label => some (.mark label)
  | none => if ∃ p ∈ marks, q <+: spelling p.1.toList then some .through else none

section

variable {marks : List (String × Label)} {t : String} {label : Label} {q : List Symbol}

theorem labelAt?_concat : labelAt? (marks ++ [(t, label)]) q =
    if q = spelling t.toList then some label else labelAt? marks q := by
  rw [labelAt?, List.filter_append]
  split
  · next heq => simp [heq]
  · next hne => simp [Ne.symm hne, labelAt?]

theorem exists_mem_of_labelAt? (h : labelAt? marks q = some label) :
    ∃ p ∈ marks, q = spelling p.1.toList ∧ p.2 = label := by
  obtain ⟨p, hp, rfl⟩ := Option.map_eq_some_iff.1 h
  obtain ⟨hmem, heq⟩ := List.mem_filter.1 (List.mem_of_getLast? hp)
  exact ⟨p, hmem, (of_decide_eq_true heq).symm, rfl⟩

theorem exists_labelAt? {p : String × Label} (hp : p ∈ marks) :
    ∃ label, labelAt? marks (spelling p.1.toList) = some label := by
  cases hlast : labelAt? marks (spelling p.1.toList) with
  | some label => exact ⟨label, rfl⟩
  | none =>
    have hnil := List.getLast?_eq_none_iff.1 (Option.map_eq_none_iff.1 hlast)
    exact absurd (decide_eq_true rfl) (List.filter_eq_nil_iff.1 hnil p hp)

theorem standingMark_spelling {p : String × Label} (hp : p ∈ marks) :
    ∃ label, standingMark marks (spelling p.1.toList) = some (.mark label) := by
  obtain ⟨label, hlabel⟩ := exists_labelAt? hp
  exact ⟨label, by rw [standingMark, hlabel]⟩

/-- Something stands on the way to a literal and nowhere else. -/
theorem exists_of_standingMark_ne_none (h : standingMark marks q ≠ none) :
    ∃ p ∈ marks, q <+: spelling p.1.toList := by
  rw [standingMark] at h
  split at h
  · next hlabel =>
    obtain ⟨p, hp, rfl, -⟩ := exists_mem_of_labelAt? hlabel
    exact ⟨p, hp, List.prefix_rfl⟩
  · split at h
    · next hway => exact hway
    · exact absurd rfl h

theorem standingMark_concat_self :
    standingMark (marks ++ [(t, label)]) (spelling t.toList) = some (.mark label) := by
  rw [standingMark, labelAt?_concat, if_pos rfl]

theorem standingMark_concat_way (hq : q <+: spelling t.toList) (hne : q ≠ spelling t.toList) :
    standingMark (marks ++ [(t, label)]) q = some ((standingMark marks q).getD .through) := by
  rw [standingMark, labelAt?_concat, if_neg hne, standingMark]
  cases labelAt? marks q with
  | some label => rfl
  | none =>
    dsimp only
    rw [if_pos ⟨_, List.mem_append_right _ (List.mem_singleton_self _), hq⟩]
    split <;> rfl

theorem standingMark_concat_rest (hq : ¬q <+: spelling t.toList) :
    standingMark (marks ++ [(t, label)]) q = standingMark marks q := by
  have hne : q ≠ spelling t.toList := by
    rintro rfl
    exact hq List.prefix_rfl
  have hway : (∃ p ∈ marks ++ [(t, label)], q <+: spelling p.1.toList) ↔
      ∃ p ∈ marks, q <+: spelling p.1.toList := by
    simp [or_and_right, exists_or, hq]
  rw [standingMark, labelAt?_concat, if_neg hne, standingMark]
  cases labelAt? marks q with
  | some label => rfl
  | none => exact if_congr hway rfl rfl

end

/-! ### Building punctuation -/

namespace Lexicon

variable {lexicon : Lexicon} {d d' : Draft} {n : NodeId} {literal : String}

theorem map_fst_markLabels (lexicon : Lexicon) :
    lexicon.markLabels.map Prod.fst = literalsOf lexicon.punctuation :=
  map_fst_labelled lexicon.punctuation lexicon.labels.punctuation

theorem mem_markLabels {p : String × Label} (hp : p ∈ lexicon.markLabels) :
    p.1 ∈ literalsOf lexicon.punctuation :=
  lexicon.map_fst_markLabels ▸ List.mem_map_of_mem hp

/-- A loop over pairs that only looks at their first parts. -/
theorem forM_fst {α β : Type} {f : α × β → Assembly PUnit} {g : α → Assembly PUnit}
    {xs : List (α × β)} (h : ∀ x ∈ xs, f x = g x.1) : xs.forM f = (xs.map Prod.fst).forM g := by
  induction xs with
  | nil => rfl
  | cons x xs ih =>
    rw [List.forall_mem_cons] at h
    change (f x >>= fun _ => xs.forM f) = (g x.1 >>= fun _ => (xs.map Prod.fst).forM g)
    rw [h.1, ih h.2]

/-- The beginnings of a literal that does not begin as identifiers do lead to unknown text. -/
theorem lays_rootPath (h : d.trie.Forest) (hpos : NodeId.root < d.trie.size)
    (hplain : ∀ c ∈ literal.toList.head?, lexicon.identifierStart.contains c = false)
    (hy : (lexicon.rootPath literal).Yields d n d') :
    d.Lays .root [] (spelling literal.toList) .through d' ∧
      d'.trie.follow? .root (spelling literal.toList) = some n := by
  obtain ⟨steps, d₁, hpath, hy⟩ := Assembly.yields_bind.1 hy
  obtain ⟨⟨⟩, d₂, hloop, hy⟩ := Assembly.yields_bind.1 hy
  have hshaped (i : Nat) : lexicon.isIdentifierShaped (literal.toList.take i) = false := by
    cases hlist : literal.toList with
    | nil => rw [List.take_nil]; rfl
    | cons c cs =>
      cases i with
      | zero => rfl
      | succ i => rw [List.take_succ_cons, isIdentifierShaped, hplain c (by rw [hlist]; rfl)]; rfl
  have hre : (rerouteCreated steps .unknown).Yields d₁ ⟨⟩ d₂ := by
    rw [forM_fst (g := fun step => if step.created then
        Assembly.modifyBehaviour step.node fun b => { b with fallback := .reroute .unknown }
      else pure ())] at hloop
    · have hfst : (properPrefixes literal steps).map Prod.fst = steps.dropLast := by
        rw [properPrefixes, List.map_map]
        exact List.zipIdx_map_fst 0 _
      rwa [hfst] at hloop
    · rintro ⟨step, text⟩ hmem
      obtain ⟨⟨_, i⟩, -, heq⟩ := List.mem_map.1 hmem
      cases heq
      dsimp only
      rw [String.toList_ofList, hshaped]
      cases step.created <;> rfl
  obtain ⟨hlays, last, hlast, hnode⟩ := Draft.lays_rerouteCreated (p := []) h hpos rfl hpath hre
  obtain ⟨rfl, rfl⟩ := Assembly.yields_pure.1 hy
  rw [hlast]
  exact ⟨hlays, hnode⟩

end Lexicon

namespace Draft

variable {lexicon : Lexicon} {d d' : Draft} {n : NodeId} {heads : Symbol → Prop}
  {marks ps : List (String × Label)} {literal : String} {label : Label}

/-- Nothing is pruned where all paths lead on to claimed nodes. -/
theorem pruneBoundaries_eq_self (hsorted : (d.trie.edges n).Sorted)
    (h : ∀ s m, d.trie.child? n s = some m → ∃ path k role, d.trie.follow? m path = some k ∧
      d.claim? k = some role ∧ role.isBoundary = false) : d.pruneBoundaries n = d := by
  have hkeep : ∀ e ∈ d.trie.edges n, d.pruneBoundary n e = d := by
    intro e he
    obtain ⟨path, k, role, hp, hc, hr⟩ := h e.1 e.2 (hsorted.find?_of_mem he)
    rw [pruneBoundary, if_neg]
    intro honly
    rw [isBoundary_of_follow? honly hp hc] at hr
    cases hr
  rw [pruneBoundaries]
  generalize d.trie.edges n = edges at hkeep
  induction edges with
  | nil => rfl
  | cons e edges ih =>
    rw [List.forall_mem_cons] at hkeep
    rw [List.foldl_cons, hkeep.1, ih hkeep.2]

/-- A draft with punctuation below the root, and nothing else that begins so. -/
structure Marked (d : Draft) (heads : Symbol → Prop) (marks : List (String × Label)) : Prop where
  forest : d.trie.Forest
  pos : NodeId.root < d.trie.size
  below {s : Symbol} (hs : heads s) (q : List Symbol) :
    d.below .root (s :: q) = standingMark marks (s :: q)

/-- What is not built yet is not there. -/
theorem marked_nil (hforest : d.trie.Forest) (hpos : NodeId.root < d.trie.size)
    (hroot : ∀ s, heads s → d.trie.child? .root s = none) : d.Marked heads [] := by
  refine ⟨hforest, hpos, fun {s} hs q => ?_⟩
  rw [below, Trie.follow?_cons, hroot s hs]
  simp [standingMark, labelAt?]

namespace Marked

/-- One punctuation literal. -/
theorem buildMark (h : d.Marked heads marks)
    (hplain : ∀ c ∈ literal.toList.head?, lexicon.identifierStart.contains c = false)
    (hhead : ∀ s ∈ (spelling literal.toList).head?, heads s)
    (hy : (lexicon.buildMark label literal).Yields d ⟨⟩ d') :
    d'.Marked heads (marks ++ [(literal, label)]) := by
  obtain ⟨n, d₁, hroot, hy⟩ := Assembly.yields_bind.1 hy
  obtain ⟨ok, d₂, hclaim, hy⟩ := Assembly.yields_bind.1 hy
  obtain ⟨hlays, hn⟩ := Lexicon.lays_rootPath h.forest h.pos hplain hroot
  have hpos₁ := Nat.lt_of_lt_of_le h.pos hlays.size
  have hlt := hlays.forest.lt_size_of_follow? hpos₁ hn
  obtain ⟨rfl, hclaimed⟩ := alters_claim hlays.forest hlt hn hclaim nofun
  have hforest₂ := hclaimed.forest hlays.forest
  have hn₂ := (hclaimed.follow? _).trans hn
  obtain ⟨s₀, rest, hspell⟩ := List.exists_cons_of_ne_nil (spelling_ne_nil literal.toList)
  have hs₀ : heads s₀ := hhead s₀ (by rw [hspell]; rfl)
  -- Beyond the literal stands what stood there before.
  have hbeyond {q : List Symbol} (hq : q ≠ []) :
      d₂.below .root (spelling literal.toList ++ q) =
        standingMark marks (spelling literal.toList ++ q) := by
    rw [hclaimed.off (by simpa using hq), hlays.rest, hspell, List.cons_append, h.below hs₀]
    rintro ⟨r, -, hr, heq⟩
    have hle := hr.length_le
    rw [← List.nil_append r, ← heq, List.length_append] at hle
    exact hq (List.length_eq_zero_iff.1 (by omega))
  have hprune : d₂.pruneBoundaries n = d₂ := by
    refine pruneBoundaries_eq_self (hforest₂.sorted n) fun s m hc => ?_
    have hm : d₂.trie.follow? .root (spelling literal.toList ++ [s]) = some m := by
      rw [Trie.follow?_concat, hn₂]
      exact hc
    have hthere : standingMark marks (spelling literal.toList ++ [s]) ≠ none := by
      rw [← hbeyond (List.cons_ne_nil _ _), Draft.below, hm]
      simp
    obtain ⟨p, hp, more, hmore⟩ := exists_of_standingMark_ne_none hthere
    obtain ⟨label', hmark⟩ := standingMark_spelling hp
    rw [← hmore, List.append_assoc] at hmark
    have hface := hbeyond (q := [s] ++ more) (by simp)
    rw [hmark, Draft.below, ← List.append_assoc, Trie.follow?_append, hm, Option.map_eq_some_iff]
      at hface
    obtain ⟨k, hk, hk'⟩ := hface
    exact ⟨more, k, _, hk, congrArg Face.claim hk', rfl⟩
  obtain ⟨⟨⟩, d₃, hpruned, hy⟩ := Assembly.yields_bind.1 hy
  obtain rfl := Assembly.yields_modify.1 hpruned
  obtain rfl := Assembly.yields_modify.1 hy
  rw [hprune]
  have hbehave := alters_modifyBehaviour hforest₂ hn₂ (hclaimed.size ▸ hlt)
    (f := fun b => { b with action := .none, fallback := .release label })
    (φ := fun face => { face with action := .none, fallback := .release label }) fun _ => rfl
  refine ⟨hbehave.forest hforest₂, by rw [hbehave.size, hclaimed.size]; exact hpos₁,
    fun {s} hs q => ?_⟩
  by_cases heq : s :: q = spelling literal.toList
  · have hlast := hlays.last
    rw [List.nil_append] at hlast
    rw [hbehave.on heq, hclaimed.on heq, heq, hlast, standingMark_concat_self]
    rfl
  · rw [hbehave.off heq, hclaimed.off heq]
    by_cases hway : s :: q <+: spelling literal.toList
    · have hfront := hlays.way (List.cons_ne_nil s q) hway heq
      rw [List.nil_append] at hfront
      rw [hfront, h.below hs, standingMark_concat_way hway heq]
    · rw [hlays.rest, h.below hs, standingMark_concat_rest hway]
      rintro ⟨r, -, hr, heq'⟩
      exact hway (heq' ▸ hr)

/-- All punctuation. -/
theorem forM_buildMark (h : d.Marked heads marks)
    (hplain : ∀ p ∈ ps, ∀ c ∈ p.1.toList.head?, lexicon.identifierStart.contains c = false)
    (hheads : ∀ p ∈ ps, ∀ s ∈ (spelling p.1.toList).head?, heads s)
    (hy : (ps.forM fun p => lexicon.buildMark p.2 p.1).Yields d ⟨⟩ d') :
    d'.Marked heads (marks ++ ps) := by
  induction ps generalizing d marks with
  | nil =>
    obtain ⟨-, rfl⟩ := Assembly.yields_pure.1 hy
    rwa [List.append_nil]
  | cons p ps ih =>
    obtain ⟨⟨⟩, d₁, hfirst, hy⟩ := Assembly.yields_bind.1 hy
    rw [List.forall_mem_cons] at hplain hheads
    have hrest := ih (h.buildMark hplain.1 hheads.1 hfirst) hplain.2 hheads.2 hy
    rwa [List.append_assoc] at hrest

end Marked

end Draft

/-! ### The finished automaton -/

namespace Trie

/-- The nodes on paths from the root that begin with certain symbols. -/
def Stems {α : Type} (t : Trie α) (heads : Symbol → Prop) (n : NodeId) : Prop :=
  ∃ s q, heads s ∧ t.follow? .root (s :: q) = some n

theorem Stems.child {α : Type} {t : Trie α} {heads : Symbol → Prop} {n m : NodeId} {s : Symbol}
    (h : t.Stems heads n) (hc : t.child? n s = some m) : t.Stems heads m := by
  obtain ⟨u, q, hu, hq⟩ := h
  refine ⟨u, q ++ [s], hu, ?_⟩
  rw [← List.cons_append, follow?_concat, hq]
  exact hc

/-- The nodes on such paths stand apart. -/
theorem Forest.apart_stems {t : Trie Site} (h : t.Forest) (hpos : NodeId.root < t.size)
    (heads : Symbol → Prop) : t.Apart (t.Stems heads) heads where
  pos := hpos
  root := by
    rintro ⟨s, q, -, hq⟩
    exact h.not_follow?_self (List.cons_ne_nil _ _) hq
  lt := by
    rintro n ⟨s, q, -, hq⟩
    exact h.lt_size_of_follow? hpos hq
  edge {n e} hn hs he := by
    have hc : t.child? n e.1 = some e.2 := (h.sorted n).find?_of_mem he
    refine ⟨?_, Nat.ne_of_gt (Nat.zero_lt_of_lt (h.up hc).1)⟩
    rintro ⟨s, q, hs', hq⟩
    rcases q.eq_nil_or_concat with rfl | ⟨p, u, rfl⟩
    · rw [follow?_cons] at hq
      obtain ⟨m, hm, ⟨⟩⟩ := Option.bind_eq_some_iff.1 hq
      obtain ⟨rfl, rfl⟩ := h.parent hc hm
      exact hs rfl hs'
    · rw [List.concat_eq_append, ← List.cons_append, follow?_concat] at hq
      obtain ⟨k, hk, hke⟩ := Option.bind_eq_some_iff.1 hq
      obtain ⟨rfl, -⟩ := h.parent hc hke
      exact hn ⟨s, p, hs', hk⟩

end Trie

namespace Lexicon

variable {lexicon : Lexicon} {matchers : List (GreedyMatcher Compilation)} {a : Automaton}

theorem heads_of_mem {t : String} (ht : t ∈ literalsOf lexicon.punctuation) (hne : t ≠ "") :
    ∀ s ∈ (spelling t.toList).head?, lexicon.Heads s := by
  intro s hs
  cases hlist : t.toList with
  | nil => exact absurd (String.toList_inj.1 hlist) hne
  | cons c cs =>
    rw [hlist, spelling_cons] at hs
    exact ⟨t, ht, c, by rw [hlist]; rfl, (Option.some.inj hs).symm⟩

/-- The punctuation of an automaton is what was built, where nothing else begins so. -/
theorem faces_assemble (h : (lexicon.assemble matchers).result = .ok a)
    (hproper : ∀ t ∈ literalsOf lexicon.punctuation, t ≠ "")
    (hplain : ∀ t ∈ literalsOf lexicon.punctuation, ∀ c ∈ t.toList.head?,
      lexicon.identifierStart.contains c = false)
    (hkeyword : ∀ t ∈ literalsOf lexicon.keywords, Admits lexicon.Heads t)
    (hopener : ∀ m ∈ matchers, Admits lexicon.Heads m.startsWith)
    (hdelimiter : ∀ t ∈ literalsOf lexicon.delimiters, Admits lexicon.Heads t)
    (hpoint : ¬lexicon.Heads (.char '.')) {s : Symbol} (hs : lexicon.Heads s) (q : List Symbol) :
    a.Faces .root (s :: q) (standingMark lexicon.markLabels (s :: q)) := by
  obtain ⟨d, hy, rfl⟩ := yields_assemble h
  obtain @⟨d₁, d₂, d₃, d₄, d₅, place₁, place₂, place₃, place₄, place₅, hcategories, -, hkeywords, -,
    hruns, h₃, hdelimiters, -, hpunctuation, h₅, hpointed⟩ := stages_build hy
  obtain ⟨hp₁, -⟩ := (plants_buildCategories (by decide)).plants Draft.forest_start hcategories
  have hpos₁ := Nat.lt_of_lt_of_le (show NodeId.root < Draft.start.trie.size by decide) hp₁.size
  obtain ⟨hp₂, -⟩ := (plants_buildKeywords hpos₁).plants hp₁.forest hkeywords
  obtain ⟨hf₃, -⟩ :=
    Draft.holds_buildMatchers hp₂.forest (Nat.lt_of_lt_of_le hpos₁ hp₂.size) hruns
  obtain ⟨hp₄, -⟩ := (plants_buildDelimiters h₃.root_lt_size).plants hf₃ hdelimiters
  -- Nothing that is built before the punctuation begins so.
  have hapart₁ : d₁.trie.Apart (fun _ => False) lexicon.Heads :=
    (hp₁.forest.apart_nothing hpos₁).mono fun _ => False.elim
  have hs₂ := ((spares_buildKeywords id hkeyword).spares hapart₁ hkeywords).1
  have hs₃ := ((spares_buildMatchers id hopener).spares hs₂.apart hruns).1
  have hs₄ := ((spares_buildDelimiters id hdelimiter).spares hs₃.apart hdelimiters).1
  have hroot₄ (s : Symbol) (hs : lexicon.Heads s) : d₄.trie.child? .root s = none := by
    rw [((hs₂.trans hs₃).trans hs₄).root hs]
    exact (Draft.wordless_buildCategories hcategories).root s
  rw [buildPunctuation, forM_labelled] at hpunctuation
  have hmarked := (Draft.marked_nil hp₄.forest
    (Nat.lt_of_lt_of_le h₃.root_lt_size hp₄.size) hroot₄).forM_buildMark
    (fun p hp => hplain p.1 (mem_markLabels hp))
    (fun p hp => heads_of_mem (mem_markLabels hp) (hproper p.1 (mem_markLabels hp))) hpunctuation
  rw [List.nil_append] at hmarked
  have hapart₅ : d₅.Apart (d₅.trie.Stems lexicon.Heads) lexicon.Heads := by
    refine ⟨hmarked.forest.apart_stems hmarked.pos _, fun o ho => ?_⟩
    obtain ⟨m, nested, hb, hn⟩ := h₅.opener ho
    have hm := (h₅.body hb).2.2.1
    refine ⟨?_, fun hroot => ?_⟩
    · rintro ⟨u, p, hu, hp⟩
      have hplace := (h₅.follow? hp h₅.root_lt_size).2
      rw [hn, h₅.place_root, Locus.walk_of_origin_ne (by simp), List.nil_append] at hplace
      have hpath : spelling m.startsWith.toList = u :: p := congrArg Locus.path hplace
      exact hopener m hm u (by rw [hpath]; rfl) hu
    · rw [hroot, h₅.place_root] at hn
      exact spelling_ne_nil _ (congrArg Locus.path hn).symm
  rw [← hmarked.below hs q]
  refine (shows_finish hapart₅ hpoint hpointed).faces_root (fun hn hc => Trie.Stems.child hn hc) hs
    (fun m hm => ⟨s, [], hs, ?_⟩) q
  rw [Trie.follow?_cons, hm]
  rfl

end Lexicon

end TrieLexer
