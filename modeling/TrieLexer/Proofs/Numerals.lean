import TrieLexer.Proofs.Plain
import TrieLexer.Proofs.Wordless

/-!
# The nodes of numbers

Where nothing but numbers begins with a digit, the nodes of numbers are what they were when they
were built: the path of each terminator, and the end of input, below the node of whole numbers and
below the node of numbers with a point. The second is the child of the first under the point. So the
path of a terminator that begins with a point goes through the node of numbers with a point, and
goes on among the paths of the terminators after those numbers. Each of them ends a token where no
other takes its place: where what goes on after the point at the beginning of a mark, and another
mark, are never beginnings of each other.

## Main definitions

* `Draft.Counted` — a draft whose categories have just been built, below the nodes of numbers.
* `StateGraph.Counts` — an automaton that has the numbers of a draft.
* `Grammar.DigitsApart` — nothing but numbers begins with a digit.
* `Lexicon.Foremost` — a terminator that no other terminator begins.
* `Lexicon.PointsApart` — the marks that begin with a point go on apart from all marks.
* `StateGraph.Halts` — a path with nothing on it before its end, where a token ends.

## Main results

* `Grammar.counts_compile` — the numbers of a compiled grammar are as they were built.
* `StateGraph.Counts.halts_number`, `StateGraph.Counts.halts_float` — a foremost terminator ends a
  number, and a number with a point.
-/

namespace TrieLexer

open Text (byteLength)

/-- Where conflicts are rejected, a claim is carried out only on a node without another strong
role. -/
theorem Assembly.Yields.claim_reject {n : NodeId} {literal : String} {role r : Role} {d d' : Draft}
    (hy : (Assembly.claim .reject n literal role).Yields d true d') (hr : d.claim? n = some r) :
    r = role ∨ r.isWeak = true := by
  obtain ⟨_, _, hget, hrest⟩ := yields_bind.1 hy
  obtain ⟨rfl, rfl⟩ := yields_get.1 hget
  clear hy
  split at hrest
  · next hnone => cases hnone.symm.trans hr
  · next existing hexisting =>
    cases hexisting.symm.trans hr
    split at hrest
    · next heq => exact .inl heq
    · split at hrest
      · next hweak => exact .inr hweak
      · split at hrest
        · cases (yields_pure.1 hrest).1
        · exact absurd hrest not_yields_throw

/-! ### Nodes of numbers -/

namespace Draft

open Assembly (yields_bind yields_modify)

variable {lexicon : Lexicon} {matchers : List (GreedyMatcher Compilation)} {pointed : Prop}
  {marked : String → Prop} {loose : NodeId → Prop} {d d' : Draft} {place : NodeId → Locus}
  {q : List Symbol}

/-- The nodes of whole numbers and of numbers with a point. -/
def Numeric (d : Draft) (place : NodeId → Locus) (n : NodeId) : Prop :=
  n < d.trie.size ∧ ((place n).origin = .number ∨ (place n).origin = .float)

namespace Charted

theorem numeric_number (h : Charted lexicon matchers pointed marked loose d place) :
    d.Numeric place .number := by
  have hbody : ¬Origin.number.IsBody := Origin.not_isBody_of_mem (by simp)
  exact ⟨h.origin_lt_size hbody, .inl (congrArg Locus.origin (h.origin hbody))⟩

theorem closed_numeric (h : Charted lexicon matchers pointed marked loose d place) :
    d.Closed (d.Numeric place) := by
  intro n m s hn hc
  obtain ⟨hlt, hm⟩ := h.child hc
  refine ⟨hlt, ?_⟩
  rw [hm]
  obtain hd | ⟨-, -, hd⟩ := (place n).down_eq_or s
  · exact hd ▸ hn.2
  · exact hd ▸ .inr rfl

/-- Only the node of whole numbers leads to the node of numbers with a point. -/
theorem apart_numeric (h : Charted lexicon matchers pointed marked loose d place)
    (hopeners : d.openers = []) (out : Symbol → Prop) : d.Apart (d.Numeric place) out where
  trie :=
    { pos := h.root_lt_size
      root := fun hk => by
        rw [Numeric, h.place_root] at hk
        simp at hk
      lt := fun hk => hk.1
      edge := fun {n x} hn _ hx => by
        have hc := (h.sorted n).find?_of_mem hx
        refine ⟨fun hk => hn ⟨Trie.lt_size_of_edges_ne (List.ne_nil_of_mem hx), ?_⟩,
          h.ne_root_of_child? hc⟩
        rw [Numeric, (h.child hc).2] at hk
        obtain hd | ⟨hp, -, -⟩ := (place n).down_eq_or x.1
        · rw [hd] at hk
          exact hk.2
        · exact hp ▸ .inl rfl }
  opener := by simp [hopeners]

theorem free_numeric (h : Charted lexicon matchers pointed marked loose d place) {o : Origin}
    (ho : o = .unknown ∨ o = .identifier) : Trie.Free (d.Numeric place) o.node := by
  refine ⟨fun hk => ?_, ?_⟩
  · rw [Numeric, h.origin (Origin.not_isBody_of_mem (by rcases ho with rfl | rfl <;> simp))] at hk
    rcases ho with rfl | rfl <;> simp at hk
  · rcases ho with rfl | rfl <;> nofun

/-- The ends of unknown text and of identifiers are built apart from the numbers. -/
theorem below_endCategory (h : Charted lexicon [] pointed marked loose d place) {o : Origin}
    (ho : o = .unknown ∨ o = .identifier) {label : Label} {weak : Bool}
    (hy : (lexicon.endBeforeTerminators o.node label weak).Yields d ⟨⟩ d') (q : List Symbol) :
    d'.below .number q = d.below .number q :=
  below_of_spares ((Lexicon.spares_endBeforeTerminators (h.free_numeric ho) _ _).keeps
    (h.apart_numeric h.openers_eq_nil fun _ => False) hy).2.1 h.closed_numeric h.numeric_number q

end Charted

/-- What the open-ended categories leave behind below whole numbers. The ends of numbers with a
point are built over those of whole numbers. -/
structure Counted (lexicon : Lexicon) (d : Draft) : Prop where
  number : d.below .number [] = some { fallback := .classify .digit .number .unknown }
  float : d.below .number [.char '.'] =
    some ⟨.classify .digit .float .unknown, .none, some .decimalPoint⟩
  whole {q : List Symbol} (hq : q ≠ []) (hpoint : q.head? ≠ some (.char '.')) :
    d.below .number q = lexicon.ending lexicon.labels.number false q
  decimal : ∃ e : Draft, (∀ q, q ≠ [] → e.below .number (.char '.' :: q) =
      lexicon.ending lexicon.labels.number false (.char '.' :: q)) ∧
    e.Overwrites .number [.char '.'] lexicon.labels.decimal false lexicon.terminators d
  unended (h : lexicon.conflicts = .reject) : "." ∉ lexicon.terminators

/-- In the beginning only the point stands below whole numbers. -/
theorem below_number_start (hq : q ≠ []) (hpoint : q ≠ [.char '.']) :
    start.beginCategories.below .number q = none := by
  obtain ⟨s, q, rfl⟩ := List.exists_cons_of_ne_nil hq
  have hchild (n : NodeId) (u : Symbol) : start.beginCategories.trie.child? n u =
      (start.trie.edges n).find? u := by
    simp only [beginCategories, modifyBehaviour, Trie.child?_modifyContent]
    rfl
  rw [below_eq_none, Trie.follow?_cons, hchild, edges_start, if_pos rfl, Edges.find?_cons]
  split
  · next hs =>
    subst hs
    obtain ⟨u, q, rfl⟩ := List.exists_cons_of_ne_nil fun hnil : q = [] => hpoint (hnil ▸ rfl)
    change start.beginCategories.trie.follow? .float (u :: q) = none
    rw [Trie.follow?_cons, hchild, edges_start, if_neg (by decide)]
    rfl
  · rfl

theorem counted_buildCategories (hy : lexicon.buildCategories.Yields .start ⟨⟩ d) :
    d.Counted lexicon := by
  have hbody {o : Origin} (ho : o = .unknown ∨ o = .identifier ∨ o = .number ∨ o = .float) :
      ¬o.IsBody := Origin.not_isBody_of_mem (.inr ho)
  obtain ⟨chart, unknown, chart₁, identifier, chart₂, number, chart₃, claim, chart₄, float, -⟩ :=
    (@charted_start lexicon []).categories hy
  rename_i d₁ d₂ d₃ d₄ place₁ place₂ place₃ _
  have hcategories : start.beginCategories.trie.Forest :=
    forest_start.congr (by simp [beginCategories]) (by simp [beginCategories])
  have hends {o : Origin} {label : Label} {d d' : Draft} (hd : d.trie.Forest)
      (hsize : o.node < d.trie.size)
      (hy : (lexicon.endBeforeTerminators o.node label false).Yields d ⟨⟩ d') :
      d.Overwrites o.node [] label false lexicon.terminators d' :=
    overwrites_forM hd hsize rfl (by simp) hy
  have hover₁ := hends (o := .unknown) hcategories (chart.origin_lt_size (hbody (by simp))) unknown
  have hover₂ := hends (o := .identifier) hover₁.forest
    (chart₁.origin_lt_size (hbody (by simp))) identifier
  have hover₃ : d₂.Overwrites .number [] lexicon.labels.number false lexicon.terminators d₃ :=
    hends (o := .number) hover₂.forest (chart₂.origin_lt_size (hbody (by simp))) number
  have hsame (q : List Symbol) : d₂.below .number q = start.beginCategories.below .number q :=
    (chart₁.below_endCategory (.inr rfl) identifier q).trans
      (chart.below_endCategory (.inl rfl) unknown q)
  have hwhole {q : List Symbol} (hq : q ≠ []) (hpoint : q ≠ [.char '.']) :
      d₃.below .number q = lexicon.ending lexicon.labels.number false q :=
    hover₃.below_eq hq (.inl ((hsame q).trans (below_number_start hq hpoint)))
  have hnumber : NodeId.number < d₃.trie.size :=
    chart₃.origin_lt_size (o := .number) (hbody (by simp))
  have hp : d₃.trie.follow? .number [.char '.'] = some .float := by
    have hplace : place₃ .number = ⟨.number, []⟩ := chart₃.origin (o := .number) (hbody (by simp))
    rw [Trie.follow?_cons, chart₃.decimal hplace]
    rfl
  obtain ⟨-, hpoint⟩ := alters_assign hover₃.forest chart₃.float_lt_size hp claim (by rintro ⟨⟩)
    (f := fun b => { b with action := .none, fallback := .classify .digit .float .unknown })
    (φ := fun face => { face with action := .none, fallback := .classify .digit .float .unknown })
    fun _ => rfl
  change d₃.Alters .number _ _ d₄.beginDecimals at hpoint
  have hover₄ : d₄.beginDecimals.Overwrites .number [.char '.'] lexicon.labels.decimal false
      lexicon.terminators d :=
    overwrites_forM (hpoint.forest hover₃.forest) (hpoint.size ▸ hnumber)
      ((hpoint.follow? _).trans hp) (by simp) float
  refine ⟨?_, ?_, fun {q} hq hhead => ?_, ⟨d₄.beginDecimals, fun q hq => ?_, hover₄⟩, ?_⟩
  · rw [hover₄.rest (by rintro t - ⟨r, -, -, ⟨⟩⟩), hpoint.off (by simp),
      hover₃.rest fun t _ => not_along_self _ _, hsame]
    rfl
  · rw [hover₄.rest fun t _ => not_along_self _ _, hpoint.on rfl, below, hp]
    rfl
  · rw [hover₄.rest, hpoint.off, hwhole hq]
    · rintro rfl
      exact hhead rfl
    · rintro rfl
      exact hhead rfl
    · rintro t - ⟨r, -, -, rfl⟩
      exact hhead rfl
  · have hne : Symbol.char '.' :: q ≠ [.char '.'] := fun heq => hq (List.cons.inj heq).2
    rw [hpoint.off hne, hwhole (List.cons_ne_nil _ _) hne]
  · intro hreject hmem
    have hlast := hover₃.last hmem
    rw [below] at hlast
    obtain ⟨n, hn, hface⟩ := Option.map_eq_some_iff.1 hlast
    cases hp.symm.trans hn
    rw [hreject] at claim
    rcases claim.claim_reject (congrArg Face.claim hface) with ⟨⟨⟩⟩ | ⟨⟨⟩⟩

end Draft

/-! ### Grammars with digits of their own -/

/-- A digit. -/
def Symbol.IsDigit (s : Symbol) : Prop := ∃ c, s = .char c ∧ c.isDigit = true

/-- An automaton has the numbers of a draft. -/
structure StateGraph.Counts (g : StateGraph) (d : Draft) : Prop where
  root {c : Char} (hc : c.isDigit = true) : g.trie.child? .root (.char c) = none
  point : g.trie.child? .number (.char '.') = some .float
  faces (q : List Symbol) : g.Faces .number q (d.below .number q)

namespace Grammar

variable {g : Grammar} {a : Automaton}

/-- Nothing begins with a digit but numbers, and no mark goes on with a digit after a point. -/
structure DigitsApart (g : Grammar) : Prop where
  literal : ∀ t ∈ literalsOf g.keywords ++ literalsOf g.delimiters ++ literalsOf g.punctuation,
    ∀ c ∈ t.toList.head?, c.isDigit = false
  opener : ∀ m ∈ g.greedyMatchers, ∀ c ∈ m.startsWith.toList.head?, c.isDigit = false
  identifier : ∀ c : Char, c.isDigit = true → g.identifierStart.contains c = false
  point : ∀ t ∈ literalsOf g.delimiters ++ literalsOf g.punctuation, t.toList.head? = some '.' →
    ∀ c ∈ t.toList.tail.head?, c.isDigit = false

/-- The digits are ten characters. -/
theorem mem_of_isDigit {c : Char} (h : c.isDigit = true) : c ∈ "0123456789".toList := by
  simp only [Char.isDigit, Bool.and_eq_true, decide_eq_true_eq, UInt32.le_iff_toNat_le,
    ge_iff_le] at h
  obtain ⟨hlow, hhigh⟩ := h
  change 48 ≤ c.toNat at hlow
  change c.toNat ≤ 57 at hhigh
  obtain ⟨k, hk⟩ := Nat.exists_eq_add_of_le hlow
  have hall : ∀ k : Fin 10, Char.ofNat (48 + k) ∈ "0123456789".toList := by decide
  rw [← Char.ofNat_toNat c, hk]
  exact hall ⟨k, by omega⟩

theorem digitsApart_iff : g.DigitsApart ↔
    (∀ t ∈ literalsOf g.keywords ++ literalsOf g.delimiters ++ literalsOf g.punctuation,
      (t.toList.head?.all fun c => !c.isDigit) = true) ∧
    (∀ m ∈ g.greedyMatchers, (m.startsWith.toList.head?.all fun c => !c.isDigit) = true) ∧
    ("0123456789".toList.all fun c => !g.identifierStart.contains c) = true ∧
    ∀ t ∈ literalsOf g.delimiters ++ literalsOf g.punctuation, t.toList.head? = some '.' →
      (t.toList.tail.head?.all fun c => !c.isDigit) = true := by
  simp only [Option.all_eq_true, List.all_eq_true, Bool.not_eq_true']
  have hdigits : "0123456789".toList.all Char.isDigit = true := by decide
  exact ⟨fun h =>
      ⟨h.literal, h.opener, fun c hc => h.identifier c (List.all_eq_true.1 hdigits c hc), h.point⟩,
    fun ⟨h₁, h₂, h₃, h₄⟩ => ⟨h₁, h₂, fun c hc => h₃ c (mem_of_isDigit hc), h₄⟩⟩

instance (g : Grammar) : Decidable g.DigitsApart := decidable_of_iff _ digitsApart_iff.symm

theorem admits_isDigit {literal : String} (h : ∀ c ∈ literal.toList.head?, c.isDigit = false) :
    Admits Symbol.IsDigit literal := by
  rintro _ hs ⟨c, rfl, hc⟩
  rw [h c (head?_spelling.1 hs)] at hc
  cases hc

theorem DigitsApart.admitted (h : g.DigitsApart) :
    g.toLexicon.Admitted (compileMatchers g.greedyMatchers) Symbol.IsDigit where
  opener {m} hm := by
    rw [compileMatchers_eq] at hm
    obtain ⟨m', hm', rfl⟩ := List.mem_map.1 hm
    rw [startsWith_compileMatcher]
    exact admits_isDigit (h.opener m' hm')
  delimiter ht := admits_isDigit (h.literal _ (by simp [ht]))
  punctuation ht := admits_isDigit (h.literal _ (by simp [ht]))
  point := by
    rintro ⟨c, hc, hdigit⟩
    cases hc
    cases hdigit

/-- Numbers are not touched after they have been built. -/
theorem counts_compile (h : g.compile.result = .ok a) (hdigits : g.DigitsApart) :
    ∃ d, d.Counted g.toLexicon ∧ a.Counts d := by
  obtain ⟨-, hassemble⟩ := compile_eq_ok.1 h
  obtain ⟨e, hbuild, rfl⟩ := Lexicon.assemble_eq_ok.1 hassemble
  obtain ⟨⟨⟩, d, hcategories, hbuild⟩ := Assembly.yields_bind.1 hbuild
  obtain ⟨⟨⟩, d', hkeywords, hrest⟩ := Assembly.yields_bind.1 hbuild
  obtain ⟨place, hd⟩ := (@Draft.charted_start g.toLexicon []).buildCategories hcategories
  have hapart := hd.apart_numeric hd.openers_eq_nil Symbol.IsDigit
  obtain ⟨hapart', hspares, -⟩ := (Lexicon.spares_buildKeywords hapart.trie.root fun t ht =>
    admits_isDigit (hdigits.literal t (by simp [ht]))).keeps hapart hkeywords
  have hshows := (Lexicon.shows_buildRest hapart' hdigits.admitted hrest).mono hspares
  refine ⟨d, Draft.counted_buildCategories hcategories, fun {c} hc => ?_, ?_,
    hshows.faces hd.closed_numeric hd.numeric_number⟩
  · rw [hshows.child? (.inr ⟨rfl, c, rfl, hc⟩)]
    exact (Draft.wordless_buildCategories hcategories).root _
  · rw [hshows.child? (.inl hd.numeric_number)]
    exact hd.decimal (hd.origin (o := .number) (Origin.not_isBody_of_mem (by simp)))

/-- Where conflicts are rejected, every mark can be spelled from the root. -/
theorem exists_mark (h : g.compile.result = .ok a) (hreject : g.conflicts = .reject) {t : String}
    (ht : t ∈ g.terminators) (hne : t ≠ "") :
    ∃ n, a.trie.follow? .root (t.toList.map .char) = some n ∧ (a.behaviour n).action.EndsMark := by
  obtain ⟨e, ⟨-, -, -, -, -, -, -, -, -, chart, point⟩, rfl⟩ :=
    Lexicon.stages_assemble (assemble_of_compile h)
  have hmarked := List.mem_append.1 ((Lexicon.mem_terminators.1 ht).resolve_left hne)
  refine (chart.finishes point).mark chart hmarked hne fun hleading hhead => ?_
  obtain ⟨n, -, hp, -⟩ := chart.marks hmarked
  obtain ⟨cs, hcs⟩ := List.head?_eq_some_iff.1 hhead
  rw [hcs, spelling_cons, Trie.follow?_cons, point.free hreject hleading] at hp
  cases hp

end Grammar

/-! ### Foremost terminators -/

namespace Lexicon

variable {lexicon : Lexicon} {t u : String} {r : List Symbol}

/-- A terminator that no other terminator is the beginning of. -/
structure Foremost (lexicon : Lexicon) (t : String) : Prop where
  mem : t ∈ lexicon.terminators
  eq_of_prefix {u : String} (hu : u ∈ lexicon.terminators)
    (h : spelling u.toList <+: spelling t.toList) : u = t

theorem Foremost.ne_spelling (h : lexicon.Foremost t) (hr : r <+: spelling t.toList)
    (hproper : r ≠ spelling t.toList) : ∀ u ∈ lexicon.terminators, r ≠ spelling u.toList := by
  rintro u hu rfl
  exact hproper (congrArg _ (congrArg _ (h.eq_of_prefix hu hr)))

/-- Where nothing ends, the way to a terminator only leads on. -/
theorem ending_way (ht : t ∈ lexicon.terminators) (hr : r <+: spelling t.toList)
    (hends : ∀ u ∈ lexicon.terminators, r ≠ spelling u.toList) (label : Label) :
    lexicon.ending label false r = some .through := by
  have hnot : ¬∃ u ∈ lexicon.terminators, r = spelling u.toList := by
    rintro ⟨u, hu, heq⟩
    exact hends u hu heq
  rw [ending, if_neg hnot, if_pos ⟨t, ht, hr⟩]

/-- Before its end, nothing ends on the way to a foremost terminator. -/
theorem Foremost.ending_through (h : lexicon.Foremost t) (hr : r <+: spelling t.toList)
    (hproper : r ≠ spelling t.toList) (label : Label) :
    lexicon.ending label false r = some .through :=
  ending_way h.mem hr (h.ne_spelling hr hproper) label

/-- The end of input is a foremost terminator. -/
theorem foremost_empty (lexicon : Lexicon) : lexicon.Foremost "" where
  mem := mem_terminators.2 (.inl rfl)
  eq_of_prefix {u} _ h := by
    have htext := congrArg pathText (h.eq_of_length (Nat.le_antisymm h.length_le
      (List.length_pos_iff.2 (spelling_ne_nil _))))
    rw [pathText_spelling, pathText_spelling] at htext
    exact String.toList_inj.1 htext

theorem ending_spelling (ht : t ∈ lexicon.terminators) (label : Label) :
    lexicon.ending label false (spelling t.toList) =
      some (.ended label false (byteLength t.toList)) := by
  rw [ending, if_pos ⟨t, ht, rfl⟩, pathText_spelling]

theorem ending_eq_none (hr : ∀ t ∈ lexicon.terminators, ¬r <+: spelling t.toList) (label : Label) :
    lexicon.ending label false r = none := by
  have hway : ¬∃ t ∈ lexicon.terminators, r <+: spelling t.toList := by
    rintro ⟨t, ht, hfront⟩
    exact hr t ht hfront
  have hnot : ¬∃ t ∈ lexicon.terminators, r = spelling t.toList := by
    rintro ⟨t, ht, rfl⟩
    exact hr t ht List.prefix_rfl
  rw [ending, if_neg hnot, if_neg hway]

theorem prefix_of_spelling (h : spelling u.toList <+: spelling t.toList) (ht : t ≠ "") :
    u ≠ "" ∧ u.toList <+: t.toList := by
  obtain ⟨more, hmore⟩ := h
  refine ⟨?_, ?_⟩
  · rintro rfl
    cases hcs : t.toList with
    | nil => exact ht (String.toList_eq_nil_iff.1 hcs)
    | cons c cs =>
      rw [hcs] at hmore
      change .endOfInput :: more = (c :: cs).map Symbol.char at hmore
      cases (List.cons.inj hmore).1
  · have htext := congrArg pathText hmore
    rw [pathText_append, pathText_spelling, pathText_spelling] at htext
    exact ⟨_, htext⟩

/-- Some terminator that a text begins with is foremost. -/
theorem exists_foremost (ht : t ∈ lexicon.terminators) :
    ∃ u, lexicon.Foremost u ∧ spelling u.toList <+: spelling t.toList := by
  induction hn : (spelling t.toList).length using Nat.strong_induction_on generalizing t with
  | _ n ih =>
    by_cases h : ∃ u ∈ lexicon.terminators, spelling u.toList <+: spelling t.toList ∧ u ≠ t
    · obtain ⟨u, hu, hfront, hne⟩ := h
      have hlt : (spelling u.toList).length < n := by
        refine hn ▸ lt_of_le_of_ne hfront.length_le fun hlen => hne ?_
        have heq := congrArg pathText (hfront.eq_of_length hlen)
        rw [pathText_spelling, pathText_spelling] at heq
        exact String.toList_inj.1 heq
      obtain ⟨v, hv, hvu⟩ := ih _ hlt hu rfl
      exact ⟨v, hv, hvu.trans hfront⟩
    · refine ⟨t, ⟨ht, fun {u} hu hfront => ?_⟩, List.prefix_rfl⟩
      exact Decidable.byContradiction fun hne => h ⟨u, hu, hfront, hne⟩

/-- A path of characters is the spelling of no terminator, if it does not begin with one. -/
theorem ne_spelling_of_chars {r : List Symbol} {cs : List Char} {s : String} (hr : r ≠ [])
    (hfront : r <+: cs.map .char) (hs : s ≠ "" → ¬s.toList <+: cs) : r ≠ spelling s.toList := by
  rintro rfl
  by_cases hne : s = ""
  · subst hne
    obtain ⟨more, hmore⟩ := hfront
    cases cs <;> cases hmore
  · refine hs hne ?_
    obtain ⟨more, hmore⟩ := hfront
    have htext := congrArg pathText hmore
    rw [pathText_append, pathText_spelling, pathText_map_char] at htext
    exact ⟨_, htext⟩

/-- A literal whose spelling begins with a character begins with it. -/
theorem toList_of_spelling {c : Char} (h : .char c :: r = spelling t.toList) :
    t.toList.head? = some c ∧ r = t.toList.tail.map .char := by
  cases hcs : t.toList with
  | nil =>
    rw [hcs] at h
    cases h
  | cons d cs =>
    rw [hcs, spelling_cons] at h
    obtain ⟨hhead, hr⟩ := List.cons.inj h
    exact ⟨by rw [Symbol.char.inj hhead]; rfl, hr⟩

/-- What goes on after the point at the beginning of a mark, and any other mark, are not beginnings
of each other. -/
def PointsApart (lexicon : Lexicon) : Prop :=
  ∀ t ∈ lexicon.terminators, t.toList.head? = some '.' → ∀ s ∈ lexicon.terminators, s ≠ "" →
    ¬s.toList <+: t.toList.tail ∧ ¬t.toList.tail <+: s.toList

instance (lexicon : Lexicon) : Decidable lexicon.PointsApart :=
  inferInstanceAs (Decidable (∀ t ∈ lexicon.terminators, t.toList.head? = some '.' →
    ∀ s ∈ lexicon.terminators, s ≠ "" → ¬s.toList <+: t.toList.tail ∧ ¬t.toList.tail <+: s.toList))

end Lexicon

/-! ### The ends of numbers -/

/-- What stands between the ends of tokens stays there when they are spelled. -/
theorem Draft.Overwrites.keeps {d d' : Draft} {b : NodeId} {p q : List Symbol} {label : Label}
    {weak : Bool} {ts : List String} {face : Face} (h : d.Overwrites b p label weak ts d')
    (hq : q ≠ []) (hends : ∀ s ∈ ts, q ≠ spelling s.toList)
    (hface : d.below b (p ++ q) = some face) : d'.below b (p ++ q) = some face := by
  by_cases hon : ∃ s ∈ ts, q <+: spelling s.toList
  · obtain ⟨s, hs, hfront⟩ := hon
    rw [h.way hs hq hfront hends, hface]
    rfl
  · rw [h.rest, hface]
    rintro s hs ⟨r, -, hr, heq⟩
    exact hon ⟨s, hs, List.append_cancel_left heq ▸ hr⟩

namespace StateGraph

variable {g : StateGraph} {lexicon : Lexicon} {d : Draft} {n : NodeId} {q : List Symbol}
  {face : Face}

theorem Faces.exists_action (h : g.Faces n q (some face)) :
    ∃ k, g.trie.follow? n q = some k ∧ (g.behaviour k).action = face.action := by
  obtain ⟨k, hk, -, haction⟩ := h
  exact ⟨k, hk, haction⟩

/-- Nothing happens on a path before its end, where a token ends. -/
structure Halts (g : StateGraph) (n : NodeId) (path : List Symbol) (label : Label) (length : Nat) :
    Prop where
  last : ∃ k, g.trie.follow? n path = some k ∧ (g.behaviour k).action = .boundary label length
  way {r : List Symbol} (hne : r ≠ []) (hr : r <+: path) (hproper : r ≠ path) :
    ∃ k, g.trie.follow? n r = some k ∧ (g.behaviour k).action = .none

/-- A node where nothing happens may come before. -/
theorem Halts.cons {m : NodeId} {s : Symbol} {label : Label} {length : Nat}
    (h : g.Halts m q label length) (hc : g.trie.child? n s = some m)
    (hquiet : (g.behaviour m).action = .none) : g.Halts n (s :: q) label length := by
  have hfollow (r : List Symbol) : g.trie.follow? n (s :: r) = g.trie.follow? m r := by
    rw [Trie.follow?_cons, hc]
    rfl
  refine ⟨?_, fun {r} hne hr hproper => ?_⟩
  · rw [hfollow]
    exact h.last
  · obtain ⟨u, r, rfl⟩ := List.exists_cons_of_ne_nil hne
    obtain ⟨rfl, hrest⟩ := List.cons_prefix_cons.1 hr
    rw [hfollow]
    by_cases hnil : r = []
    · exact ⟨m, hnil ▸ rfl, hquiet⟩
    · exact h.way hnil hrest fun heq => hproper (heq ▸ rfl)

namespace Counts

variable {t : String}

theorem faces_float (h : g.Counts d) (q : List Symbol) :
    g.Faces .float q (d.below .number (.char '.' :: q)) := by
  have hfaces := h.faces (.char '.' :: q)
  have hfollow : g.trie.follow? .number (.char '.' :: q) = g.trie.follow? .float q := by
    rw [Trie.follow?_cons, h.point]
    rfl
  cases hface : d.below .number (.char '.' :: q) with
  | none =>
    rw [hface] at hfaces
    exact hfollow.symm.trans hfaces
  | some face =>
    rw [hface] at hfaces
    obtain ⟨k, hk, hrest⟩ := hfaces
    exact ⟨k, hfollow.symm.trans hk, hrest⟩

theorem action_float (h : g.Counts d) (hd : d.Counted lexicon) :
    (g.behaviour .float).action = .none := by
  have hfaces := h.faces_float []
  rw [hd.float] at hfaces
  obtain ⟨k, hk, -, haction⟩ := hfaces
  cases hk
  exact haction

/-- Before a terminator a number with a point ends, if nothing else does on the way. -/
theorem halts_decimal (h : g.Counts d) (hd : d.Counted lexicon) (ht : t ∈ lexicon.terminators)
    (hway : ∀ r, r ≠ [] → r <+: spelling t.toList → r ≠ spelling t.toList →
      ∀ u ∈ lexicon.terminators, r ≠ spelling u.toList ∧ .char '.' :: r ≠ spelling u.toList) :
    g.Halts .float (spelling t.toList) lexicon.labels.decimal (byteLength t.toList) := by
  obtain ⟨e, he, hover⟩ := hd.decimal
  refine ⟨?_, fun {r} hne hr hproper => ?_⟩
  · have hfaces := h.faces_float (spelling t.toList)
    rw [show d.below .number (.char '.' :: spelling t.toList) = _ from hover.last ht] at hfaces
    exact hfaces.exists_action
  · have hfaces := h.faces_float r
    rw [show d.below .number (.char '.' :: r) = _ from hover.way ht hne hr fun u hu =>
      (hway r hne hr hproper u hu).1] at hfaces
    change g.Faces .float r (some ((e.below .number (.char '.' :: r)).getD .through)) at hfaces
    have hnot : ¬∃ u ∈ lexicon.terminators, .char '.' :: r = spelling u.toList := by
      rintro ⟨u, hu, heq⟩
      exact (hway r hne hr hproper u hu).2 heq
    rw [he r hne, Lexicon.ending, if_neg hnot] at hfaces
    split at hfaces <;> exact hfaces.exists_action

/-- Before what goes on after the point at the beginning of a terminator, the whole number before
the point ends, if nothing else does on the way. -/
theorem halts_pointed (h : g.Counts d) (hd : d.Counted lexicon) (ht : t ∈ lexicon.terminators)
    (hq : q ≠ []) (hspelling : spelling t.toList = .char '.' :: q)
    (hends : ∀ r, r ≠ [] → r <+: q → ∀ u ∈ lexicon.terminators, r ≠ spelling u.toList)
    (hway : ∀ r, r ≠ [] → r <+: q → r ≠ q → ∀ u ∈ lexicon.terminators,
      .char '.' :: r ≠ spelling u.toList) :
    g.Halts .float q lexicon.labels.number (byteLength t.toList) := by
  obtain ⟨e, he, hover⟩ := hd.decimal
  have hbelow {r : List Symbol} {face : Face} (hne : r ≠ []) (hr : r <+: q)
      (hface : lexicon.ending lexicon.labels.number false (.char '.' :: r) = some face) :
      g.Faces .float r (some face) := by
    have hkept : d.below .number (.char '.' :: r) = some face :=
      hover.keeps hne (hends r hne hr) ((he r hne).trans hface)
    exact hkept ▸ h.faces_float r
  refine ⟨(hbelow hq List.prefix_rfl (hspelling ▸ Lexicon.ending_spelling ht _)).exists_action,
    fun {r} hne hr hproper => (hbelow hne hr (Lexicon.ending_way ht ?_ ?_ _)).exists_action⟩
  · exact hspelling ▸ List.cons_prefix_cons.2 ⟨rfl, hr⟩
  · exact hway r hne hr hproper

/-- A whole number ends before a foremost terminator. -/
theorem halts_number (h : g.Counts d) (hd : d.Counted lexicon)
    (hunended : "." ∉ lexicon.terminators) (hapart : lexicon.PointsApart)
    (ht : lexicon.Foremost t) :
    g.Halts .number (spelling t.toList) lexicon.labels.number (byteLength t.toList) := by
  by_cases hhead : t.toList.head? = some '.'
  · obtain ⟨cs, hcs⟩ := List.head?_eq_some_iff.1 hhead
    have hspelling : spelling t.toList = .char '.' :: cs.map .char := by
      rw [hcs, spelling_cons]
    have hne : cs.map Symbol.char ≠ [] := by
      intro hnil
      obtain rfl := List.map_eq_nil_iff.1 hnil
      exact hunended ((String.toList_inj.1 hcs : t = ".") ▸ ht.mem)
    have hpointed := h.halts_pointed hd ht.mem hne hspelling
      (fun r hr hfront u hu => Lexicon.ne_spelling_of_chars hr hfront fun hu' => by
        have hnot := (hapart t ht.mem hhead u hu hu').1
        rwa [hcs] at hnot)
      fun r _ hr hproper => ht.ne_spelling (hspelling ▸ List.cons_prefix_cons.2 ⟨rfl, hr⟩)
        fun heq => hproper (List.cons.inj (heq.trans hspelling)).2
    exact hspelling ▸ hpointed.cons h.point (h.action_float hd)
  · have hbelow {r : List Symbol} (hne : r ≠ []) (hr : r <+: spelling t.toList) :
        d.below .number r = lexicon.ending lexicon.labels.number false r := by
      refine hd.whole hne fun hpoint => hhead ?_
      obtain ⟨more, hmore⟩ := hr
      rw [← head?_spelling, ← hmore, List.head?_append, hpoint]
      rfl
    refine ⟨?_, fun {r} hne hr hproper => ?_⟩
    · have hfaces := h.faces (spelling t.toList)
      rw [hbelow (spelling_ne_nil _) List.prefix_rfl, Lexicon.ending_spelling ht.mem] at hfaces
      exact hfaces.exists_action
    · have hfaces := h.faces r
      rw [hbelow hne hr, ht.ending_through hr hproper] at hfaces
      exact hfaces.exists_action

/-- A number with a point ends before a foremost terminator. -/
theorem halts_float (h : g.Counts d) (hd : d.Counted lexicon) (hapart : lexicon.PointsApart)
    (ht : lexicon.Foremost t) :
    g.Halts .float (spelling t.toList) lexicon.labels.decimal (byteLength t.toList) := by
  refine h.halts_decimal hd ht.mem fun r hne hr hproper u hu =>
    ⟨ht.ne_spelling hr hproper u hu, fun heq => ?_⟩
  obtain ⟨hhead, rfl⟩ := Lexicon.toList_of_spelling heq
  obtain ⟨more, hmore⟩ := hr
  have htext := congrArg pathText hmore
  rw [pathText_append, pathText_map_char, pathText_spelling] at htext
  refine (hapart u hu hhead t ht.mem fun hempty => ?_).2 ⟨_, htext⟩
  subst hempty
  cases htail : u.toList.tail with
  | nil => exact hne (by rw [htail]; rfl)
  | cons c cs =>
    rw [htail] at hmore
    cases hmore

end Counts

end StateGraph

end TrieLexer
