import TrieLexer.Proofs.Lossless
import TrieLexer.Proofs.Sources

/-!
# What goes out as a number

The nodes of numbers are entered by digits from the root and from themselves, and by the point: from
the whole numbers, and from the root if a number may begin with its point. So what is pending at a
place of a number is digits with at most one point among them, and then the path from there. The
text before a terminator is what was pending before the path, as long as no mark goes on after a
point at its beginning. It holds no digit only if it is the point alone.

## Main definitions

* `IsFigure` — digits with at most one point among them.
* `Locus.Figures` — what is pending at a place begins with a number, if it is one of a number.
* `Token.Figures` — the label of a token is used for something else, or its value is a number.

## Main results

* `Charted.figures_resolve` — every symbol keeps numbers.
* `Reading.Spelled.figures_advance` — a symbol gives out only numbers under the labels of numbers.
* `Grammar.figuring` — so do whole inputs.
-/

namespace TrieLexer

open Text (byteLength)

/-- Digits with at most one point among them. If it is `leading`, a digit stands before the point.
-/
inductive IsFigure (leading : Bool) : List Char → Prop
  | whole {ds : List Char} (hne : ds ≠ []) (hds : ∀ c ∈ ds, c.isDigit = true) : IsFigure leading ds
  | decimal {ds es : List Char} (hleading : leading = true → ds ≠ [])
      (hds : ∀ c ∈ ds, c.isDigit = true) (hes : ∀ c ∈ es, c.isDigit = true) :
      IsFigure leading (ds ++ '.' :: es)

namespace IsFigure

variable {leading : Bool} {text : List Char}

theorem isDigit_or (h : IsFigure leading text) : ∀ c ∈ text, c.isDigit = true ∨ c = '.' := by
  cases h with
  | whole hne hds => exact fun c hc => .inl (hds c hc)
  | decimal hleading hds hes =>
    exact List.forall_mem_append.2 ⟨fun c hc => .inl (hds c hc),
      List.forall_mem_cons.2 ⟨.inr rfl, fun c hc => .inl (hes c hc)⟩⟩

theorem count_le (h : IsFigure leading text) : text.count '.' ≤ 1 := by
  have hnone {ds : List Char} (hds : ∀ c ∈ ds, c.isDigit = true) : ds.count '.' = 0 :=
    List.count_eq_zero.2 fun hmem => absurd (hds _ hmem) (by decide)
  cases h with
  | whole hne hds => rw [hnone hds]; exact Nat.zero_le _
  | decimal hleading hds hes =>
    refine Nat.le_of_eq ?_
    rw [List.count_append, List.count_cons_self, hnone hds, hnone hes]

/-- A figure without a digit is the point alone. -/
theorem exists_isDigit (h : IsFigure leading text) :
    (∃ c ∈ text, c.isDigit = true) ∨ text = ['.'] ∧ leading = false := by
  cases h with
  | whole hne hds =>
    obtain ⟨d, ds, rfl⟩ := List.exists_cons_of_ne_nil hne
    exact .inl ⟨d, List.mem_cons_self .., hds d (List.mem_cons_self ..)⟩
  | @decimal ds es hleading hds hes =>
    cases ds with
    | cons d ds => exact .inl ⟨d, List.mem_append_left _ (List.mem_cons_self ..),
        hds d (List.mem_cons_self ..)⟩
    | nil =>
      cases es with
      | cons e es => exact .inl ⟨e, by simp, hes e (List.mem_cons_self ..)⟩
      | nil => exact .inr ⟨rfl, Bool.eq_false_iff.2 fun htrue => hleading htrue rfl⟩

end IsFigure

/-! ### Places -/

/-- What stands before the path to a node of numbers. -/
inductive Origin.Figures (leading : Bool) : Origin → List Char → Prop
  | whole {ds : List Char} (hne : ds ≠ []) (hds : ∀ c ∈ ds, c.isDigit = true) :
      Figures leading .number ds
  | decimal {ds es : List Char} (hleading : leading = true → ds ≠ [])
      (hds : ∀ c ∈ ds, c.isDigit = true) (hes : ∀ c ∈ es, c.isDigit = true) :
      Figures leading .float (ds ++ '.' :: es)
  | other {o : Origin} {text : List Char} (hnumber : o ≠ .number) (hfloat : o ≠ .float) :
      Figures leading o text

/-- What is pending at a place of a number is the number and the path. -/
def Locus.Figures (leading : Bool) (p : Locus) (text : List Char) : Prop :=
  ∃ before, p.origin.Figures leading before ∧ text = before ++ pathText p.path

namespace Locus

variable {leading : Bool} {p : Locus} {text : List Char}

/-- Elsewhere nothing is said. -/
theorem Spells.figures (h : p.Spells text) (hnumber : p.origin ≠ .number)
    (hfloat : p.origin ≠ .float) : p.Figures leading text := by
  obtain ⟨before, -, rfl⟩ := h
  exact ⟨before, .other hnumber hfloat, rfl⟩

theorem figures_of_path_eq_nil (hpath : p.path = []) (h : p.origin.Figures leading text) :
    p.Figures leading text := ⟨text, h, by rw [hpath, pathText_nil, List.append_nil]⟩

theorem Figures.down (h : p.Figures leading text) (s : Symbol) :
    (p.down s).Figures leading (text ++ s.text) := by
  obtain ⟨before, hfigures, rfl⟩ := h
  obtain hd | ⟨rfl, rfl, hd⟩ := p.down_eq_or s
  · exact ⟨before, by rwa [hd], by rw [hd]; simp⟩
  · rw [hd, pathText_nil, List.append_nil]
    cases hfigures with
    | whole hne hds =>
      exact figures_of_path_eq_nil rfl (.decimal (fun _ => hne) hds (List.forall_mem_nil _))
    | other hnumber => exact absurd rfl hnumber

/-- A digit goes on with whole numbers. -/
theorem Figures.digit (h : Figures leading ⟨.number, []⟩ text) {c : Char} (hc : c.isDigit = true) :
    Figures leading ⟨.number, []⟩ (text ++ [c]) := by
  obtain ⟨before, hfigures, rfl⟩ := h
  rw [pathText_nil, List.append_nil]
  cases hfigures with
  | whole hne hds =>
    exact figures_of_path_eq_nil rfl (.whole (List.append_ne_nil_of_left_ne_nil hne _)
      (List.forall_mem_append.2 ⟨hds, List.forall_mem_singleton.2 hc⟩))
  | other hnumber => exact absurd rfl hnumber

/-- A digit goes on with numbers with a point. -/
theorem Figures.decimal (h : Figures leading ⟨.float, []⟩ text) {c : Char}
    (hc : c.isDigit = true) : Figures leading ⟨.float, []⟩ (text ++ [c]) := by
  obtain ⟨before, hfigures, rfl⟩ := h
  rw [pathText_nil, List.append_nil]
  cases hfigures with
  | decimal hleading hds hes =>
    rw [List.append_assoc, List.cons_append]
    exact figures_of_path_eq_nil rfl (.decimal hleading hds
      (List.forall_mem_append.2 ⟨hes, List.forall_mem_singleton.2 hc⟩))
  | other _ hfloat => exact absurd rfl hfloat

end Locus

/-- The point leads down from the root where numbers have to begin with a digit. -/
def StateGraph.Leading (g : StateGraph) (place : NodeId → Locus) (leading : Bool) : Prop :=
  leading = true → ∀ {n m : NodeId} {s : Symbol}, g.trie.child? n s = some m →
    place m = (place n).down s

/-! ### The walk -/

namespace Charted

variable {lexicon : Lexicon} {matchers : List (GreedyMatcher Compilation)} {a : Automaton}
  {place : NodeId → Locus} {leading : Bool} {n m : NodeId} {s : Symbol} {text : List Char}

theorem place_number (h : Charted lexicon matchers a place) : place .number = ⟨.number, []⟩ :=
  h.origin (o := .number) (Origin.not_isBody_of_mem (by simp))

theorem place_float (h : Charted lexicon matchers a place) : place .float = ⟨.float, []⟩ :=
  h.origin (o := .float) (Origin.not_isBody_of_mem (by simp))

theorem place_identifier (h : Charted lexicon matchers a place) :
    place .identifier = ⟨.identifier, []⟩ :=
  h.origin (o := .identifier) (Origin.not_isBody_of_mem (by simp))

theorem figures_root (h : Charted lexicon matchers a place) : (place .root).Figures leading [] := by
  rw [h.place_root]
  exact ⟨[], .other (by simp) (by simp), rfl⟩

/-- An edge keeps numbers: it goes on along a path, or it is the point. -/
theorem figures_child (h : Charted lexicon matchers a place) (hleading : a.Leading place leading)
    (hs : (place n).Spells text) (hf : (place n).Figures leading text)
    (hc : a.trie.child? n s = some m) : (place m).Figures leading (text ++ s.text) := by
  rcases h.child hc with hd | ⟨hn, rfl, hm⟩
  · exact hd ▸ hf.down s
  · rw [hn] at hs
    have hpoint : Origin.Figures leading .float ([] ++ '.' :: []) := by
      refine .decimal (fun htrue => ?_) (List.forall_mem_nil _) (List.forall_mem_nil _)
      -- Where numbers have to begin with a digit, the point stays below the root.
      have hd := hleading htrue hc
      rw [hm, hn, Locus.down_of_origin_ne (by simp)] at hd
      cases hd
    rw [hm, hs.eq_of_root]
    exact Locus.figures_of_path_eq_nil rfl hpoint

/-- Every symbol keeps numbers. -/
theorem figures_resolve (h : Charted lexicon matchers a place) (hleading : a.Leading place leading)
    (hrests : (a.behaviour n).action = .none) (hs : (place n).Spells text)
    (hf : (place n).Figures leading text) (hr : a.resolve n s = .node m) :
    (place m).Figures leading (text ++ s.text) := by
  have hspells : (place m).Spells (text ++ s.text) :=
    (h.leads hr).spells (fun hstay => h.settled hstay hrests) hs
  obtain ⟨hops, hsize⟩ := Nat.exists_eq_succ_of_ne_zero (Nat.ne_of_gt h.size_pos)
  rw [StateGraph.resolve, StateGraph.resolveWithin] at hr
  cases hc : a.trie.child? n s with
  | some child =>
    rw [hc] at hr
    cases hr
    exact h.figures_child hleading hs hf hc
  | none =>
    have hfit := h.fallback n
    rw [hc] at hr
    cases hfall : (a.behaviour n).fallback with
    | stay =>
      rw [hfall] at hr
      cases hr
      have ho := (h.settled hfall hrests).origin_ne
      exact hspells.figures ho.2.1 ho.2.2
    | release label =>
      rw [hfall] at hr
      cases hr
    | reroute target =>
      have hrest := h.isRest_target hfall
      rw [hfall, hsize] at hr
      have ho := hrest.origin_ne
      rcases h.resolveWithin_of_isRest hrest hops s with hu | ⟨k, hu, hk⟩
      · cases hu.symm.trans hr
        exact hspells.figures ho.2.1 ho.2.2
      · cases hu.symm.trans hr
        rw [hk, Locus.down_of_origin_ne ho.2.1] at hspells ⊢
        exact hspells.figures ho.2.1 ho.2.2
    | classify test hit miss =>
      rw [hfall] at hr hfit
      have hpassed (hpass : a.passes .digit s = true) : ∃ c, s = .char c ∧ c.isDigit = true := by
        cases s with
        | endOfInput => cases hpass
        | char c => exact ⟨c, rfl, hpass⟩
      have hunknown (hm : m = .unknown) : (place m).Figures leading (text ++ s.text) := by
        rw [hm, h.place_unknown] at hspells ⊢
        exact hspells.figures (by simp) (by simp)
      dsimp only at hr
      cases hfit with
      | identifier =>
        split at hr
        · cases hr
          rw [h.place_identifier] at hspells ⊢
          exact hspells.figures (by simp) (by simp)
        · cases hr
          exact hunknown rfl
      | digit hp =>
        split at hr
        · next hpass =>
          cases hr
          obtain ⟨c, rfl, hdigit⟩ := hpassed hpass
          rw [hp] at hf
          rw [h.place_number]
          exact hf.digit hdigit
        · cases hr
          exact hunknown rfl
      | decimal hp =>
        split at hr
        · next hpass =>
          cases hr
          obtain ⟨c, rfl, hdigit⟩ := hpassed hpass
          rw [hp] at hf
          rw [h.place_float]
          exact hf.decimal hdigit
        · cases hr
          exact hunknown rfl
    | dispatch =>
      rw [hfall] at hr hfit
      cases hr
      cases hfit with
      | dispatch hp =>
        cases s with
        | endOfInput =>
          rw [StateGraph.dispatch, h.place_unknown] at hspells ⊢
          exact hspells.figures (by simp) (by simp)
        | char c =>
          rw [StateGraph.dispatch] at hspells ⊢
          split
          · next hidentifier =>
            rw [if_pos hidentifier, h.place_identifier] at hspells
            rw [h.place_identifier]
            exact hspells.figures (by simp) (by simp)
          · next hidentifier =>
            rw [if_neg hidentifier] at hspells
            split
            · next hdigit =>
              rw [hp] at hs
              rw [h.place_number, hs.eq_of_root]
              exact Locus.figures_of_path_eq_nil rfl (.whole (List.cons_ne_nil _ _)
                (List.forall_mem_singleton.2 hdigit))
            · next hdigit =>
              rw [if_neg hdigit, h.place_unknown] at hspells
              rw [h.place_unknown]
              exact hspells.figures (by simp) (by simp)

/-- The walk keeps numbers. -/
theorem figures_move (h : Charted lexicon matchers a place) (hleading : a.Leading place leading)
    {c c' : Cursor} {ls : List Lexeme} (hrests : (a.behaviour c.node).action = .none)
    (hs : (place c.node).Spells c.pending) (hf : (place c.node).Figures leading c.pending)
    (hm : a.move c s = .ok (c', ls)) : (place c'.node).Figures leading c'.pending := by
  rw [StateGraph.move] at hm
  split at hm
  · next hr =>
    cases hm
    exact h.figures_resolve hleading hrests hs hf hr
  · split at hm
    · next hr =>
      cases hm
      have hroot : (place .root).Spells [] := by
        rw [h.place_root]
        exact ⟨[], rfl, rfl⟩
      exact h.figures_resolve hleading h.action_root hroot h.figures_root hr
    · cases hm

/-- A path keeps numbers. -/
theorem figures_follow? (h : Charted lexicon matchers a place) (hleading : a.Leading place leading)
    {path : List Symbol} {k : NodeId} (hp : a.trie.follow? n path = some k)
    (hs : (place n).Spells text) (hf : (place n).Figures leading text) :
    (place k).Figures leading (text ++ pathText path) := by
  induction path generalizing n text with
  | nil =>
    cases hp
    rwa [pathText_nil, List.append_nil]
  | cons s path ih =>
    rw [Trie.follow?_cons] at hp
    obtain ⟨m, hm, hp⟩ := Option.bind_eq_some_iff.1 hp
    have hspells : (place m).Spells (text ++ s.text) := by
      have hedge : a.trie.follow? n [s] = some m := by
        rw [Trie.follow?_cons, hm]
        rfl
      simpa using h.spells_follow? hedge hs
    have hrest := ih hp hspells (h.figures_child hleading hs hf hm)
    rwa [List.append_assoc] at hrest

/-- A terminator that is taken again from the root keeps numbers. -/
theorem figures_terminator (h : Charted lexicon matchers a place)
    (hleading : a.Leading place leading) (hlone : lexicon.LonePoint) {t : String}
    (ht : t ∈ lexicon.terminators) {c : Cursor} {ls : List Lexeme}
    (hm : a.retake {} t.toList = .ok (c, ls)) : (place c.node).Figures leading c.pending := by
  by_cases hne : t = ""
  · subst hne
    cases hm
    exact h.figures_root
  · obtain ⟨k, hk, -⟩ := h.mark ht hne (hlone t ht)
    cases (StateGraph.retake_of_follow? hk).symm.trans hm
    have hroot : (place .root).Spells [] := by
      rw [h.place_root]
      exact ⟨[], rfl, rfl⟩
    simpa [pathText_map_char] using h.figures_follow? hleading hk hroot h.figures_root

/-- The text before a terminator at a place of a number is the number. -/
theorem figure_of_boundary (h : Charted lexicon matchers a place) (hlone : lexicon.LonePoint)
    {label : Label} {t : String} {q : Locus}
    (hb : (a.behaviour n).action = .boundary label (byteLength t.toList))
    (hq : q = ⟨.number, []⟩ ∨ q = ⟨.float, []⟩) (hp : place n = q.walk (spelling t.toList))
    (hf : (place n).Figures leading text) {before terminator : List Char}
    (hcut : cutBack (byteLength t.toList) text = .ok (before, terminator)) :
    IsFigure leading before := by
  have hbelow : place n = ⟨q.origin, spelling t.toList⟩ := by
    rcases hq with rfl | rfl
    · cases hspell : spelling t.toList with
      | nil => exact absurd hspell (spelling_ne_nil _)
      | cons s rest =>
        rw [hspell, Locus.walk_cons] at hp
        obtain hd | ⟨-, rfl, hd⟩ := Locus.down_eq_or ⟨.number, []⟩ s
        · rw [hp, hd, Locus.walk_of_path_ne (by simp)]
          rfl
        · -- Below the point there is no room for the terminator, which begins with it.
          rw [hd, Locus.walk_of_origin_ne (by simp), List.nil_append] at hp
          obtain ⟨u, -, hlength, front, hfront⟩ := h.boundary_path hlone hb
          rw [hp] at hfront
          have htext := congrArg (byteLength ∘ pathText) hspell
          have hrest := congrArg (byteLength ∘ pathText) hfront
          simp only [Function.comp_apply, pathText_spelling, pathText_append,
            Text.byteLength_append] at htext hrest
          rw [← List.singleton_append, pathText_append, Text.byteLength_append] at htext
          have hpoint : byteLength (pathText [Symbol.char '.']) = 1 := rfl
          omega
    · rw [hp, Locus.walk_of_origin_ne (by simp)]
      rfl
  obtain ⟨number, hnumber, rfl⟩ := hf
  rw [hbelow, pathText_spelling, cutBack_eq_ok.2 ⟨rfl, rfl⟩] at hcut
  cases hcut
  rw [hbelow] at hnumber
  rcases hq with rfl | rfl
  · cases hnumber with
    | whole hne hds => exact .whole hne hds
    | other hne => exact absurd rfl hne
  · cases hnumber with
    | decimal hleading hds hes => exact .decimal hleading hds hes
    | other _ hne => exact absurd rfl hne

end Charted

/-! ### Tokens -/

/-- The label of a token is used for something else than numbers, or its value is a number. -/
def Token.Figures (g : Grammar) (t : Token) : Prop :=
  (∃ group, group ≠ .category ∧ t.kind ∈ g.labelsOf group) ∨ t.kind = g.labels.unknown ∨
    t.kind = g.labels.identifier ∨ IsFigure g.floatsHaveLeadingNumber t.value.toList

/-- The tokens of a lexeme are numbers, or their labels are used for something else. -/
def Lexeme.Figures (g : Grammar) (l : Lexeme) : Prop :=
  ∀ position, ∀ t ∈ l.tokens position, t.Figures g

/-- A grammar without interiors, and a chart of its automaton. -/
structure Grammar.Plots (g : Grammar) (a : Automaton) (place : NodeId → Locus) : Prop where
  flat : ∀ m ∈ g.greedyMatchers, m.subGrammar = none
  lone : g.toLexicon.LonePoint
  chart : Charted g.toLexicon (compileMatchers g.greedyMatchers) a place
  titled : Titled g.toLexicon (compileMatchers g.greedyMatchers) a.behaviour place
  unnamed : a.unnamed = g.unnamedLabel
  leading : a.Leading place g.floatsHaveLeadingNumber

/-- A grammar without interiors that compiles has a chart. -/
theorem Grammar.exists_plots {g : Grammar} {a : Automaton} (h : g.compile.result = .ok a)
    (hflat : ∀ m ∈ g.greedyMatchers, m.subGrammar = none) (hlone : g.toLexicon.LonePoint) :
    ∃ place, g.Plots a place := by
  obtain ⟨hunnamed, d, place, hchart, hfinishes, hbuilds⟩ := exists_builds h
  refine ⟨place, hflat, hlone, hfinishes.charted hchart,
    hfinishes.titled (Survey.titled_of_builds hbuilds (Survey.titled_start _)), hunnamed,
    fun htrue n m s hc => ?_⟩
  rw [hfinishes.child?, if_neg (by simp [htrue])] at hc
  exact (hchart.child hc).2

namespace Grammar.Plots

variable {g : Grammar} {a : Automaton} {place : NodeId → Locus} {landed : Cursor} {l : Lexeme}

/-- The text that goes out before a terminator is what its label says. -/
theorem figures_front (h : g.Plots a place) {label : Label} {length : Nat}
    (hb : (a.behaviour landed.node).action = .boundary label length)
    (hf : (place landed.node).Figures g.floatsHaveLeadingNumber landed.pending)
    {before terminator : List Char}
    (hcut : cutBack length landed.pending = .ok (before, terminator)) :
    (Lexeme.plain before (some label)).Figures g := by
  intro position t ht
  rw [Lexeme.tokens] at ht
  obtain ⟨hkind, hvalue, -⟩ := mem_tokenAt ht
  obtain rfl := Option.some.inj hkind
  have htitle := h.titled.action landed.node
  rw [hb] at htitle
  generalize hlabel : t.kind = label at htitle
  cases htitle with
  | @boundary q _ u hq hp =>
    have hfigure (hnumber : q = ⟨.number, []⟩ ∨ q = ⟨.float, []⟩) : t.Figures g :=
      .inr (.inr (.inr (hvalue ▸ h.chart.figure_of_boundary h.lone hb hnumber hp hf hcut)))
    cases hq with
    | unknown => exact .inr (.inl hlabel)
    | identifier => exact .inr (.inr (.inl hlabel))
    | beginning => exact .inr (.inr (.inl hlabel))
    | number => exact hfigure (.inl rfl)
    | decimal => exact hfigure (.inr rfl)
    | word hword =>
      exact .inl ⟨.keyword, (by simp), hlabel ▸ hword.of_compileMatchers.mem_labelsOf⟩

/-- What a node gives out is a number, or its label is used for something else. -/
theorem figures (h : g.Plots a place)
    (hf : (place landed.node).Figures g.floatsHaveLeadingNumber landed.pending)
    (hl : a.Gives landed l) : l.Figures g := by
  cases hl with
  | front hb hcut => exact h.figures_front hb hf hcut
  | release hrelease =>
    intro position t ht
    rw [Lexeme.tokens] at ht
    exact .inl ⟨.punctuation, (by simp),
      Option.some.inj (mem_tokenAt ht).1 ▸ h.titled.punctuation_of_release hrelease⟩
  | literal hliteral =>
    intro position t ht
    rw [Lexeme.tokens] at ht
    exact .inl ⟨.delimiter, (by simp),
      h.titled.delimiter_of_literal h.unnamed hliteral (mem_tokenAt ht).1⟩
  | whole hc =>
    intro position t ht
    rw [Lexeme.tokens] at ht
    have hkind := Option.some.inj (mem_tokenAt ht).1
    rcases h.titled.ends_of_close h.chart hc with ⟨-, hlabel⟩ | ⟨-, -, -, -, hlabel⟩
    · exact .inl ⟨.run, (by simp), hkind ▸ hlabel⟩
    · exact .inl ⟨.halted, (by simp), hkind ▸ hlabel⟩
  | nested hc hid =>
    obtain ⟨b, m, nested, u, hp, hends⟩ := h.chart.close_ends hc
    have hnone := h.chart.nested_eq_none (flat_compileMatchers h.flat) hp
    cases (hends.nested.trans hnone).symm.trans hid

end Grammar.Plots

/-! ### Scans -/

namespace Reading

variable {g : Grammar} {a : Automaton} {place : NodeId → Locus} {inner : InnerScan}
  {r r' : Reading} {ls : List Lexeme}

/-- A scan between two symbols: what is pending at a place of a number begins with it. -/
structure Figured (g : Grammar) (a : Automaton) (place : NodeId → Locus) (r : Reading) : Prop
    extends r.Spelled a place where
  figures : (place r.node).Figures g.floatsHaveLeadingNumber r.pending

theorem figured_root (h : g.Plots a place) (run : Option (NestedScan Progress))
    (idle : Array (Option Progress)) : Reading.Figured g a place { run, idle } :=
  ⟨spelled_root h.chart run idle, h.chart.figures_root⟩

/-- A node that acts leaves a number pending, or nothing. -/
theorem figures_settle (h : g.Plots a place)
    (hf : (place r.node).Figures g.floatsHaveLeadingNumber r.pending)
    (hs : r.settle a inner = .ok (r', ls)) :
    (place r'.node).Figures g.floatsHaveLeadingNumber r'.pending := by
  rw [settle] at hs
  split at hs
  · cases hs
    exact hf
  · cases hs
    exact hf
  · cases hs
    exact h.chart.figures_root
  · next c hc =>
    rcases close_cases hs with ⟨-, rfl, -⟩ | ⟨-, -, rfl, -⟩ | ⟨-, _, _, _, -, -, hgive⟩
    · -- The run goes on in its body.
      obtain ⟨b, m, nested, t, hp, hends⟩ := h.chart.close_ends hc
      change (place c.body).Figures _ r.pending
      rw [hends.body, (h.chart.body hp).1]
      exact Locus.figures_of_path_eq_nil rfl (.other (by simp) (by simp))
    · exact h.chart.figures_root
    · obtain ⟨_, _, _, _, _, -, -, -, rfl, -⟩ := exists_of_giveOut hgive
      exact h.chart.figures_root

theorem figures_act (h : g.Plots a place) (hspells : (place r.node).Spells r.pending)
    (hf : (place r.node).Figures g.floatsHaveLeadingNumber r.pending)
    (hs : r.act a inner = .ok (r', ls)) :
    (place r'.node).Figures g.floatsHaveLeadingNumber r'.pending := by
  rw [act] at hs
  split at hs
  · next hb =>
    obtain ⟨⟨before, terminator⟩, hcut, hs⟩ := bind_eq_ok.1 hs
    obtain ⟨⟨c, released⟩, hm, hs⟩ := bind_eq_ok.1 hs
    obtain ⟨⟨r₁, out⟩, hsettle, hs⟩ := bind_eq_ok.1 hs
    cases hs
    obtain ⟨t, ht, front, hpending, hlength⟩ := h.chart.boundary_spells h.lone hb hspells
    rw [cutBack_eq_ok.2 ⟨hpending, hlength⟩] at hcut
    cases hcut
    exact figures_settle (r := { r with toCursor := c }) h
      (h.chart.figures_terminator h.leading h.lone ht hm) hsettle
  · exact figures_settle h hf hs

/-- A symbol keeps numbers, and gives out numbers only under their labels. -/
theorem Figured.advance (hr : r.Figured g a place) (hsound : r.Sound a place 0)
    (h : g.Plots a place) {s : Symbol} (ha : r.advance a inner s = .ok (r', ls)) :
    r'.Figured g a place ∧ ∀ l ∈ ls, l.Figures g := by
  obtain ⟨landed, _, hm, hgives⟩ := advance_gives ha
  have hf := h.chart.figures_move h.leading hr.rests hr.spells hr.figures hm
  refine ⟨⟨(hr.toSpelled.advance hsound h.chart h.lone ha).1, ?_⟩,
    fun l hl => h.figures hf (hgives l hl)⟩
  obtain ⟨⟨c, released⟩, hm', ha⟩ := bind_eq_ok.1 ha
  cases hm.symm.trans hm'
  obtain ⟨r₁, he, ha⟩ := bind_eq_ok.1 ha
  obtain ⟨⟨r₂, out⟩, hact, ha⟩ := bind_eq_ok.1 ha
  obtain ⟨r₃, hfeed, ha⟩ := bind_eq_ok.1 ha
  cases ha
  rw [feed_toCursor hfeed]
  refine figures_act h (hr.toSpelled.enter h.chart hm he) ?_ hact
  rwa [enter_toCursor he]

theorem Figured.read (hr : r.Figured g a place) (hsound : r.Sound a place 0) (h : g.Plots a place)
    {text : List Char} (hread : r.read a inner text = .ok (r', ls)) :
    r'.Figured g a place ∧ ∀ l ∈ ls, l.Figures g := by
  induction text generalizing r ls with
  | nil =>
    cases hread
    exact ⟨hr, List.forall_mem_nil _⟩
  | cons c text ih =>
    obtain ⟨⟨r₁, out⟩, ha, hread⟩ := bind_eq_ok.1 hread
    obtain ⟨⟨r₂, outs⟩, hread', hread⟩ := bind_eq_ok.1 hread
    cases hread
    obtain ⟨hr₁, hout⟩ := hr.advance hsound h ha
    obtain ⟨hr₂, houts⟩ := ih hr₁ (hsound.advance h.chart ha) hread'
    exact ⟨hr₂, List.forall_mem_append.2 ⟨hout, houts⟩⟩

end Reading

/-- A whole input gives out numbers only under their labels. -/
theorem Grammar.Plots.figures_lexemes {g : Grammar} {a : Automaton} {place : NodeId → Locus}
    (h : g.Plots a place) {x : String} {ls : List Lexeme} (hx : a.lexemes x = .ok ls) :
    ∀ l ∈ ls, l.Figures g := by
  obtain ⟨r₁, ls₁, r₂, ls₂, hread, ha, rfl⟩ := Automaton.exists_of_lexemes hx
  have hr := Reading.figured_root h none (Array.replicate a.runs.length none)
  have hsound := Reading.sound_root h.chart 0 (Array.replicate a.runs.length none)
  obtain ⟨hr₁, hls₁⟩ := hr.read hsound h hread
  obtain ⟨-, hls₂⟩ := hr₁.advance (hsound.read h.chart hread) h ha
  exact List.forall_mem_append.2 ⟨hls₁, List.forall_mem_append.2
    ⟨hls₂, List.forall_mem_singleton.2 fun _ _ ht => nomatch ht⟩⟩

/-- Tokens under the labels of numbers are numbers: digits with at most one point among them. A
token without a digit is the point alone, where numbers may begin with it. -/
theorem Grammar.figuring {g : Grammar} {a : Automaton} (h : g.compile.result = .ok a)
    (hflat : ∀ m ∈ g.greedyMatchers, m.subGrammar = none) (hlone : g.toLexicon.LonePoint)
    (hown : ∀ label ∈ [g.labels.number, g.labels.decimal],
      (∀ group, label ∈ g.labelsOf group → group = .category) ∧
        label ≠ g.labels.unknown ∧ label ≠ g.labels.identifier) (input : String) :
    ∃ tokens, a.tokenize input = .ok tokens ∧
      ∀ t ∈ tokens, t.kind ∈ [g.labels.number, g.labels.decimal] →
        (∀ c ∈ t.value.toList, c.isDigit = true ∨ c = '.') ∧ t.value.toList.count '.' ≤ 1 ∧
          ((∃ c ∈ t.value.toList, c.isDigit = true) ∨
            t.value = "." ∧ g.floatsHaveLeadingNumber = false) := by
  obtain ⟨place, hplots⟩ := exists_plots h hflat hlone
  have hlawful : Lawful True a := g.lawful_of_flat h hflat hlone
  obtain ⟨tokens, htokens⟩ := hlawful.exists_tokenize input
  refine ⟨tokens, htokens, fun t ht hkind => ?_⟩
  rw [hplots.chart.tokenize_eq] at htokens
  cases hls : a.lexemes input with
  | error e => rw [hls] at htokens; cases htokens
  | ok ls =>
    rw [hls] at htokens
    cases htokens
    obtain ⟨front, l, back, rfl, hmem⟩ := exists_of_mem_listing ht
    have hfigures := hplots.figures_lexemes hls l (by simp) _ t hmem
    obtain ⟨hgroups, hunknown, hidentifier⟩ := hown _ hkind
    rcases hfigures with ⟨group, hne, hgroup⟩ | hlabel | hlabel | hfigure
    · exact absurd (hgroups group hgroup) hne
    · exact absurd hlabel hunknown
    · exact absurd hlabel hidentifier
    · refine ⟨hfigure.isDigit_or, hfigure.count_le, hfigure.exists_isDigit.imp_right ?_⟩
      rintro ⟨hpoint, hleading⟩
      exact ⟨String.toList_inj.1 hpoint, hleading⟩

namespace Grammar

/-- A grammar whose numbers have labels of their own, and in which the point is a mark as well. -/
def measured : Grammar where
  keywords := [.bare "x1"]
  punctuation := [.bare "+", .bare "."]
  delimiters := [.named "space" (.one " ")]
  greedyMatchers := [{ kind := "quoted", startsWith := "'", endsWith := some "'" }]
  labels := { float := some "FLOAT" }

theorem figuring_measured : ∃ a, measured.compile.result = .ok a ∧
    ∃ tokens, a.tokenize "12+.5 x1 3. .'4" = .ok tokens ∧
      ∀ t ∈ tokens, t.kind ∈ [measured.labels.number, measured.labels.decimal] →
        (∀ c ∈ t.value.toList, c.isDigit = true ∨ c = '.') ∧ t.value.toList.count '.' ≤ 1 ∧
          ((∃ c ∈ t.value.toList, c.isDigit = true) ∨
            t.value = "." ∧ measured.floatsHaveLeadingNumber = false) := by
  obtain ⟨a, -, -, ha, -⟩ := measured.exists_run [] (by decide +kernel)
  refine ⟨a, ha, figuring ha (fun m hm => ?_) (by decide) (fun label hlabel => ?_) _⟩
  · obtain rfl := List.mem_singleton.1 hm
    rfl
  · have hgroups : ∀ group, group ≠ .category →
        ∀ label ∈ [measured.labels.number, measured.labels.decimal],
          label ∉ measured.labelsOf group := by
      rintro (_ | _ | _ | _ | _ | _) <;> decide
    refine ⟨fun group hgroup => Decidable.byContradiction fun hne =>
      hgroups group hne label hlabel hgroup, ?_⟩
    revert label
    decide

/-- A number may begin with its point, and nothing has to follow: in the grammar without
definitions, whose labels are all different, the point alone is a number without a digit. -/
theorem tokenize_point : ∃ a, ({} : Grammar).compile.result = .ok a ∧
    (∀ label ∈ [({} : Grammar).labels.number, ({} : Grammar).labels.decimal],
      (∀ group, label ∈ ({} : Grammar).labelsOf group → group = .category) ∧
        label ≠ ({} : Grammar).labels.unknown ∧ label ≠ ({} : Grammar).labels.identifier) ∧
    a.tokenize "." = .ok [⟨".", ({} : Grammar).labels.number, 0⟩] ∧
    ¬∃ c ∈ ".".toList, c.isDigit = true := by
  have htokens : (({} : Grammar).compile.result.toOption.bind fun a => (a.tokenize ".").toOption) =
      some [⟨".", ({} : Grammar).labels.number, 0⟩] := by decide +kernel
  obtain ⟨a, ha, htokens⟩ := exists_tokens htokens
  refine ⟨a, ha, fun label hlabel => ⟨fun group hgroup => ?_, ?_⟩, htokens, ?_⟩
  · cases group with
    | category => rfl
    | _ => cases hgroup
  · revert label
    decide
  · rintro ⟨c, hc, hdigit⟩
    obtain rfl : c = '.' := List.mem_singleton.1 hc
    cases hdigit

end Grammar

end TrieLexer
