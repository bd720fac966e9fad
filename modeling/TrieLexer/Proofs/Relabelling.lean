import TrieLexer.Proofs.Resumption
import TrieLexer.Proofs.Wordless

/-!
# Keywords are relabelled identifiers

A grammar with keywords is scanned beside the same grammar without them. As long as the pending
text goes on as a keyword does, the one scan stands below the root and the other one at an
identifier, and both end the token before the same terminators. Once no keyword begins with the
pending text, both scans stand at the same node, and whatever they give out is no keyword.

## Main definitions

* `Token.relabel` — a token under the label of the keyword that it is.
* `IsStrange` — no word begins with a text.
* `Locus.Alien` — a text that may be pending at a place without being a word.
* `Beside` — automata with and without words.
* `Abreast`, `Beside.Stands` — cursors and scans that stand alike in both.

## Main results

* `Beside.move`, `Beside.act`, `Beside.advance` — a symbol gives out the same text in both.
* `Grammar.relabelling` — the tokens of a grammar are those of the grammar without its keywords,
  relabelled.
* `Grammar.tokenize_pointedWord` — a mark that goes on after a point may give out a text as a
  keyword that is none.
-/

namespace TrieLexer

open Text (byteLength)

/-! ### Tokens under other labels -/

/-- A token under the label of the word that it is, if it is one. -/
def Token.relabel (words : List (String × Label)) (t : Token) : Token :=
  { t with kind := (words.lookup t.value).getD t.kind }

/-- Lexemes with the same text, of which the second ones give the tokens of the first ones under the
labels of words. -/
structure Relabels (words : List (String × Label)) (ls₀ ls : List Lexeme) : Prop where
  spelled : spelled ls = spelled ls₀
  listing (position : Nat) : listing position ls = (listing position ls₀).map (·.relabel words)

/-- No word begins with a text. -/
def IsStrange (words : List (String × Label)) (text : List Char) : Prop :=
  ∀ p ∈ words, ¬text <+: p.1.toList

variable {words : List (String × Label)} {text rest : List Char} {label label' : Label}
  {ls ls₀ ms ms₀ : List Lexeme}

theorem IsStrange.append (h : IsStrange words text) (rest : List Char) :
    IsStrange words (text ++ rest) :=
  fun p hp hfront => h p hp ((List.prefix_append ..).trans hfront)

theorem IsStrange.lookup_eq_none (h : IsStrange words text) :
    words.lookup (String.ofList text) = none :=
  TrieLexer.lookup_eq_none.2 fun p hp htext => h p hp (htext ▸ List.prefix_rfl)

namespace Relabels

theorem nil (words : List (String × Label)) : Relabels words [] [] := ⟨rfl, fun _ => rfl⟩

theorem append (h : Relabels words ls₀ ls) (h' : Relabels words ms₀ ms) :
    Relabels words (ls₀ ++ ms₀) (ls ++ ms) where
  spelled := by rw [spelled_append, spelled_append, h.spelled, h'.spelled]
  listing position := by
    rw [listing_append, listing_append, List.map_append, h.listing, h.spelled, h'.listing]

/-- Text goes out under the label of the word that it is. -/
theorem plain (h : label' = (words.lookup (String.ofList text)).getD label) :
    Relabels words [.plain text (some label)] [.plain text (some label')] := by
  refine ⟨rfl, fun position => ?_⟩
  simp only [TrieLexer.listing, Lexeme.tokens, tokenAt, List.append_nil]
  split
  · rfl
  · rw [h]
    rfl

/-- A text that is no word keeps its label. -/
theorem same (h : words.lookup (String.ofList text) = none ∨ text = []) (label : Option Label) :
    Relabels words [.plain text label] [.plain text label] := by
  cases label with
  | none => exact ⟨rfl, fun _ => rfl⟩
  | some label =>
    rcases h with h | rfl
    · exact plain (by rw [h]; rfl)
    · exact ⟨rfl, fun _ => rfl⟩

theorem whole {c c' : Close} (h : words.lookup (String.ofList text) = none ∨ text = [])
    (hlabel : c'.label = c.label) : Relabels words [.whole text c] [.whole text c'] := by
  have hplain := same h (some c.label)
  refine ⟨rfl, fun position => ?_⟩
  have hlisting := hplain.listing position
  simp only [TrieLexer.listing, Lexeme.tokens] at hlisting ⊢
  rw [hlabel]
  exact hlisting

end Relabels

/-! ### Places -/

/-- A text may be pending at a place without being the beginning of a word: what stands before the
path to the place is strange already, or the path leads from the root by a strange text. -/
def Locus.Alien (words : List (String × Label)) (p : Locus) (text : List Char) : Prop :=
  ∃ before, text = before ++ pathText p.path ∧
    ((p.origin = .root ∧ before = [] ∧ ∃ c path, p.path = .char c :: path ∧ IsStrange words [c]) ∨
      p.origin ≠ .root ∧ IsStrange words before)

namespace Locus

variable {p q : Locus} {s : Symbol}

theorem Alien.strange (h : p.Alien words text) : IsStrange words text := by
  obtain ⟨before, rfl, ⟨-, rfl, c, path, hpath, hc⟩ | ⟨-, hbefore⟩⟩ := h
  · rw [hpath]
    exact hc.append (pathText path)
  · exact hbefore.append _

theorem Alien.ne_root (h : p.Alien words text) : p ≠ ⟨.root, []⟩ := by
  rintro rfl
  obtain ⟨before, -, ⟨-, -, c, path, hpath, -⟩ | ⟨hroot, -⟩⟩ := h
  · cases hpath
  · exact hroot rfl

/-- A strange text may be pending at an origin. -/
theorem alien_origin (h : IsStrange words text) (hroot : p.origin ≠ .root) (hpath : p.path = []) :
    p.Alien words text :=
  ⟨text, by rw [hpath, pathText_nil, List.append_nil], .inr ⟨hroot, h⟩⟩

theorem alien_below (h : IsStrange words text) (hroot : p.origin ≠ .root) (hpath : p.path = [s]) :
    p.Alien words (text ++ s.text) :=
  ⟨text, by rw [hpath, pathText_singleton], .inr ⟨hroot, h⟩⟩

/-- What stands before the end of the path is no word. -/
theorem Alien.cut (h : p.Alien words text) {front : List Symbol} {t : List Char}
    (hpath : p.path = front ++ spelling t) :
    ∃ x, text = x ++ t ∧ (words.lookup (String.ofList x) = none ∨ x = []) := by
  obtain ⟨before, rfl, hstrange⟩ := h
  refine ⟨before ++ pathText front, by simp [hpath], ?_⟩
  rcases hstrange with ⟨-, rfl, c, path, hroot, hc⟩ | ⟨-, hbefore⟩
  · cases front with
    | nil => exact .inr rfl
    | cons u front =>
      obtain ⟨rfl, -⟩ := List.cons.inj (hpath.symm.trans hroot)
      exact .inl (hc.append (pathText front)).lookup_eq_none
  · exact .inl (hbefore.append _).lookup_eq_none

theorem Alien.down (h : p.Alien words text) (s : Symbol) :
    (p.down s).Alien words (text ++ s.text) := by
  obtain hd | ⟨-, -, hd⟩ := p.down_eq_or s
  · obtain ⟨before, rfl, hstrange⟩ := h
    rw [hd]
    refine ⟨before, by simp, hstrange.imp (fun ⟨hroot, hbefore, c, path, hpath, hc⟩ => ?_) id⟩
    exact ⟨hroot, hbefore, c, path ++ [s], by rw [hpath]; rfl, hc⟩
  · rw [hd]
    exact alien_origin (h.strange.append _) (by simp) rfl

/-- What is pending goes on being no word. -/
theorem Leads.alien {stays : Prop} (hl : p.Leads stays s q) (hstays : stays → p.IsRest)
    (h : p.Alien words text) : q.Alien words (text ++ s.text) := by
  have hstrange := h.strange.append s.text
  cases hl with
  | down => exact h.down s
  | point => exact alien_origin hstrange (by simp) rfl
  | stay hstay => exact alien_origin hstrange (hstays hstay).origin_ne.1 (hstays hstay).1
  | category hp ho => rcases ho with rfl | rfl | rfl <;> exact alien_origin hstrange (by simp) rfl
  | decimal => exact alien_origin hstrange (by simp) rfl
  | unknown => exact alien_below h.strange (by simp) rfl
  | enter hp hrest =>
    rcases hrest with rfl | rfl
    · exact alien_origin hstrange (by simp) rfl
    · exact alien_below h.strange (by simp) rfl
  | back hp hrest =>
    rcases hrest with rfl | rfl
    · exact alien_origin hstrange (by simp) rfl
    · exact alien_below h.strange (by simp) rfl

end Locus

/-! ### Walks -/

/-- The end of a path is the end of a token, lies on the way to one, or is not there. -/
theorem Lexicon.ending_cases (lexicon : Lexicon) (q : List Symbol) :
    (∃ t ∈ lexicon.terminators, q = spelling t.toList ∧ ∀ label weak,
      lexicon.ending label weak q = some (.ended label weak (byteLength t.toList))) ∨
    (∃ t ∈ lexicon.terminators, q <+: spelling t.toList ∧ q ≠ spelling t.toList ∧ ∀ label weak,
      lexicon.ending label weak q = some .through) ∨
    (∀ t ∈ lexicon.terminators, ¬q <+: spelling t.toList) ∧ ∀ label weak,
      lexicon.ending label weak q = none := by
  by_cases hend : ∃ t ∈ lexicon.terminators, q = spelling t.toList
  · obtain ⟨t, ht, rfl⟩ := hend
    refine .inl ⟨t, ht, rfl, fun label weak => ?_⟩
    rw [ending, if_pos ⟨t, ht, rfl⟩, pathText_spelling]
  · by_cases hway : ∃ t ∈ lexicon.terminators, q <+: spelling t.toList
    · obtain ⟨t, ht, hfront⟩ := hway
      refine .inr (.inl ⟨t, ht, hfront, fun heq => hend ⟨t, ht, heq⟩, fun label weak => ?_⟩)
      rw [ending, if_neg hend, if_pos ⟨t, ht, hfront⟩]
    · refine .inr (.inr ⟨fun t ht hfront => hway ⟨t, ht, hfront⟩, fun label weak => ?_⟩)
      rw [ending, if_neg hend, if_neg hway]

/-- A path that is longer by one symbol leads to a child. -/
theorem Trie.follow?_snoc {t : Trie Behaviour} {b n : NodeId} {path : List Symbol}
    (h : t.follow? b path = some n) (s : Symbol) : t.follow? b (path ++ [s]) = t.child? n s := by
  rw [follow?_concat, h]
  rfl

theorem StateGraph.resolve_of_dispatch {g : StateGraph} {n : NodeId} {s : Symbol}
    (hc : g.trie.child? n s = none) (hf : (g.behaviour n).fallback = .dispatch) :
    g.resolve n s = .node (g.dispatch s) := by
  rw [resolve, resolveWithin, hc, hf]

theorem StateGraph.resolve_of_classify {g : StateGraph} {n : NodeId} {s : Symbol}
    (hc : g.trie.child? n s = none)
    (hf : (g.behaviour n).fallback = Lexicon.identifierFallback) :
    g.resolve n s = .node (if g.passes .identifierContinue s then .identifier else .unknown) := by
  rw [resolve, resolveWithin, hc, hf]
  rfl

theorem Charted.place_ne_root {lexicon : Lexicon} {matchers : List (GreedyMatcher Compilation)}
    {a : Automaton} {place : NodeId → Locus} (h : Charted lexicon matchers a place) {n m : NodeId}
    {s : Symbol} (hc : a.trie.child? n s = some m) : place m ≠ ⟨.root, []⟩ := by
  obtain hm | ⟨-, -, hm⟩ := h.child hc
  · exact hm ▸ Locus.down_ne_root _ _
  · simp [hm]

theorem Charted.resolve_of_reroute {lexicon : Lexicon} {matchers : List (GreedyMatcher Compilation)}
    {a : Automaton} {place : NodeId → Locus} (h : Charted lexicon matchers a place) {n : NodeId}
    {s : Symbol} (hc : a.trie.child? n s = none)
    (hf : (a.behaviour n).fallback = .reroute .unknown) :
    a.resolve n s = .node ((a.trie.child? .unknown s).getD .unknown) := by
  rw [h.resolve_eq, StateGraph.resolveWithin, hc, hf]
  exact h.resolveWithin_rest (h.place_unknown ▸ Locus.isRest_unknown) 0 s

/-- A word is longer by a character that goes on as an identifier does. -/
theorem Lexicon.IsWordlike.concat {lexicon : Lexicon} {x : List Char} (h : lexicon.IsWordlike x)
    {d : Char} (hd : lexicon.identifierContinue.contains d = true) :
    lexicon.IsWordlike (x ++ [d]) := by
  refine ⟨by simp, fun c hc => ?_⟩
  rw [List.tail_append_of_ne_nil h.1, List.mem_append, List.mem_singleton] at hc
  rcases hc with hc | rfl
  · exact h.2 c hc
  · exact hd

/-- An automaton with words beside the automaton without them. -/
structure Beside (lexicon lexicon₀ : Lexicon) (matchers : List (GreedyMatcher Compilation))
    (words : List (String × Label)) (f : NodeId → NodeId) (plain a : Automaton)
    (place place' : NodeId → Locus) : Prop where
  enriches : StateGraph.Enriches lexicon words f plain.toStateGraph a.toStateGraph
  chart₀ : Charted lexicon₀ matchers plain place
  chart : Charted lexicon matchers a place'
  flat : ∀ m ∈ matchers, m.subGrammar = none
  lone : lexicon.LonePoint
  terminators : lexicon₀.terminators = lexicon.terminators
  shaped : ∀ p ∈ words, lexicon.isIdentifierShaped p.1.toList = true
  mark : ∀ t ∈ lexicon.terminators, ∀ c ∈ t.toList.head?,
    lexicon.identifierStart.contains c = false ∧ lexicon.identifierContinue.contains c = false

/-- A text that begins a word. -/
structure Wording (lexicon : Lexicon) (words : List (String × Label)) (x : List Char) : Prop where
  wordlike : lexicon.IsWordlike x
  starts : ∀ c ∈ x.head?, lexicon.identifierStart.contains c = true
  stands : standingIn words x ≠ .absent

/-- Cursors that stand alike: at the root, at a node and its image with nothing pending that is a
word, or at an identifier and at the same text as a word. -/
inductive Abreast (lexicon : Lexicon) (words : List (String × Label)) (f : NodeId → NodeId)
    (place : NodeId → Locus) (g g' : StateGraph) : Cursor → Cursor → Prop
  | top : Abreast lexicon words f place g g' {} {}
  | same {n : NodeId} {pending : List Char} (h : (place n).Alien words pending) :
      Abreast lexicon words f place g g' ⟨n, pending⟩ ⟨f n, pending⟩
  | word {x : List Char} {q : List Symbol} {n₀ n : NodeId} (hx : Wording lexicon words x)
      (hq : lexicon.IsEnding q) (hn₀ : g.trie.follow? .identifier q = some n₀)
      (hn : g'.trie.follow? .root (x.map .char ++ q) = some n) :
      Abreast lexicon words f place g g' ⟨n₀, x ++ pathText q⟩ ⟨n, x ++ pathText q⟩

namespace Beside

variable {lexicon lexicon₀ : Lexicon} {matchers : List (GreedyMatcher Compilation)}
  {f : NodeId → NodeId} {plain a : Automaton} {place place' : NodeId → Locus}
  {inner inner₀ : InnerScan} {c c₀ c₀' : Cursor} {s : Symbol} {n n₀ m : NodeId} {q : List Symbol}
  {x : List Char} {d : Char}

/-- Where a symbol leads: the cursors stand alike, or at the end of input nothing is pending. -/
def Meets (lexicon : Lexicon) (words : List (String × Label)) (f : NodeId → NodeId)
    (place : NodeId → Locus) (g g' : StateGraph) (s : Symbol) (c₀ c : Cursor) : Prop :=
  Abreast lexicon words f place g g' c₀ c ∨
    s = .endOfInput ∧ ∃ n, c₀ = ⟨n, []⟩ ∧ c = ⟨f n, []⟩

variable (h : Beside lexicon lexicon₀ matchers words f plain a place place')

include h

/-! ### Strange texts -/

/-- No word begins with a character with which no identifier begins. -/
theorem strange_of_start (hd : lexicon.identifierStart.contains d = false) :
    IsStrange words [d] := by
  intro p hp hfront
  have hshaped := h.shaped p hp
  obtain ⟨more, hmore⟩ := hfront
  rw [← hmore] at hshaped
  exact absurd (Bool.and_eq_true_iff.1 hshaped).1 (by rw [hd]; exact Bool.false_ne_true)

/-- No word goes on as no identifier does. -/
theorem strange_of_continue (hx : x ≠ []) (hd : lexicon.identifierContinue.contains d = false) :
    IsStrange words (x ++ [d]) := by
  intro p hp hfront
  have hshaped := h.shaped p hp
  obtain ⟨more, hmore⟩ := hfront
  obtain ⟨c, x, rfl⟩ := List.exists_cons_of_ne_nil hx
  rw [← hmore] at hshaped
  have hmem : d ∈ x ++ [d] ++ more := by simp
  exact absurd (List.all_eq_true.1 (Bool.and_eq_true_iff.1 hshaped).2 d hmem)
    (by rw [hd]; exact Bool.false_ne_true)

/-! ### Moving -/

theorem place_identifier : place .identifier = ⟨.identifier, []⟩ :=
  h.chart₀.place_category (o := .identifier) (by simp)

/-- An identifier whose text is no word is the same on both sides. -/
theorem same_identifier (hx : IsStrange words x) :
    Abreast lexicon words f place plain.toStateGraph a.toStateGraph ⟨.identifier, x⟩
      ⟨.identifier, x⟩ := by
  have hplace := h.place_identifier
  have hsame : Abreast lexicon words f place plain.toStateGraph a.toStateGraph ⟨.identifier, x⟩
      ⟨f .identifier, x⟩ :=
    .same (Locus.alien_origin hx (by simp [hplace]) (by rw [hplace]))
  rwa [h.enriches.renames.identifier] at hsame

/-- From the root both go on alike. -/
theorem resolve_root (hr : plain.resolve .root s = .node n₀) : ∃ n, a.resolve .root s = .node n ∧
    Meets lexicon words f place plain.toStateGraph a.toStateGraph s ⟨n₀, s.text⟩ ⟨n, s.text⟩ := by
  have hf := h.enriches.renames
  by_cases hstarts : lexicon.Starts s
  · obtain ⟨c, rfl, hc⟩ := hstarts
    have hplain := StateGraph.resolve_of_dispatch (h.enriches.root ⟨c, rfl, hc⟩) h.chart₀.dispatch
    have hdispatch : plain.dispatch (.char c) = .identifier := by
      rw [StateGraph.dispatch, h.enriches.identifierStart, if_pos hc]
    rw [hdispatch, hr] at hplain
    cases hplain
    have hword := h.enriches.word (x := [c]) (q := []) ⟨by simp, by simp⟩ (by simpa using hc)
      (lexicon.isEnding_nil)
    have hfollow : a.trie.follow? .root ([c].map .char ++ []) = a.trie.child? .root (.char c) :=
      (Trie.follow?_cons ..).trans (bind_pure _)
    by_cases hs : standingIn words [c] = .absent
    · rw [hs] at hword
      refine ⟨.identifier, ?_, .inl (h.same_identifier (standingIn_eq_absent.1 hs))⟩
      rw [StateGraph.resolve_of_dispatch (hfollow.symm.trans hword) h.chart.dispatch,
        h.enriches.mirrors.dispatch hf, hdispatch, hf.identifier]
    · obtain ⟨role, weak, hface⟩ := face_standingIn lexicon hs
      rw [hface] at hword
      obtain ⟨n, hn, -⟩ := hword
      refine ⟨n, StateGraph.resolve_of_child (hfollow.symm.trans hn), .inl ?_⟩
      exact .word (x := [c]) (q := []) ⟨⟨by simp, by simp⟩, by simpa using hc, hs⟩
        lexicon.isEnding_nil rfl hn
  · have hresolve := h.enriches.mirrors.resolve hf h.chart₀ h.chart (n := .root) fun _ => hstarts
    rw [hf.root, hr] at hresolve
    refine ⟨f n₀, hresolve, ?_⟩
    cases s with
    | endOfInput => exact .inr ⟨rfl, n₀, rfl, rfl⟩
    | char c =>
      have hstrange : IsStrange words [c] := h.strange_of_start (by
        refine Bool.eq_false_iff.2 fun hc => hstarts ⟨c, rfl, hc⟩)
      refine .inl (.same ?_)
      rw [StateGraph.resolve, StateGraph.resolveWithin] at hr
      cases hc : plain.trie.child? .root (.char c) with
      | some m =>
        rw [hc] at hr
        cases hr
        obtain hm | ⟨-, -, hm⟩ := h.chart₀.child hc
        · rw [hm, h.chart₀.place_root, Locus.down_of_origin_ne (by simp)]
          exact ⟨[], by simp [pathText], .inl ⟨rfl, rfl, c, [], rfl, hstrange⟩⟩
        · exact Locus.alien_origin hstrange (by simp [hm]) (by rw [hm])
      | none =>
        rw [hc, h.chart₀.dispatch] at hr
        cases hr
        obtain ⟨o, ho, hplace⟩ := h.chart₀.place_dispatch (.char c)
        refine Locus.alien_origin hstrange ?_ (by rw [hplace])
        rw [hplace]
        rcases ho with rfl | rfl | rfl <;> simp

/-- From a node that is not the root both go on alike. -/
theorem resolve_same (hn : n ≠ .root) : a.resolve (f n) s = (plain.resolve n s).rename f :=
  h.enriches.mirrors.resolve h.enriches.renames h.chart₀ h.chart fun heq => absurd heq hn

/-- From a node with nothing pending that is a word both go on alike. -/
theorem move_same {text : List Char} {ls₀ : List Lexeme} (halien : (place n).Alien words text)
    (hrests : (plain.behaviour n).action = .none)
    (hm : plain.move ⟨n, text⟩ s = .ok (c₀', ls₀)) : ∃ c' ls, a.move ⟨f n, text⟩ s = .ok (c', ls) ∧
      Meets lexicon words f place plain.toStateGraph a.toStateGraph s c₀' c' ∧
      Relabels words ls₀ ls := by
  have hn : n ≠ .root := by
    rintro rfl
    exact halien.ne_root h.chart₀.place_root
  have hresolve := h.resolve_same (s := s) hn
  rw [StateGraph.move] at hm ⊢
  dsimp only at hm ⊢
  rw [hresolve]
  cases hr : plain.resolve n s with
  | node m =>
    rw [hr] at hm
    cases hm
    have hleads := h.chart₀.leads hr
    exact ⟨_, _, rfl, .inl (.same (hleads.alien (h.chart₀.settled · hrests) halien)), .nil _⟩
  | release label =>
    rw [hr] at hm
    dsimp only [Step.rename] at hm ⊢
    obtain ⟨m, hroot⟩ := h.chart₀.resolve_root s
    rw [hroot] at hm
    cases hm
    obtain ⟨m', hroot', hmeets⟩ := h.resolve_root hroot
    rw [hroot']
    exact ⟨_, _, rfl, hmeets, .same (.inl halien.strange.lookup_eq_none) _⟩

/-- What follows a word and belongs to a mark is no part of a word. -/
theorem strange_of_terminator {t : String} (ht : t ∈ lexicon.terminators) (hne : t ≠ "")
    (hx : x ≠ []) (hq : q ≠ []) (hfront : q <+: spelling t.toList) :
    IsStrange words (x ++ pathText q) := by
  obtain ⟨u, q, rfl⟩ := List.exists_cons_of_ne_nil hq
  obtain ⟨d, ds, htext⟩ := List.exists_cons_of_ne_nil (mt String.toList_eq_nil_iff.1 hne)
  rw [htext, spelling_cons, List.cons_prefix_cons] at hfront
  obtain ⟨rfl, -⟩ := hfront
  have hmark := h.mark t ht d (by rw [htext]; rfl)
  have happend : x ++ pathText (.char d :: q) = x ++ [d] ++ pathText q := by
    simp [pathText, Symbol.text]
  rw [happend]
  exact (h.strange_of_continue hx hmark.2).append _

theorem behaviour_identifier :
    (plain.behaviour .identifier).fallback = Lexicon.identifierFallback ∧
      (plain.behaviour .identifier).action = .none := by
  obtain ⟨_, ⟨⟩, hf, ha⟩ := h.enriches.identifier []
  exact ⟨hf, ha⟩

/-- A word goes on as an identifier does. -/
theorem behaviour_word (hx : Wording lexicon words x)
    (hn : a.trie.follow? .root (x.map .char) = some n) :
    (a.behaviour n).fallback = Lexicon.identifierFallback ∧ (a.behaviour n).action = .none := by
  have hword := h.enriches.word hx.wordlike hx.starts lexicon.isEnding_nil
  obtain ⟨role, weak, hface⟩ := face_standingIn lexicon hx.stands
  rw [hface, Lexicon.standing, if_pos rfl] at hword
  obtain ⟨k, hk, hf, ha⟩ := hword
  rw [List.append_nil, hn] at hk
  cases hk
  exact ⟨hf, ha⟩

/-- Below a word and below an identifier the same paths end the token, or none. -/
theorem ending_alike (hx : Wording lexicon words x) (hq : lexicon.IsEnding q) (hne : q ≠ []) :
    (∃ t ∈ lexicon.terminators, ∃ n₀ n, q = spelling t.toList ∧
      plain.trie.follow? .identifier q = some n₀ ∧
      a.trie.follow? .root (x.map .char ++ q) = some n ∧
      (plain.behaviour n₀).action =
        .boundary lexicon.labels.identifier (byteLength t.toList) ∧
      (a.behaviour n).action =
        .boundary ((words.lookup (String.ofList x)).getD lexicon.labels.identifier)
          (byteLength t.toList)) ∨
    (∃ t ∈ lexicon.terminators, ∃ n₀ n, q <+: spelling t.toList ∧ q ≠ spelling t.toList ∧
      plain.trie.follow? .identifier q = some n₀ ∧
      a.trie.follow? .root (x.map .char ++ q) = some n ∧
      (plain.behaviour n₀).fallback = .reroute .unknown ∧ (plain.behaviour n₀).action = .none ∧
      (a.behaviour n).fallback = .reroute .unknown ∧ (a.behaviour n).action = .none) ∨
    (∀ t ∈ lexicon.terminators, ¬q <+: spelling t.toList) ∧
      plain.trie.follow? .identifier q = none ∧
      a.trie.follow? .root (x.map .char ++ q) = none := by
  obtain ⟨role, weak, hface⟩ := face_standingIn lexicon hx.stands
  have hplain := h.enriches.identifier q
  have hword := h.enriches.word hx.wordlike hx.starts hq
  rw [hface, Lexicon.standing, if_neg hne] at hword
  rw [Lexicon.face, Lexicon.standing, if_neg hne] at hplain
  obtain ⟨t, ht, hspell, hending⟩ | ⟨t, ht, hfront, hproper, hending⟩ | ⟨hnone, hending⟩ :=
    lexicon.ending_cases q
  · rw [hending] at hword hplain
    obtain ⟨n₀, hn₀, -, ha₀⟩ := hplain
    obtain ⟨n, hn, -, ha⟩ := hword
    exact .inl ⟨t, ht, n₀, n, hspell, hn₀, hn, ha₀, ha⟩
  · rw [hending] at hword hplain
    obtain ⟨n₀, hn₀, hf₀, ha₀⟩ := hplain
    obtain ⟨n, hn, hf, ha⟩ := hword
    exact .inr (.inl ⟨t, ht, n₀, n, hfront, hproper, hn₀, hn, hf₀, ha₀, hf, ha⟩)
  · rw [hending] at hword hplain
    exact .inr (.inr ⟨hnone, hplain, hword⟩)

/-- From unknown text both go on alike. -/
theorem unknown_alike (hx : IsStrange words x) (s : Symbol) :
    (a.trie.child? .unknown s).getD .unknown = f ((plain.trie.child? .unknown s).getD .unknown) ∧
      (place ((plain.trie.child? .unknown s).getD .unknown)).Alien words (x ++ s.text) := by
  have hf := h.enriches.renames
  have hchild := h.enriches.mirrors.child? (n := .unknown) (s := s) nofun
  rw [hf.unknown] at hchild
  rw [hchild]
  have hplace := h.chart₀.place_unknown
  cases hc : plain.trie.child? .unknown s with
  | none =>
    exact ⟨hf.unknown.symm, Locus.alien_origin (hx.append _) (by simp [hplace]) (by simp [hplace])⟩
  | some m =>
    refine ⟨rfl, ?_⟩
    have hm := (h.chart₀.child hc).resolve_right fun hroot => by simp [hplace] at hroot
    rw [hplace, Locus.down_of_origin_ne (by simp)] at hm
    exact Locus.alien_below hx (by simp [hm]) (by simp [hm])

/-- A word goes on as an identifier does: as a longer word, or as no word any more. -/
theorem resolve_continue (hx : Wording lexicon words x)
    (hd : lexicon.identifierContinue.contains d = true)
    (hn : a.trie.follow? .root (x.map .char) = some n) :
    plain.resolve .identifier (.char d) = .node .identifier ∧
      ∃ n', a.resolve n (.char d) = .node n' ∧
        Abreast lexicon words f place plain.toStateGraph a.toStateGraph ⟨.identifier, x ++ [d]⟩
          ⟨n', x ++ [d]⟩ := by
  have hbelow : ∀ t ∈ lexicon.terminators, ¬[Symbol.char d] <+: spelling t.toList := by
    intro t ht hfront
    obtain ⟨more, hmore⟩ := hfront
    have hmark := h.mark t ht d (head?_spelling.1 (by rw [← hmore]; rfl))
    rw [hmark.2] at hd
    cases hd
  have hplain := h.enriches.identifier [.char d]
  rw [Lexicon.face, Lexicon.standing, if_neg (by simp)] at hplain
  obtain ⟨t, ht, hspell, -⟩ | ⟨t, ht, hfront, -⟩ | ⟨-, hending⟩ := lexicon.ending_cases [.char d]
  · exact absurd (hspell ▸ List.prefix_rfl) (hbelow t ht)
  · exact absurd hfront (hbelow t ht)
  rw [hending] at hplain
  have hpasses : plain.passes .identifierContinue (.char d) = true := by
    rw [StateGraph.passes, h.enriches.identifierContinue, hd]
  refine ⟨?_, ?_⟩
  · have hchild : plain.trie.child? .identifier (.char d) = none :=
      (Trie.follow?_snoc (Trie.follow?_nil _ _) _).symm.trans hplain
    rw [StateGraph.resolve_of_classify hchild h.behaviour_identifier.1, hpasses]
    rfl
  have hy := hx.wordlike.concat hd
  have hstarts : ∀ c ∈ (x ++ [d]).head?, lexicon.identifierStart.contains c = true := by
    rw [List.head?_append_of_ne_nil _ hx.wordlike.1]
    exact hx.starts
  have hlonger := h.enriches.word hy hstarts lexicon.isEnding_nil
  have hchild : a.trie.follow? .root ((x ++ [d]).map .char ++ []) = a.trie.child? n (.char d) := by
    rw [List.append_nil, List.map_append, List.map_singleton, Trie.follow?_snoc hn]
  by_cases hstanding : standingIn words (x ++ [d]) = .absent
  · rw [hstanding] at hlonger
    refine ⟨.identifier, ?_, h.same_identifier (standingIn_eq_absent.1 hstanding)⟩
    rw [StateGraph.resolve_of_classify (hchild.symm.trans hlonger) (h.behaviour_word hx hn).1,
      h.enriches.mirrors.passes, hpasses]
    rfl
  · obtain ⟨role, weak, hface⟩ := face_standingIn lexicon hstanding
    rw [hface] at hlonger
    obtain ⟨n', hn', -⟩ := hlonger
    refine ⟨n', StateGraph.resolve_of_child (hchild.symm.trans hn'), ?_⟩
    have hlonger : Abreast lexicon words f place plain.toStateGraph a.toStateGraph
        ⟨.identifier, x ++ [d] ++ pathText []⟩ ⟨n', x ++ [d] ++ pathText []⟩ :=
      .word ⟨hy, hstarts, hstanding⟩ lexicon.isEnding_nil rfl hn'
    rwa [pathText_nil, List.append_nil] at hlonger

/-- Where a word ends, or no longer goes on as one, both go on alike. -/
theorem resolve_ending (hx : Wording lexicon words x) (hq : lexicon.IsEnding (q ++ [s]))
    (hn₀ : plain.trie.follow? .identifier q = some n₀)
    (hn : a.trie.follow? .root (x.map .char ++ q) = some n)
    (hrests : (plain.behaviour n₀).action = .none) :
    ∃ m₀ m, plain.resolve n₀ s = .node m₀ ∧ a.resolve n s = .node m ∧
      Abreast lexicon words f place plain.toStateGraph a.toStateGraph
        ⟨m₀, x ++ pathText q ++ s.text⟩ ⟨m, x ++ pathText q ++ s.text⟩ := by
  have hchild₀ := Trie.follow?_snoc hn₀ s
  have hchild := Trie.follow?_snoc hn s
  rw [List.append_assoc] at hchild
  -- the ends of the word are the ends of the identifier
  have below {m₀ m : NodeId} (hm₀ : plain.trie.follow? .identifier (q ++ [s]) = some m₀)
      (hm : a.trie.follow? .root (x.map .char ++ (q ++ [s])) = some m) :
      ∃ m₀ m, plain.resolve n₀ s = .node m₀ ∧ a.resolve n s = .node m ∧
        Abreast lexicon words f place plain.toStateGraph a.toStateGraph
          ⟨m₀, x ++ pathText q ++ s.text⟩ ⟨m, x ++ pathText q ++ s.text⟩ := by
    refine ⟨m₀, m, StateGraph.resolve_of_child (hchild₀.symm.trans hm₀),
      StateGraph.resolve_of_child (hchild.symm.trans hm), ?_⟩
    have htext : x ++ pathText q ++ s.text = x ++ pathText (q ++ [s]) := by simp
    rw [htext]
    exact .word hx hq hm₀ hm
  obtain ⟨t, ht, m₀, m, -, hm₀, hm, -⟩ | ⟨t, ht, m₀, m, -, -, hm₀, hm, -⟩ | ⟨hnone, hm₀, hm⟩ :=
    h.ending_alike hx hq (by simp)
  · exact below hm₀ hm
  · exact below hm₀ hm
  have hc₀ := hchild₀.symm.trans hm₀
  have hc := hchild.symm.trans hm
  by_cases hne : q = []
  · subst hne
    cases hn₀
    rw [List.append_nil] at hn
    obtain ⟨d, rfl⟩ : ∃ d, s = .char d := by
      cases s with
      | char d => exact ⟨d, rfl⟩
      | endOfInput =>
        refine absurd (hnone "" ?_) (by simp [spelling])
        exact Lexicon.mem_terminators.2 (.inl rfl)
    have hd := hq d rfl
    have hpasses : plain.passes .identifierContinue (.char d) = false := by
      rw [StateGraph.passes, h.enriches.identifierContinue, hd]
    refine ⟨.unknown, .unknown, ?_, ?_, ?_⟩
    · rw [StateGraph.resolve_of_classify hc₀ h.behaviour_identifier.1, hpasses]
      rfl
    · rw [StateGraph.resolve_of_classify hc (h.behaviour_word hx hn).1, h.enriches.mirrors.passes,
        hpasses]
      rfl
    · have hplace := h.chart₀.place_unknown
      have hsame : Abreast lexicon words f place plain.toStateGraph a.toStateGraph
          ⟨.unknown, x ++ [d]⟩ ⟨f .unknown, x ++ [d]⟩ :=
        .same (Locus.alien_origin (h.strange_of_continue hx.wordlike.1 hd) (by simp [hplace])
          (by rw [hplace]))
      rw [h.enriches.renames.unknown] at hsame
      simpa [Symbol.text] using hsame
  · obtain ⟨t, ht, k₀, k, -, hk₀, hk, ha₀, -⟩ |
        ⟨t, ht, k₀, k, hfront, hproper, hk₀, hk, hf₀, -, hf, -⟩ | ⟨-, hk₀, -⟩ :=
      h.ending_alike hx (hq.of_front (List.prefix_append ..)) hne
    · cases hn₀.symm.trans hk₀
      rw [hrests] at ha₀
      cases ha₀
    · cases hn₀.symm.trans hk₀
      cases hn.symm.trans hk
      have hstrange : IsStrange words (x ++ pathText q) := by
        refine h.strange_of_terminator ht ?_ hx.wordlike.1 hne hfront
        rintro rfl
        exact hproper (hfront.eq_of_length_le (List.length_pos_iff.2 hne))
      obtain ⟨heq, halien⟩ := h.unknown_alike hstrange s
      refine ⟨_, _, h.chart₀.resolve_of_reroute hc₀ hf₀, h.chart.resolve_of_reroute hc hf, ?_⟩
      rw [heq]
      exact .same halien
    · cases hn₀.symm.trans hk₀

/-- Where the pending text goes on as a word does, so do both. -/
theorem move_word {ls₀ : List Lexeme} (hx : Wording lexicon words x) (hq : lexicon.IsEnding q)
    (hn₀ : plain.trie.follow? .identifier q = some n₀)
    (hn : a.trie.follow? .root (x.map .char ++ q) = some n)
    (hrests : (plain.behaviour n₀).action = .none)
    (hm : plain.move ⟨n₀, x ++ pathText q⟩ s = .ok (c₀', ls₀)) :
    ∃ c' ls, a.move ⟨n, x ++ pathText q⟩ s = .ok (c', ls) ∧
      Meets lexicon words f place plain.toStateGraph a.toStateGraph s c₀' c' ∧
      Relabels words ls₀ ls := by
  obtain ⟨m₀, m, hr₀, hr, habreast⟩ : ∃ m₀ m, plain.resolve n₀ s = .node m₀ ∧
      a.resolve n s = .node m ∧ Abreast lexicon words f place plain.toStateGraph a.toStateGraph
        ⟨m₀, x ++ pathText q ++ s.text⟩ ⟨m, x ++ pathText q ++ s.text⟩ := by
    by_cases hcontinue : q = [] ∧ ∃ d, s = .char d ∧ lexicon.identifierContinue.contains d = true
    · obtain ⟨rfl, d, rfl, hd⟩ := hcontinue
      cases hn₀
      rw [List.append_nil] at hn
      obtain ⟨hr₀, n', hr, habreast⟩ := h.resolve_continue hx hd hn
      refine ⟨_, n', hr₀, hr, ?_⟩
      simpa [Symbol.text] using habreast
    · refine h.resolve_ending hx (fun d hd => ?_) hn₀ hn hrests
      cases q with
      | cons u q => exact hq d hd
      | nil =>
        rw [List.nil_append, List.head?_cons, Option.some_inj] at hd
        exact Bool.eq_false_iff.2 fun hcontains => hcontinue ⟨rfl, d, hd, hcontains⟩
  rw [StateGraph.move] at hm ⊢
  dsimp only at hm ⊢
  rw [hr₀] at hm
  cases hm
  rw [hr]
  exact ⟨_, _, rfl, .inl habreast, .nil _⟩

/-- A symbol leads on alike. -/
theorem move {ls₀ : List Lexeme}
    (hc : Abreast lexicon words f place plain.toStateGraph a.toStateGraph c₀ c)
    (hrests : (plain.behaviour c₀.node).action = .none) (hm : plain.move c₀ s = .ok (c₀', ls₀)) :
    ∃ c' ls, a.move c s = .ok (c', ls) ∧
      Meets lexicon words f place plain.toStateGraph a.toStateGraph s c₀' c' ∧
      Relabels words ls₀ ls := by
  cases hc with
  | same halien => exact h.move_same halien hrests hm
  | word hx hq hn₀ hn => exact h.move_word hx hq hn₀ hn hrests hm
  | top =>
    obtain ⟨n, hr⟩ := h.chart₀.resolve_root s
    rw [StateGraph.move] at hm ⊢
    dsimp only at hm ⊢
    rw [hr] at hm
    cases hm
    obtain ⟨n', hr', hmeets⟩ := h.resolve_root hr
    rw [hr']
    exact ⟨_, _, rfl, hmeets, .nil _⟩

/-! ### Acting -/

/-- A path that does not begin as an identifier leads from the root to a node and to its image. -/
theorem follow?_image {path : List Symbol} (hp : plain.trie.follow? n path = some m)
    (hn : n = .root → ∀ s, path.head? = some s → ¬lexicon.Starts s) :
    a.trie.follow? (f n) path = some (f m) := by
  induction path generalizing n with
  | nil =>
    cases hp
    rfl
  | cons s path ih =>
    rw [Trie.follow?_cons] at hp ⊢
    obtain ⟨k, hk, hp⟩ := Option.bind_eq_some_iff.1 hp
    have hchild := h.enriches.mirrors.child? (n := n) (s := s) fun hroot => hn hroot s rfl
    rw [hchild, hk]
    refine ih hp ?_
    rintro rfl
    exact absurd h.chart₀.place_root (h.chart₀.place_ne_root hk)

/-- A mark may be pending where it ends. -/
theorem alien_mark {t : String} (ht : t ∈ lexicon.terminators) (hne : t ≠ "")
    (hn : plain.trie.follow? .root (t.toList.map .char) = some n) :
    (place n).Alien words t.toList := by
  obtain ⟨c, cs, htext⟩ := List.exists_cons_of_ne_nil (mt String.toList_eq_nil_iff.1 hne)
  have hstrange := h.strange_of_start (h.mark t ht c (by rw [htext]; rfl)).1
  by_cases hpoint : c = '.'
  · subst hpoint
    obtain rfl := h.lone t ht (by rw [htext]; rfl)
    have hchild : plain.trie.child? .root (.char '.') = some n :=
      (Trie.follow?_snoc (Trie.follow?_nil _ _) _).symm.trans hn
    obtain hplace | ⟨-, -, hplace⟩ := h.chart₀.child hchild
    · rw [hplace, h.chart₀.place_root]
      exact ⟨[], rfl, .inl ⟨rfl, rfl, _, [], rfl, hstrange⟩⟩
    · exact Locus.alien_origin hstrange (by simp [hplace]) (by rw [hplace])
  · have hplace := h.chart₀.place_of_root (by rw [htext]; simpa using hpoint) hn
    rw [hplace]
    refine ⟨[], by rw [pathText_map_char]; rfl, .inl ⟨rfl, rfl, c, cs.map .char, ?_, hstrange⟩⟩
    rw [htext]
    rfl

/-- A terminator is taken again alike. -/
theorem retake {t : String} (ht : t ∈ lexicon.terminators) :
    ∃ n, plain.retake {} t.toList = .ok (⟨n, t.toList⟩, []) ∧
      a.retake {} t.toList = .ok (⟨f n, t.toList⟩, []) ∧
      (plain.behaviour n).action.EndsMark ∧
      Abreast lexicon words f place plain.toStateGraph a.toStateGraph ⟨n, t.toList⟩
        ⟨f n, t.toList⟩ := by
  have hroot := h.enriches.renames.root
  by_cases hne : t = ""
  · subst hne
    refine ⟨.root, rfl, ?_, .inl h.chart₀.action_root, ?_⟩ <;> rw [hroot]
    · rfl
    · exact .top
  · obtain ⟨n, hn, hends⟩ := h.chart₀.mark (h.terminators ▸ ht) hne (h.lone t ht)
    have himage := h.follow?_image hn fun _ s hs => by
      rintro ⟨c, rfl, hc⟩
      rw [List.head?_map, Option.map_eq_some_iff] at hs
      obtain ⟨d, hd, ⟨⟩⟩ := hs
      rw [(h.mark t ht c hd).1] at hc
      cases hc
    rw [hroot] at himage
    exact ⟨n, StateGraph.retake_of_follow? hn, StateGraph.retake_of_follow? himage, hends,
      .same (h.alien_mark ht hne hn)⟩

/-- A scan stands beside another one. -/
structure Stands (lexicon : Lexicon) (words : List (String × Label)) (f : NodeId → NodeId)
    (place : NodeId → Locus) (plain a : Automaton) (s : Symbol) (r₀ r : Reading) : Prop where
  meets : Meets lexicon words f place plain.toStateGraph a.toStateGraph s r₀.toCursor r.toCursor
  run₀ : r₀.run = none
  run : r.run = none

variable (inner) in
/-- Where an open-ended token ends or a mark stands, both act alike. -/
theorem settle_mark {r₀ r r₀' : Reading} {ls₀ : List Lexeme}
    (hs : Stands lexicon words f place plain a s r₀ r) (hn : r.node = f r₀.node)
    (hpending : r.pending = r₀.pending)
    (hstrange : words.lookup (String.ofList r₀.pending) = none ∨ r₀.pending = [])
    (hends : (plain.behaviour r₀.node).action.EndsMark)
    (hsettle : r₀.settle plain inner₀ = .ok (r₀', ls₀)) :
    ∃ r' ls, r.settle a inner = .ok (r', ls) ∧ Stands lexicon words f place plain a s r₀' r' ∧
      Relabels words ls₀ ls := by
  have hmirror := (h.enriches.mirrors.behaviour r₀.node).action
  rw [← hn] at hmirror
  rw [Reading.settle] at hsettle ⊢
  rcases hends with ha | ⟨label, ha⟩ <;> rw [ha] at hsettle hmirror
  · generalize (a.behaviour r.node).action = action' at hmirror ⊢
    cases hmirror
    cases hsettle
    exact ⟨_, _, rfl, hs, .nil _⟩
  · generalize (a.behaviour r.node).action = action' at hmirror ⊢
    cases hmirror
    cases hsettle
    refine ⟨_, _, rfl, ⟨.inl .top, hs.run₀, hs.run⟩, ?_⟩
    rw [hpending, h.enriches.mirrors.unnamed]
    exact .same hstrange _

/-- Runs have no inner scans. -/
theorem run_eq_none (n : NodeId) : (plain.behaviour n).run = none ∧ (a.behaviour n).run = none := by
  refine ⟨Option.eq_none_iff_forall_ne_some.2 fun id hid => ?_,
    Option.eq_none_iff_forall_ne_some.2 fun id hid => ?_⟩
  · obtain ⟨m, hplace⟩ := h.chart₀.run hid
    obtain ⟨-, -, hm, c, automaton, terminator, hc, -⟩ := h.chart₀.body hplace
    rw [h.flat m hm] at hc
    cases hc
  · obtain ⟨m, hplace⟩ := h.chart.run hid
    obtain ⟨-, -, hm, c, automaton, terminator, hc, -⟩ := h.chart.body hplace
    rw [h.flat m hm] at hc
    cases hc

/-- The end of a run and its image are the same end. -/
theorem exists_close {e : Close} (ha : (plain.behaviour n).action = .close e) :
    (a.behaviour (f n)).action = .close { e with body := f e.body } ∧ e.nested = none ∧
      (place e.body).origin.IsBody ∧ (place e.body).path = [] := by
  obtain ⟨b, m, nested, t, hplace, hends⟩ := h.chart₀.close_ends ha
  obtain ⟨hbody, hrun, -⟩ := h.chart₀.body hplace
  have hnested : e.nested = none := by rw [hends.nested, ← hrun, (h.run_eq_none b).1]
  have hmirror := (h.enriches.mirrors.behaviour n).action
  rw [ha] at hmirror
  generalize ha' : (a.behaviour (f n)).action = action' at hmirror
  cases hmirror with
  | close heq =>
    obtain ⟨b', m', nested', t', hplace', hends'⟩ := h.chart.close_ends ha'
    obtain ⟨-, hrun', -⟩ := h.chart.body hplace'
    have hnested' := hends'.nested
    rw [← hrun', (h.run_eq_none b').2] at hnested'
    refine ⟨?_, hnested, ?_⟩
    · rw [← heq, ← hnested']
    · rw [hends.body, hbody]
      exact ⟨⟨b, m, nested, rfl⟩, rfl⟩

/-- A run ends alike. -/
theorem close_same {r₀ r r₀' : Reading} {ls₀ : List Lexeme} {e : Close}
    (hs : Stands lexicon words f place plain a s r₀ r) (hpending : r.pending = r₀.pending)
    (hplace : (place r₀.node).Alien words r₀.pending ∨ s = .endOfInput ∧ r₀.pending = [])
    (ha : (plain.behaviour r₀.node).action = .close e)
    (hclose : r₀.close plain inner₀ e = .ok (r₀', ls₀)) :
    ∃ r' ls, r.close a inner { e with body := f e.body } = .ok (r', ls) ∧
      Stands lexicon words f place plain a s r₀' r' ∧ Relabels words ls₀ ls := by
  obtain ⟨-, hnested, hbody, hpath⟩ := h.exists_close ha
  obtain ⟨escaped, hescaped, hclose⟩ := bind_eq_ok.1 hclose
  rw [Reading.close, show Close.isEscaped _ r.pending = _ from hpending ▸ hescaped, ok_bind]
  rw [hnested] at hclose
  simp only [hnested]
  cases escaped with
  | true =>
    cases hclose
    refine ⟨_, _, rfl, ⟨?_, hs.run₀, hs.run⟩, .nil _⟩
    rcases hplace with halien | ⟨rfl, hempty⟩
    · refine .inl ?_
      rw [hpending]
      refine .same (Locus.alien_origin halien.strange ?_ hpath)
      obtain ⟨b, m, nested, horigin⟩ := hbody
      simp [horigin]
    · refine .inr ⟨rfl, e.body, ?_, ?_⟩
      · rw [hempty]
      · rw [hpending, hempty]
  | false =>
    cases hclose
    refine ⟨_, _, rfl, ⟨.inl .top, hs.run₀, hs.run⟩, ?_⟩
    rw [hpending]
    exact .whole (hplace.imp (·.strange.lookup_eq_none) And.right) rfl

/-- The text before a terminator goes out alike, and the terminator is taken again. -/
theorem act_boundary {r₀ r r₀' : Reading} {ls₀ : List Lexeme} {t : String}
    (hs : Stands lexicon words f place plain a s r₀ r) (ht : t ∈ lexicon.terminators)
    (htext₀ : r₀.pending = x ++ t.toList) (htext : r.pending = x ++ t.toList)
    (hlabel : Relabels words [.plain x (some label)] [.plain x (some label')])
    (ha₀ : (plain.behaviour r₀.node).action = .boundary label (byteLength t.toList))
    (ha : (a.behaviour r.node).action = .boundary label' (byteLength t.toList))
    (hact : r₀.act plain inner₀ = .ok (r₀', ls₀)) :
    ∃ r' ls, r.act a inner = .ok (r', ls) ∧ Stands lexicon words f place plain a s r₀' r' ∧
      Relabels words ls₀ ls := by
  obtain ⟨m, hm₀, hm, hends, habreast⟩ := h.retake ht
  rw [Reading.act, ha₀] at hact
  rw [Reading.act, ha]
  simp only [htext₀, htext, cutBack_eq_ok.2 ⟨rfl, rfl⟩, ok_bind, hm₀, hm] at hact ⊢
  obtain ⟨⟨r₁, out₀⟩, hsettle, hact⟩ := bind_eq_ok.1 hact
  cases hact
  have hstrange : words.lookup (String.ofList t.toList) = none ∨ t.toList = [] := by
    by_cases hne : t = ""
    · exact .inr (by rw [hne]; rfl)
    · obtain ⟨c, cs, htext⟩ := List.exists_cons_of_ne_nil (mt String.toList_eq_nil_iff.1 hne)
      refine .inl (IsStrange.lookup_eq_none ?_)
      rw [htext]
      exact (h.strange_of_start (h.mark t ht c (by rw [htext]; rfl)).1).append cs
  have hstands : Stands lexicon words f place plain a s { r₀ with toCursor := ⟨m, t.toList⟩ }
      { r with toCursor := ⟨f m, t.toList⟩ } := ⟨.inl habreast, hs.run₀, hs.run⟩
  obtain ⟨r', out, hr', hstands, hout⟩ :=
    h.settle_mark inner hstands rfl rfl hstrange hends hsettle
  rw [hr']
  exact ⟨_, _, rfl, hstands, hlabel.append hout⟩

/-- At a node with nothing pending that is a word both act alike. -/
theorem act_same {r₀ r r₀' : Reading} {ls₀ : List Lexeme}
    (hs : Stands lexicon words f place plain a s r₀ r) (hn : r.node = f r₀.node)
    (hpending : r.pending = r₀.pending)
    (hplace : (place r₀.node).Alien words r₀.pending ∨ s = .endOfInput ∧ r₀.pending = [])
    (hact : r₀.act plain inner₀ = .ok (r₀', ls₀)) :
    ∃ r' ls, r.act a inner = .ok (r', ls) ∧ Stands lexicon words f place plain a s r₀' r' ∧
      Relabels words ls₀ ls := by
  have hstrange : words.lookup (String.ofList r₀.pending) = none ∨ r₀.pending = [] :=
    hplace.imp (·.strange.lookup_eq_none) And.right
  have hmirror := (h.enriches.mirrors.behaviour r₀.node).action
  rw [← hn] at hmirror
  cases ha₀ : (plain.behaviour r₀.node).action with
  | none =>
    rw [ha₀] at hmirror
    generalize ha : (a.behaviour r.node).action = action' at hmirror
    cases hmirror
    rw [Reading.act_of_endsMark (.inl ha₀)] at hact
    rw [Reading.act_of_endsMark (.inl ha)]
    exact h.settle_mark _ hs hn hpending hstrange (.inl ha₀) hact
  | literal l =>
    rw [ha₀] at hmirror
    generalize ha : (a.behaviour r.node).action = action' at hmirror
    cases hmirror
    rw [Reading.act_of_endsMark (.inr ⟨l, ha₀⟩)] at hact
    rw [Reading.act_of_endsMark (.inr ⟨l, ha⟩)]
    exact h.settle_mark _ hs hn hpending hstrange (.inr ⟨l, ha₀⟩) hact
  | boundary l length =>
    rw [ha₀] at hmirror
    generalize ha : (a.behaviour r.node).action = action' at hmirror
    cases hmirror
    obtain ⟨t, ht, rfl, front, hpath⟩ :=
      h.chart₀.boundary_path (fun t ht => h.lone t (h.terminators ▸ ht)) ha₀
    rw [h.terminators] at ht
    obtain ⟨x, htext, hx⟩ : ∃ x, r₀.pending = x ++ t.toList ∧
        (words.lookup (String.ofList x) = none ∨ x = []) := by
      rcases hplace with halien | ⟨-, hempty⟩
      · exact halien.cut hpath
      · rw [Reading.act, ha₀] at hact
        obtain ⟨⟨before, terminator⟩, hcut, -⟩ := bind_eq_ok.1 hact
        obtain ⟨htext, hlength⟩ := cutBack_eq_ok.1 hcut
        rw [hempty, List.nil_eq_append_iff] at htext
        rw [htext.2, Text.byteLength_nil, eq_comm, Text.byteLength_eq_zero_iff] at hlength
        exact ⟨[], by rw [hempty, hlength]; rfl, .inr rfl⟩
    exact h.act_boundary hs ht htext (hpending.trans htext) (.same hx _) ha₀ ha hact
  | close e =>
    obtain ⟨ha, -⟩ := h.exists_close ha₀
    rw [Reading.act, ha₀] at hact
    rw [Reading.act, hn, ha]
    dsimp only at hact ⊢
    rw [Reading.settle, ha₀] at hact
    rw [Reading.settle, hn, ha]
    exact h.close_same hs hpending hplace ha₀ hact

/-- Where a word is pending both act alike. -/
theorem act_word {r₀ r r₀' : Reading} {ls₀ : List Lexeme}
    (hs : Stands lexicon words f place plain a s r₀ r) (hx : Wording lexicon words x)
    (hq : lexicon.IsEnding q)
    (hn₀ : plain.trie.follow? .identifier q = some n₀)
    (hn : a.trie.follow? .root (x.map .char ++ q) = some n)
    (hc₀ : r₀.toCursor = ⟨n₀, x ++ pathText q⟩) (hc : r.toCursor = ⟨n, x ++ pathText q⟩)
    (hact : r₀.act plain inner₀ = .ok (r₀', ls₀)) :
    ∃ r' ls, r.act a inner = .ok (r', ls) ∧ Stands lexicon words f place plain a s r₀' r' ∧
      Relabels words ls₀ ls := by
  have hnode₀ : r₀.node = n₀ := congrArg Cursor.node hc₀
  have hnode : r.node = n := congrArg Cursor.node hc
  -- neither a word nor what leads to its end acts
  have quiet (ha₀ : (plain.behaviour n₀).action = .none) (ha : (a.behaviour n).action = .none) :
      ∃ r' ls, r.act a inner = .ok (r', ls) ∧ Stands lexicon words f place plain a s r₀' r' ∧
        Relabels words ls₀ ls := by
    rw [Reading.act_of_endsMark (.inl (hnode₀ ▸ ha₀)), Reading.settle, hnode₀, ha₀] at hact
    cases hact
    rw [Reading.act_of_endsMark (.inl (hnode ▸ ha)), Reading.settle, hnode, ha]
    exact ⟨_, _, rfl, hs, .nil _⟩
  by_cases hne : q = []
  · subst hne
    cases hn₀
    rw [List.append_nil] at hn
    exact quiet h.behaviour_identifier.2 (h.behaviour_word hx hn).2
  · obtain ⟨t, ht, k₀, k, rfl, hk₀, hk, ha₀, ha⟩ |
        ⟨t, ht, k₀, k, -, -, hk₀, hk, -, ha₀, -, ha⟩ | ⟨-, hk₀, -⟩ := h.ending_alike hx hq hne
    · cases hn₀.symm.trans hk₀
      cases hn.symm.trans hk
      rw [pathText_spelling] at hc₀ hc
      exact h.act_boundary hs ht (congrArg Cursor.pending hc₀) (congrArg Cursor.pending hc)
        (.plain rfl) (hnode₀ ▸ ha₀) (hnode ▸ ha) hact
    · cases hn₀.symm.trans hk₀
      cases hn.symm.trans hk
      exact quiet ha₀ ha
    · cases hn₀.symm.trans hk₀

variable (inner) in
/-- When the walk has landed, both act alike. -/
theorem act {r₀ r r₀' : Reading} {ls₀ : List Lexeme}
    (hs : Stands lexicon words f place plain a s r₀ r)
    (hact : r₀.act plain inner₀ = .ok (r₀', ls₀)) :
    ∃ r' ls, r.act a inner = .ok (r', ls) ∧ Stands lexicon words f place plain a s r₀' r' ∧
      Relabels words ls₀ ls := by
  obtain ⟨⟨n₀, pending₀⟩, run₀, idle₀⟩ := r₀
  obtain ⟨⟨n, pending⟩, run, idle⟩ := r
  have hmeets := hs.meets
  dsimp only at hmeets
  rcases hmeets with habreast | ⟨hend, m, heq₀, heq⟩
  · cases habreast with
    | top =>
      rw [Reading.act_of_endsMark (.inl h.chart₀.action_root), Reading.settle,
        h.chart₀.action_root] at hact
      cases hact
      rw [Reading.act_of_endsMark (.inl h.chart.action_root), Reading.settle, h.chart.action_root]
      exact ⟨_, _, rfl, hs, .nil _⟩
    | same halien => exact h.act_same hs rfl rfl (.inl halien) hact
    | word hx hq hn₀ hn => exact h.act_word hs hx hq hn₀ hn rfl rfl hact
  · cases heq₀
    cases heq
    exact h.act_same hs rfl rfl (.inr ⟨hend, rfl⟩) hact

variable (inner) in
/-- A symbol gives out the same text on both sides, under the labels of words. -/
theorem advance {r₀ r r₀' : Reading} {ls₀ : List Lexeme}
    (hc : Abreast lexicon words f place plain.toStateGraph a.toStateGraph r₀.toCursor r.toCursor)
    (hrun₀ : r₀.run = none) (hrun : r.run = none)
    (hrests : (plain.behaviour r₀.node).action = .none)
    (ha : r₀.advance plain inner₀ s = .ok (r₀', ls₀)) :
    ∃ r' ls, r.advance a inner s = .ok (r', ls) ∧
      Stands lexicon words f place plain a s r₀' r' ∧ Relabels words ls₀ ls := by
  obtain ⟨⟨c₀, out₀⟩, hm₀, ha⟩ := bind_eq_ok.1 ha
  obtain ⟨c', out, hm, hmeets, hout⟩ := h.move hc hrests hm₀
  obtain ⟨r₁, he₀, ha⟩ := bind_eq_ok.1 ha
  rw [Reading.enter_of_run_eq_none (h.run_eq_none _).1] at he₀
  cases he₀
  obtain ⟨⟨r₂, outs₀⟩, hact, ha⟩ := bind_eq_ok.1 ha
  have hstands : Stands lexicon words f place plain a s { r₀ with toCursor := c₀ }
      { r with toCursor := c' } := ⟨hmeets, hrun₀, hrun⟩
  obtain ⟨r', outs, hact', hstands, houts⟩ := h.act inner hstands hact
  obtain ⟨r₃, hf, ha⟩ := bind_eq_ok.1 ha
  rw [Reading.feed_of_run_eq_none hstands.run₀] at hf
  cases hf
  cases ha
  simp only [Reading.advance, hm, ok_bind, Reading.enter_of_run_eq_none (h.run_eq_none _).2, hact',
    Reading.feed_of_run_eq_none hstands.run]
  exact ⟨_, _, rfl, hstands, hout.append houts⟩

/-! ### Whole inputs -/

variable (inner) in
/-- A text gives out the same text on both sides, under the labels of words. -/
theorem read {r₀ r₀' : Reading} (r : Reading) {ls₀ : List Lexeme} {text : List Char}
    (hc : Abreast lexicon words f place plain.toStateGraph a.toStateGraph r₀.toCursor r.toCursor)
    (hrun₀ : r₀.run = none) (hrun : r.run = none) (hspelled : r₀.Spelled plain place)
    (hsound : r₀.Sound plain place 0) (hread : r₀.read plain inner₀ text = .ok (r₀', ls₀)) :
    ∃ r' ls, r.read a inner text = .ok (r', ls) ∧
      Abreast lexicon words f place plain.toStateGraph a.toStateGraph r₀'.toCursor r'.toCursor ∧
      r₀'.run = none ∧ r'.run = none ∧ (plain.behaviour r₀'.node).action = .none ∧
      Relabels words ls₀ ls := by
  induction text generalizing r₀ r ls₀ with
  | nil =>
    cases hread
    exact ⟨r, [], rfl, hc, hrun₀, hrun, hspelled.rests, .nil _⟩
  | cons d text ih =>
    obtain ⟨⟨r₁, out₀⟩, ha₀, hread⟩ := bind_eq_ok.1 hread
    obtain ⟨⟨r₂, outs₀⟩, hread₀, hread⟩ := bind_eq_ok.1 hread
    cases hread
    obtain ⟨r₁', out, ha, hstands, hout⟩ :=
      h.advance inner hc hrun₀ hrun hspelled.rests ha₀
    have hlone : lexicon₀.LonePoint := fun t ht => h.lone t (h.terminators ▸ ht)
    obtain ⟨r', outs, hread, hend⟩ := ih _ (hstands.meets.resolve_right fun hend => nomatch hend.1)
      hstands.run₀ hstands.run (hspelled.advance hsound h.chart₀ hlone ha₀).1
      (hsound.advance h.chart₀ ha₀) hread₀
    refine ⟨r', out ++ outs, ?_, hend.1, hend.2.1, hend.2.2.1, hend.2.2.2.1,
      hout.append hend.2.2.2.2⟩
    simp only [Reading.read, ha, ok_bind, hread]
    rfl

omit h in
theorem Meets.pending_eq
    (hm : Meets lexicon words f place plain.toStateGraph a.toStateGraph s c₀ c) :
    c.pending = c₀.pending := by
  rcases hm with habreast | ⟨-, n, rfl, rfl⟩
  · cases habreast <;> rfl
  · rfl

/-- A whole input gives out the same text on both sides, under the labels of words. -/
theorem lexemes {input : String} {ls₀ : List Lexeme} (hls : plain.lexemes input = .ok ls₀) :
    ∃ ls, a.lexemes input = .ok ls ∧ Relabels words ls₀ ls := by
  obtain ⟨⟨r₀, out₀⟩, hread₀, hls⟩ := bind_eq_ok.1 hls
  obtain ⟨⟨r₁, outs₀⟩, hfinish₀, hls⟩ := bind_eq_ok.1 hls
  cases hls
  obtain ⟨r, out, hread, hc, hrun₀, hrun, hrests, hout⟩ := h.read a.inner
    { idle := Array.replicate a.runs.length none } .top rfl rfl
    (Reading.spelled_root h.chart₀ none _) (Reading.sound_root h.chart₀ 0 _) hread₀
  obtain ⟨⟨r₂, last₀⟩, ha₀, hfinish₀⟩ := bind_eq_ok.1 hfinish₀
  cases hfinish₀
  obtain ⟨r', last, ha, hstands, hlast⟩ := h.advance a.inner hc hrun₀ hrun hrests ha₀
  refine ⟨out ++ (last ++ [.plain r'.pending none]), ?_, hout.append (hlast.append ?_)⟩
  · rw [Automaton.lexemes, Reading.take, hread, ok_bind]
    dsimp only
    rw [Reading.take, Reading.finish, ha]
    rfl
  · rw [Meets.pending_eq hstands.meets]
    exact ⟨rfl, fun _ => rfl⟩

end Beside

/-! ### Grammars -/

theorem label_eq_of_nodup {words : List (String × Label)} (hdistinct : (words.map Prod.fst).Nodup)
    (p : String × Label) (hp : p ∈ words) (p' : String × Label) (hp' : p' ∈ words)
    (h : p.1 = p'.1) : p.2 = p'.2 :=
  congrArg Prod.snd (List.inj_on_of_nodup_map hdistinct hp hp' h)

/-- The label of a word does not depend on the order of the words. -/
theorem lookup_eq_of_perm {words words' : List (String × Label)} (h : words'.Perm words)
    (hdistinct : (words.map Prod.fst).Nodup) (key : String) :
    words'.lookup key = words.lookup key := by
  have hdistinct' := (h.map Prod.fst).nodup_iff.2 hdistinct
  refine Option.ext fun label => ?_
  rw [lookup_eq_some_iff (label_eq_of_nodup hdistinct'),
    lookup_eq_some_iff (label_eq_of_nodup hdistinct), h.mem_iff]

namespace Grammar

theorem WordsApart.mark_terminators {g : Grammar} (h : g.WordsApart) {t : String}
    (ht : t ∈ g.terminators) {c : Char} (hc : c ∈ t.toList.head?) :
    g.identifierStart.contains c = false ∧ g.identifierContinue.contains c = false := by
  rcases Lexicon.mem_terminators.1 ht with rfl | ht
  · cases hc
  · exact h.mark t ht c hc

/-- A grammar with words stands beside itself without them. -/
theorem beside_compile {g : Grammar} {a : Automaton} (h : g.compile.result = .ok a)
    (hflat : ∀ m ∈ g.greedyMatchers, m.subGrammar = none) (hwords : g.WordsApart)
    (hlone : g.toLexicon.LonePoint) : ∃ plain f place place',
      g.wordless.compile.result = .ok plain ∧
      Beside g.toLexicon g.wordless.toLexicon (compileMatchers g.greedyMatchers) g.keywordLabels f
        plain a place place' := by
  obtain ⟨plain, f, hplain, henriches⟩ := wordless_compile h hflat hwords
  obtain ⟨place, hchart₀⟩ := charted_compile hplain
  obtain ⟨place', hchart⟩ := charted_compile h
  exact ⟨plain, f, place, place', hplain, henriches, hchart₀, hchart, flat_compileMatchers hflat,
    hlone, rfl, fun p hp => hwords.shaped_of_mem hp, fun t ht c hc => hwords.mark_terminators ht hc⟩

/-- What keywords and marks begin with does not depend on the order of the keywords. -/
theorem WordsApart.perm {g : Grammar} (h : g.WordsApart) {keywords : List Definition}
    (hperm : ({ g with keywords } : Grammar).keywordLabels.Perm g.keywordLabels) :
    WordsApart { g with keywords } := by
  have hliterals := hperm.map Prod.fst
  rw [Lexicon.map_fst_keywordLabels, Lexicon.map_fst_keywordLabels] at hliterals
  exact { h with
    distinct := hliterals.nodup_iff.2 h.distinct
    shaped := fun t ht => h.shaped t (hliterals.mem_iff.1 ht) }

/-- The tokens of a grammar without its keywords are those of the grammar under other labels. -/
theorem tokenize_relabel {g : Grammar} {a : Automaton} (h : g.compile.result = .ok a)
    (hflat : ∀ m ∈ g.greedyMatchers, m.subGrammar = none) (hwords : g.WordsApart)
    (hlone : g.toLexicon.LonePoint) : ∃ plain, g.wordless.compile.result = .ok plain ∧
      ∀ input, ∃ tokens, plain.tokenize input = .ok tokens ∧
        a.tokenize input = .ok (tokens.map (·.relabel g.keywordLabels)) := by
  obtain ⟨plain, f, place, place', hplain, hbeside⟩ := beside_compile h hflat hwords hlone
  have hlawful : Lawful True plain := g.wordless.lawful_compile
    (fun _ => .mk hlone fun m hm s hs => nomatch (hflat m hm).symm.trans hs) hplain
  refine ⟨plain, hplain, fun input => ?_⟩
  obtain ⟨tokens, htokens⟩ := hlawful.exists_tokenize input
  obtain ⟨ls₀, hls₀, rfl⟩ := hbeside.chart₀.exists_lexemes htokens
  obtain ⟨ls, hls, hrelabels⟩ := hbeside.lexemes hls₀
  exact ⟨_, htokens, by rw [hbeside.chart.tokenize_eq, hls, map_ok, hrelabels.listing]⟩

/-- If nothing else begins as the keywords do and points are lone, a flat grammar compiles without
its keywords as well, and its tokens are those of the grammar without keywords, of which the ones
that are keywords get the labels of these. The order of the keywords does not matter. -/
theorem relabelling {g : Grammar} {a : Automaton} (h : g.compile.result = .ok a)
    (hflat : ∀ m ∈ g.greedyMatchers, m.subGrammar = none) (hwords : g.WordsApart)
    (hlone : g.toLexicon.LonePoint) : ∃ plain, g.wordless.compile.result = .ok plain ∧
      ∀ input, ∃ tokens, plain.tokenize input = .ok tokens ∧
        a.tokenize input = .ok (tokens.map (·.relabel g.keywordLabels)) ∧
        ∀ keywords b, ({ g with keywords } : Grammar).keywordLabels.Perm g.keywordLabels →
          ({ g with keywords } : Grammar).compile.result = .ok b →
          b.tokenize input = a.tokenize input := by
  obtain ⟨plain, hplain, htokens⟩ := tokenize_relabel h hflat hwords hlone
  refine ⟨plain, hplain, fun input => ?_⟩
  obtain ⟨tokens, hinput, ha⟩ := htokens input
  refine ⟨tokens, hinput, ha, fun keywords b hperm hb => ?_⟩
  obtain ⟨plain', hplain', htokens'⟩ := tokenize_relabel hb hflat (hwords.perm hperm) hlone
  obtain ⟨tokens', hinput', hb'⟩ := htokens' input
  cases hplain.symm.trans hplain'
  cases hinput.symm.trans hinput'
  have hrelabel (t : Token) :
      t.relabel ({ g with keywords } : Grammar).keywordLabels = t.relabel g.keywordLabels := by
    rw [Token.relabel, lookup_eq_of_perm hperm (g.map_fst_keywordLabels ▸ hwords.distinct),
      Token.relabel]
  rw [ha, hb', List.map_congr_left fun t _ => hrelabel t]

/-- A grammar whose keywords are beginnings of each other. -/
def reserved : Grammar where
  keywords := [.named "number" (.one "int"), .bare "in"]
  punctuation := [.bare "<-"]
  delimiters := [.named "space" (.one " "), .bare "."]
  greedyMatchers := [
    { kind := "text", startsWith := "<'", endsWith := some "'", escapesWith := some "\\" }]

theorem relabelling_reserved : ∃ a, reserved.compile.result = .ok a ∧
    ∃ plain, reserved.wordless.compile.result = .ok plain ∧
      ∀ input, ∃ tokens, plain.tokenize input = .ok tokens ∧
        a.tokenize input = .ok (tokens.map (·.relabel reserved.keywordLabels)) ∧
        ∀ keywords b,
          ({ reserved with keywords } : Grammar).keywordLabels.Perm reserved.keywordLabels →
          ({ reserved with keywords } : Grammar).compile.result = .ok b →
          b.tokenize input = a.tokenize input := by
  obtain ⟨a, -, -, ha, -⟩ := reserved.exists_run [] (by decide +kernel)
  exact ⟨a, ha, relabelling ha (by decide) (by decide) (by decide)⟩

/-- A grammar with a delimiter that goes on after a point as a keyword does. -/
def pointedWord : Grammar where
  keywords := [.bare "a"]
  delimiters := [.bare ".a", .bare ";"]

/-- The point also begins a number, which the delimiter is to end. When one more character comes
after the delimiter, the text is cut the delimiter's two bytes before its end, and the rest is taken
again from the root along a keyword that has ended. So a text that is no keyword goes out as one. -/
theorem tokenize_pointedWord : ∃ a plain, pointedWord.compile.result = .ok a ∧
    pointedWord.wordless.compile.result = .ok plain ∧
    plain.tokenize ".a;x" = .ok
      [⟨".", "NUMBER", 0⟩, ⟨"a;", "IDENTIFIER", 1⟩, ⟨"x", "IDENTIFIER", 3⟩] ∧
    a.tokenize ".a;x" = .ok
      [⟨".", "NUMBER", 0⟩, ⟨"a;", "KEYWORD", 1⟩, ⟨"x", "IDENTIFIER", 3⟩] ∧
    (⟨"a;", "IDENTIFIER", 1⟩ : Token).relabel pointedWord.keywordLabels =
      ⟨"a;", "IDENTIFIER", 1⟩ := by
  have hPlain : (pointedWord.wordless.compile.result.toOption.bind fun a =>
      (a.tokenize ".a;x").toOption) =
        some [⟨".", "NUMBER", 0⟩, ⟨"a;", "IDENTIFIER", 1⟩, ⟨"x", "IDENTIFIER", 3⟩] := by
    decide +kernel
  have hWords : (pointedWord.compile.result.toOption.bind fun a => (a.tokenize ".a;x").toOption) =
      some [⟨".", "NUMBER", 0⟩, ⟨"a;", "KEYWORD", 1⟩, ⟨"x", "IDENTIFIER", 3⟩] := by
    decide +kernel
  obtain ⟨plain, hplain, htokensPlain⟩ := exists_tokens hPlain
  obtain ⟨a, ha, htokens⟩ := exists_tokens hWords
  exact ⟨a, plain, ha, hplain, htokensPlain, htokens, by decide⟩

end Grammar

end TrieLexer
