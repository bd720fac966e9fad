import TrieLexer.Proofs.Survey

/-!
# Plain grammars

In a plain grammar words look like identifiers, and whatever ends an open-ended token or opens a run
looks like none and does not begin with a point. Then the paths below open-ended text stay apart
from the words and marks of the grammar. So at every node at which open-ended text stands, all ends
of tokens act: nothing that is built later takes them away.

## Main definitions

* `Lexicon.IsPlain` — a plain grammar.
* `Locus.IsHome`, `Locus.IsEnd`, `Locus.IsMark` — where open-ended text, its ends and marks stand.
* `Survey.Filled` — all ends of open-ended tokens act that are not owed.

## Main results

* `Locus.IsHome.not_isEnd`, `Locus.IsWordly.not_isMark` — these places are apart.
* `Survey.Step.filled` — every step of building keeps the ends that act.
* `Survey.filled_of_builds` — so does building.
-/

namespace TrieLexer

open Text (byteLength)

/-! ### Plain grammars -/

/-- A literal that begins neither with a point nor as an identifier begins or goes on. -/
def Lexicon.SetsOff (lexicon : Lexicon) (t : String) : Prop :=
  ∀ c, t.toList.head? = some c → c ≠ '.' ∧ lexicon.identifierStart.contains c = false ∧
    lexicon.identifierContinue.contains c = false

theorem Lexicon.setsOff_iff {lexicon : Lexicon} {t : String} : lexicon.SetsOff t ↔
    (t.toList.head?.all fun c => c != '.' && !lexicon.identifierStart.contains c &&
      !lexicon.identifierContinue.contains c) = true := by
  simp [SetsOff, Option.all_eq_true, and_assoc]

instance (lexicon : Lexicon) (t : String) : Decidable (lexicon.SetsOff t) :=
  decidable_of_iff _ Lexicon.setsOff_iff.symm

/-- The words look like identifiers. No delimiter, punctuation literal or opener of a run with a
terminator begins with a point or as an identifier begins or goes on. -/
structure Lexicon.IsPlain {γ : Type} (lexicon : Lexicon) (matchers : List (GreedyMatcher γ)) :
    Prop where
  words {label : Label} {t : String} (h : lexicon.Words matchers label t) :
    lexicon.isIdentifierShaped t.toList = true
  marks : ∀ t ∈ literalsOf lexicon.delimiters ++ literalsOf lexicon.punctuation, lexicon.SetsOff t
  openers : ∀ m ∈ matchers, m.terminator ≠ none → lexicon.SetsOff m.startsWith

namespace Lexicon

variable {γ : Type} {lexicon : Lexicon} {matchers : List (GreedyMatcher γ)} {label : Label}
  {t : String}

theorem isPlain_iff : lexicon.IsPlain matchers ↔
    (∀ d ∈ lexicon.keywords, ∀ t ∈ d.literals, lexicon.isIdentifierShaped t.toList = true) ∧
    (∀ m ∈ matchers, m.terminator = none →
      lexicon.isIdentifierShaped m.startsWith.toList = true) ∧
    (∀ t ∈ literalsOf lexicon.delimiters ++ literalsOf lexicon.punctuation, lexicon.SetsOff t) ∧
    ∀ m ∈ matchers, m.terminator ≠ none → lexicon.SetsOff m.startsWith := by
  constructor
  · intro h
    exact ⟨fun d hd t ht => h.words (.keyword hd ht), fun m hm ht => h.words (.opener hm ht),
      h.marks, h.openers⟩
  · rintro ⟨hkeywords, hopeners, hmarks, hruns⟩
    refine ⟨fun hw => ?_, hmarks, hruns⟩
    cases hw with
    | keyword hd hl => exact hkeywords _ hd _ hl
    | opener hm ht => exact hopeners _ hm ht

instance : Decidable (lexicon.IsPlain matchers) := decidable_of_iff _ isPlain_iff.symm

theorem Delimits.mem_literalsOf {label : Option Label} (h : lexicon.Delimits label t) :
    t ∈ literalsOf lexicon.delimiters := by
  obtain ⟨definition, hd, -, hl⟩ := h
  exact List.mem_flatMap.2 ⟨definition, hd, hl⟩

theorem Punctuates.mem_literalsOf (h : lexicon.Punctuates label t) :
    t ∈ literalsOf lexicon.punctuation := by
  obtain ⟨definition, hd, -, hl⟩ := h
  exact List.mem_flatMap.2 ⟨definition, hd, hl⟩

theorem mem_terminators : t ∈ lexicon.terminators ↔
    t = "" ∨ t ∈ literalsOf lexicon.delimiters ++ literalsOf lexicon.punctuation := by
  rw [terminators, List.mem_eraseDups]
  simp only [List.mem_append, List.mem_singleton]
  grind

theorem IsPlain.terminators (h : lexicon.IsPlain matchers) (ht : t ∈ lexicon.terminators) :
    lexicon.SetsOff t := by
  rcases mem_terminators.1 ht with rfl | ht
  · exact nofun
  · exact h.marks t ht

theorem IsPlain.lonePoint (h : lexicon.IsPlain matchers) : lexicon.LonePoint := fun _ ht hpoint =>
  absurd rfl (h.terminators ht _ hpoint).1

/-- A beginning of an identifier is an identifier. -/
theorem isIdentifierShaped_of_prefix {text more : List Char} (hne : text ≠ [])
    (h : text <+: more) (hm : lexicon.isIdentifierShaped more = true) :
    lexicon.isIdentifierShaped text = true := by
  obtain ⟨rest, rfl⟩ := h
  cases text with
  | nil => exact absurd rfl hne
  | cons c cs =>
    rw [List.cons_append, isIdentifierShaped, List.all_append, ← Bool.and_assoc] at hm
    exact (Bool.and_eq_true_iff.1 hm).1

end Lexicon

/-! ### Places -/

namespace Locus

variable {lexicon : Lexicon} {matchers : List (GreedyMatcher Compilation)} {p q : Locus}
  {label : Label} {t : String} {path rest : List Symbol}

/-- Open-ended text stands at this place. -/
inductive IsHome (lexicon : Lexicon) : Locus → Prop
  | category {o : Origin} (ho : o = .unknown ∨ o = .identifier ∨ o = .number ∨ o = .float) :
      IsHome lexicon ⟨o, []⟩
  | word {text : List Char} (h : lexicon.isIdentifierShaped text = true) :
      IsHome lexicon ⟨.root, text.map .char⟩

/-- This place is on the way to the end of an open-ended token. -/
def IsEnd (lexicon : Lexicon) (p : Locus) : Prop :=
  ∃ (q : Locus) (t : String) (path : List Symbol), q.IsHome lexicon ∧ t ∈ lexicon.terminators ∧
    path ≠ [] ∧ path <+: spelling t.toList ∧ p = q.walk path

/-- A mark or opener that sets off what stands before it is complete at this place. -/
def IsMark (lexicon : Lexicon) (p : Locus) : Prop :=
  ∃ t, lexicon.SetsOff t ∧ p = ⟨.root, spelling t.toList⟩

/-- A path from the root begins as an identifier does. -/
def IsWordly (lexicon : Lexicon) (p : Locus) : Prop :=
  p.origin = .root → ∃ c path, p.path = .char c :: path ∧ lexicon.identifierStart.contains c = true

theorem Bears.isHome (h : p.Bears lexicon matchers label) (hp : lexicon.IsPlain matchers) :
    p.IsHome lexicon := by
  cases h with
  | unknown | identifier | number | decimal => exact .category (by simp)
  | beginning hne h =>
    rcases h with h | ⟨_, literal, hword, hprefix⟩
    · exact .word h
    · exact .word (Lexicon.isIdentifierShaped_of_prefix hne hprefix (hp.words hword))
  | @word _ literal hword =>
    have hshape := hp.words hword
    have hspell : spelling literal.toList = literal.toList.map .char := by
      rw [spelling, if_neg]
      intro hnil
      rw [List.isEmpty_iff.1 hnil] at hshape
      cases hshape
    rw [hspell]
    exact .word hshape

theorem IsHome.not_isBody (h : p.IsHome lexicon) : ¬p.origin.IsBody := by
  cases h with
  | category ho => exact Origin.not_isBody_of_mem (by simp [ho])
  | word => exact Origin.not_isBody_of_mem (by simp)

theorem IsHome.isWordly (h : p.IsHome lexicon) : p.IsWordly lexicon := by
  cases h with
  | category ho =>
    intro hroot
    rcases ho with rfl | rfl | rfl | rfl <;> cases hroot
  | @word text hshape =>
    intro
    cases text with
    | nil => cases hshape
    | cons c cs => exact ⟨c, cs.map .char, rfl, (Bool.and_eq_true_iff.1 hshape).1⟩

theorem IsWordly.down (h : p.IsWordly lexicon) (s : Symbol) : (p.down s).IsWordly lexicon := by
  obtain hd | ⟨-, -, hd⟩ := p.down_eq_or s <;> rw [hd]
  · intro hroot
    obtain ⟨c, path, hpath, hc⟩ := h hroot
    exact ⟨c, path ++ [s], by rw [hpath]; rfl, hc⟩
  · exact nofun

theorem IsWordly.walk (h : p.IsWordly lexicon) (path : List Symbol) :
    (p.walk path).IsWordly lexicon := by
  induction path generalizing p with
  | nil => exact h
  | cons s path ih => exact ih (h.down s)

theorem IsEnd.isWordly (h : p.IsEnd lexicon) : p.IsWordly lexicon := by
  obtain ⟨q, t, path, hq, -, -, -, rfl⟩ := h
  exact hq.isWordly.walk path

/-- Marks do not look like identifiers. -/
theorem IsWordly.not_isMark (h : p.IsWordly lexicon) : ¬p.IsMark lexicon := by
  rintro ⟨t, hoff, rfl⟩
  obtain ⟨c, path, hpath, hc⟩ := h rfl
  cases hlist : t.toList with
  | nil =>
    rw [hlist] at hpath
    cases hpath
  | cons d ds =>
    rw [hlist] at hpath
    cases hpath
    exact Bool.false_ne_true ((hoff c (by rw [hlist]; rfl)).2.1.symm.trans hc)

theorem not_isMark_root : ¬IsMark lexicon ⟨.root, []⟩ := by
  rintro ⟨t, -, heq⟩
  exact spelling_ne_nil _ (congrArg Locus.path heq).symm

/-- The first symbol on the way to an end is the end of input or no part of an identifier. -/
theorem apart_of_prefix (hp : lexicon.IsPlain matchers) (ht : t ∈ lexicon.terminators)
    {s : Symbol} (hpath : s :: path <+: spelling t.toList) : s = .endOfInput ∨
      ∃ c, s = .char c ∧ c ≠ '.' ∧ lexicon.identifierStart.contains c = false ∧
        lexicon.identifierContinue.contains c = false := by
  have hoff := hp.terminators ht
  cases hlist : t.toList with
  | nil =>
    rw [hlist] at hpath
    exact .inl (List.cons_prefix_cons.1 hpath).1
  | cons c cs =>
    rw [hlist] at hpath
    exact .inr ⟨c, (List.cons_prefix_cons.1 hpath).1, hoff c (by rw [hlist]; rfl)⟩

/-- No end begins with a point. -/
theorem walk_end (p : Locus) (hp : lexicon.IsPlain matchers) (ht : t ∈ lexicon.terminators)
    (hpath : path <+: spelling t.toList) : p.walk path = ⟨p.origin, p.path ++ path⟩ := by
  cases path with
  | nil => rw [walk_nil, List.append_nil]
  | cons s path =>
    obtain hd | ⟨-, rfl, -⟩ := p.down_eq_or s
    · rw [walk_cons, hd, walk_of_path_ne (by simp), List.append_assoc]
      rfl
    · rcases apart_of_prefix hp ht hpath with hs | ⟨c, hs, hc, -⟩
      · cases hs
      · cases hs
        exact absurd rfl hc

/-- Open-ended text does not stand where it ends. -/
theorem IsHome.not_isEnd (h : p.IsHome lexicon) (hp : lexicon.IsPlain matchers) :
    ¬p.IsEnd lexicon := by
  rintro ⟨q, t, path, hq, ht, hne, hpath, heq⟩
  rw [walk_end q hp ht hpath] at heq
  cases path with
  | nil => exact hne rfl
  | cons s path =>
    cases h with
    | category ho =>
      have hnil := (congrArg Locus.path heq).symm
      simp at hnil
    | @word text hshape =>
      cases hq with
      | category ho =>
        have horigin := congrArg Locus.origin heq
        rcases ho with rfl | rfl | rfl | rfl <;> cases horigin
      | @word front hfront =>
        have htext := congrArg Locus.path heq
        obtain ⟨front', rest, rfl, hf, hrest⟩ := List.map_eq_append_iff.1 htext
        obtain ⟨c, cs, rfl, rfl, -⟩ := List.map_eq_cons_iff.1 hrest
        cases front' with
        | nil =>
          cases front with
          | nil => cases hfront
          | cons _ _ => cases hf
        | cons d ds =>
          rw [List.cons_append, Lexicon.isIdentifierShaped, List.all_append,
            List.all_cons] at hshape
          simp only [Bool.and_eq_true] at hshape
          rcases apart_of_prefix hp ht hpath with hs | ⟨c', hs, -, -, hc⟩
          · cases hs
          · cases hs
            rw [hshape.2.2.1] at hc
            cases hc

end Locus

/-- A path is kept whose nodes keep their children. -/
theorem Trie.follow?_of_child? {α β : Type} {t : Trie α} {t' : Trie β} {path : List Symbol}
    {n : NodeId}
    (h : ∀ front s back k, path = front ++ s :: back → t.follow? n front = some k →
      t'.child? k s = t.child? k s) : t'.follow? n path = t.follow? n path := by
  induction path generalizing n with
  | nil => rfl
  | cons s path ih =>
    rw [follow?_cons, follow?_cons, h [] s path n rfl rfl]
    cases hc : t.child? n s with
    | none => rfl
    | some m =>
      refine ih fun front u back k hpath hk => h (s :: front) u back k ?_ ?_
      · rw [hpath]
        rfl
      · rw [follow?_cons, hc]
        exact hk

/-! ### Steps of building -/

/-- Symbols without a child do not pass through open-ended text. -/
theorem Locus.Passes.not_isHome {lexicon : Lexicon} {matchers : List (GreedyMatcher Compilation)}
    {p : Locus} (h : p.Passes lexicon matchers) (hp : lexicon.IsPlain matchers) :
    ¬p.IsHome lexicon := by
  intro hhome
  cases h with
  | @ends q label t path s hq ht hpath heq =>
    refine hhome.not_isEnd hp ⟨q, t, path ++ [s], hq.isHome hp, ht, by simp, hpath, ?_⟩
    rw [heq, walk_append]
    rfl
  | sign _ _ hshape heq =>
    subst heq
    generalize hq : (⟨.root, _⟩ : Locus) = q at hhome
    cases hhome with
    | category ho =>
      have horigin := congrArg Locus.origin hq
      rcases ho with rfl | rfl | rfl | rfl <;> cases horigin
    | word hword =>
      have htext := congrArg (pathText ·.path) hq
      rw [pathText_map_char, pathText_map_char] at htext
      rw [htext, hword] at hshape
      cases hshape
  | run hbody => exact hhome.not_isBody hbody

/-- A category is open in every draft. -/
theorem Draft.IsOpenEnded.of_ne {d d' : Draft} {n : NodeId} (h : d.IsOpenEnded n)
    (hne : (d.site n).behaviour.fallback ≠ Lexicon.identifierFallback) : d'.IsOpenEnded n := by
  rcases h with hn | hn | hn | hn | hn
  · exact .inl hn
  · exact .inr (.inl hn)
  · exact .inr (.inr (.inl hn))
  · exact .inr (.inr (.inr (.inl hn)))
  · exact absurd hn hne

namespace Survey

variable {lexicon : Lexicon} {matchers : List (GreedyMatcher Compilation)} {s s' : Survey}
  {n j k : NodeId} {t : String}

/-- Something happens at the end of the token that stands at a node and ends before `t`. -/
def Fills (d : Draft) (j : NodeId) (t : String) : Prop :=
  ∃ k, d.trie.follow? j (spelling t.toList) = some k ∧ (d.site k).behaviour.action ≠ .none

/-- At every node at which open-ended text stands, all ends act that are not owed. Every end is
that of such a node. -/
structure Filled (lexicon : Lexicon) (s : Survey) : Prop where
  size : 5 ≤ s.draft.trie.size
  origin {o : Origin} (ho : ¬o.IsBody) : s.place o.node = ⟨o, []⟩
  child {n m : NodeId} {u : Symbol} (h : s.draft.trie.child? n u = some m) :
    s.place m = (s.place n).down u
  home {j : NodeId} (h : s.draft.IsOpenEnded j) : (s.place j).IsHome lexicon
  linked {j : NodeId} (h : s.draft.IsOpenEnded j) :
    s.draft.trie.follow? (s.place j).origin.node (s.place j).path = some j
  filled {j : NodeId} (h : s.draft.IsOpenEnded j) {t : String} (ht : t ∈ lexicon.terminators) :
    s.owing j t ∨ Fills s.draft j t
  ends {n : NodeId} {label : Label} {length : Nat}
    (h : (s.draft.site n).behaviour.action = .boundary label length) :
    ∃ j t, s.draft.IsOpenEnded j ∧ t ∈ lexicon.terminators ∧ length = byteLength t.toList ∧
      s.draft.trie.follow? j (spelling t.toList) = some n
  claimed {n : NodeId} (h : s.draft.claim? n ≠ none) (hn : (s.place n).IsEnd lexicon) :
    (s.draft.site n).behaviour.action ≠ .none

/-- Paths lead down. -/
theorem Filled.place_follow? (h : s.Filled lexicon) {path : List Symbol}
    (hp : s.draft.trie.follow? n path = some k) : s.place k = (s.place n).walk path := by
  induction path generalizing n with
  | nil =>
    cases hp
    rfl
  | cons u path ih =>
    rw [Trie.follow?_cons] at hp
    obtain ⟨m, hm, hp⟩ := Option.bind_eq_some_iff.1 hp
    rw [ih hp, h.child hm]
    rfl

/-- A later draft in which one node may do something else, and lose paths if it is a mark. -/
structure Changes (lexicon : Lexicon) (s : Survey) (n : NodeId) (d : Draft) : Prop where
  size : d.trie.size = s.draft.trie.size
  child {k m : NodeId} {u : Symbol} (h : d.trie.child? k u = some m) :
    s.draft.trie.child? k u = some m
  keeps {k : NodeId} (hk : ¬(s.place k).IsMark lexicon) (u : Symbol) :
    d.trie.child? k u = s.draft.trie.child? k u
  site {k : NodeId} (hk : k ≠ n) : (d.site k).behaviour = (s.draft.site k).behaviour
  claim {k : NodeId} (hk : k ≠ n) (h : d.claim? k ≠ none) : s.draft.claim? k ≠ none

variable {d : Draft}

/-- Paths to open-ended text and to its ends are kept. -/
theorem Changes.follow? (hc : s.Changes lexicon n d) (h : s.Filled lexicon) {path : List Symbol}
    (hj : ∀ front u back, path = front ++ u :: back →
      ¬((s.place j).walk front).IsMark lexicon) :
    d.trie.follow? j path = s.draft.trie.follow? j path :=
  Trie.follow?_of_child? fun front u back _ hpath hk =>
    hc.keeps (h.place_follow? hk ▸ hj front u back hpath) u

theorem Changes.follow?_end (hc : s.Changes lexicon n d) (h : s.Filled lexicon)
    (hj : s.draft.IsOpenEnded j) (path : List Symbol) :
    d.trie.follow? j path = s.draft.trie.follow? j path :=
  hc.follow? h fun front _ _ _ => ((h.home hj).isWordly.walk front).not_isMark

/-- The path from the origin to open-ended text is kept. -/
theorem Changes.follow?_home (hc : s.Changes lexicon n d) (h : s.Filled lexicon)
    (hj : (s.place j).IsHome lexicon) :
    d.trie.follow? (s.place j).origin.node (s.place j).path =
      s.draft.trie.follow? (s.place j).origin.node (s.place j).path := by
  generalize s.place j = p at hj
  cases hj with
  | category ho => rfl
  | @word text hshape =>
    refine hc.follow? h fun front u back hpath => ?_
    rw [h.origin (o := .root) (Origin.not_isBody_of_mem (by simp)),
      Locus.walk_of_origin_ne (by simp), List.nil_append]
    cases front with
    | nil => exact Locus.not_isMark_root
    | cons v front =>
      refine Locus.IsWordly.not_isMark fun _ => ?_
      obtain ⟨c, cs, hcs, hc⟩ := (Locus.IsHome.word hshape).isWordly rfl
      rw [hpath] at hcs
      cases hcs
      exact ⟨c, front, rfl, hc⟩

/-- What has to be shown of the node that changes. -/
theorem Filled.change (h : s.Filled lexicon) (hc : s.Changes lexicon n d)
    {owing' : NodeId → String → Prop}
    (hstays : s.draft.IsOpenEnded n → d.IsOpenEnded n)
    (hopens : d.IsOpenEnded n → ¬s.draft.IsOpenEnded n → (s.place n).IsHome lexicon ∧
      s.draft.trie.follow? (s.place n).origin.node (s.place n).path = some n ∧ ∀ t, owing' n t)
    (howing : ∀ j t, t ∈ lexicon.terminators → s.draft.IsOpenEnded j → s.owing j t →
      owing' j t ∨ Fills d j t)
    (hacts : (s.draft.site n).behaviour.action ≠ .none → (s.place n).IsEnd lexicon →
      (d.site n).behaviour.action ≠ .none)
    (hends : ∀ label length, (d.site n).behaviour.action = .boundary label length →
      (s.draft.site n).behaviour.action = .boundary label length ∨
      ∃ j t, s.draft.IsOpenEnded j ∧ t ∈ lexicon.terminators ∧ length = byteLength t.toList ∧
        s.draft.trie.follow? j (spelling t.toList) = some n)
    (hclaimed : d.claim? n ≠ none → (s.place n).IsEnd lexicon →
      (d.site n).behaviour.action ≠ .none) :
    Filled lexicon ⟨d, s.place, owing'⟩ := by
  have hopen {k : NodeId} (hk : s.draft.IsOpenEnded k) : d.IsOpenEnded k := by
    by_cases hkn : k = n
    · exact hkn ▸ hstays (hkn ▸ hk)
    · rwa [Draft.IsOpenEnded, hc.site hkn]
  have hopened {k : NodeId} (hk : d.IsOpenEnded k) : s.draft.IsOpenEnded k ∨
      k = n ∧ ¬s.draft.IsOpenEnded n := by
    by_cases hkn : k = n
    · by_cases hold : s.draft.IsOpenEnded k
      · exact .inl hold
      · exact .inr ⟨hkn, hkn ▸ hold⟩
    · rw [Draft.IsOpenEnded, hc.site hkn] at hk
      exact .inl hk
  have hfills {j : NodeId} (hj : s.draft.IsOpenEnded j) {t : String} (ht : t ∈ lexicon.terminators)
      (hf : Fills s.draft j t) : Fills d j t := by
    obtain ⟨k, hk, ha⟩ := hf
    refine ⟨k, (hc.follow?_end h hj _).trans hk, ?_⟩
    by_cases hkn : k = n
    · subst hkn
      exact hacts ha ⟨s.place j, t, _, h.home hj, ht, spelling_ne_nil _, List.prefix_rfl,
        h.place_follow? hk⟩
    · rwa [hc.site hkn]
  refine ⟨hc.size ▸ h.size, h.origin, fun hm => h.child (hc.child hm), fun {j} hj => ?_,
    fun {j} hj => ?_, fun {j} hj t ht => ?_, fun {k label length} hk => ?_, fun {k} hk hend => ?_⟩
  · rcases hopened hj with hj' | ⟨rfl, hj'⟩
    · exact h.home hj'
    · exact (hopens hj hj').1
  · rcases hopened hj with hj' | ⟨rfl, hj'⟩
    · exact (hc.follow?_home h (h.home hj')).trans (h.linked hj')
    · obtain ⟨hhome, hlinked, -⟩ := hopens hj hj'
      exact (hc.follow?_home h hhome).trans hlinked
  · rcases hopened hj with hj' | ⟨rfl, hj'⟩
    · rcases h.filled hj' ht with ho | hf
      · exact howing j t ht hj' ho
      · exact .inr (hfills hj' ht hf)
    · exact .inl ((hopens hj hj').2.2 t)
  · have hold : (s.draft.site k).behaviour.action = .boundary label length ∨
        ∃ j t, s.draft.IsOpenEnded j ∧ t ∈ lexicon.terminators ∧ length = byteLength t.toList ∧
          s.draft.trie.follow? j (spelling t.toList) = some k := by
      by_cases hkn : k = n
      · exact hkn ▸ hends label length (hkn ▸ hk)
      · exact .inl (hc.site hkn ▸ hk)
    rcases hold with hold | hnew
    · obtain ⟨j, t, hj, ht, hlength, hfollow⟩ := h.ends hold
      exact ⟨j, t, hopen hj, ht, hlength, (hc.follow?_end h hj _).trans hfollow⟩
    · obtain ⟨j, t, hj, ht, hlength, hfollow⟩ := hnew
      exact ⟨j, t, hopen hj, ht, hlength, (hc.follow?_end h hj _).trans hfollow⟩
  · by_cases hkn : k = n
    · exact hkn ▸ hclaimed (hkn ▸ hk) (hkn ▸ hend)
    · dsimp only
      rw [hc.site hkn]
      exact h.claimed (hc.claim hkn hk) hend

/-- The node of a category, or a node with a behaviour. -/
theorem Filled.lt_size (h : s.Filled lexicon) (hj : s.draft.IsOpenEnded j) :
    j < s.draft.trie.size := by
  have hcategory {k : NodeId} (hk : k < 5) : k < s.draft.trie.size := Nat.lt_of_lt_of_le hk h.size
  rcases hj with rfl | rfl | rfl | rfl | hj
  · exact hcategory (by decide)
  · exact hcategory (by decide)
  · exact hcategory (by decide)
  · exact hcategory (by decide)
  · refine Nat.lt_of_not_le fun hle => ?_
    rw [Draft.site_of_size_le hle] at hj
    cases hj

theorem changes_refl (lexicon : Lexicon) (s : Survey) (n : NodeId) :
    s.Changes lexicon n s.draft :=
  ⟨rfl, id, fun _ _ => rfl, fun _ => rfl, fun _ => id⟩

/-- A node that changes without pruning is taken for something, at most. -/
theorem changes_modifyBehaviour {d : Draft} (hsize : d.trie.size = s.draft.trie.size)
    (hchild : ∀ k u, d.trie.child? k u = s.draft.trie.child? k u)
    (hsite : ∀ k, (d.site k).behaviour = (s.draft.site k).behaviour)
    (hclaim : ∀ k, k ≠ n → d.claim? k = s.draft.claim? k) (f : Behaviour → Behaviour) :
    s.Changes lexicon n (d.modifyBehaviour n f) where
  size := by simpa using hsize
  child hm := by
    rw [Draft.child?_modifyBehaviour] at hm
    rwa [← hchild]
  keeps _ u := by rw [Draft.child?_modifyBehaviour, hchild]
  site hk := by rw [Draft.site_modifyBehaviour f hk, hsite]
  claim hk h := by
    rw [Draft.claim?_modifyBehaviour, hclaim _ hk] at h
    exact h

theorem changes_take (hn : n < s.draft.trie.size) (role : Role) (ws : Array Warning)
    (f : Behaviour → Behaviour) : s.Changes lexicon n
      (({ s.draft.recordClaim n role with warnings := ws } : Draft).modifyBehaviour n f) :=
  changes_modifyBehaviour (d := { s.draft.recordClaim n role with warnings := ws })
    (Draft.size_recordClaim role) (Draft.child?_recordClaim role)
    (Draft.behaviour_recordClaim role)
    (fun k hk => (Draft.claim?_recordClaim hn role k).trans (if_neg hk.symm)) f

/-- Paths below a mark are pruned. -/
theorem changes_clear (hn : n < s.draft.trie.size) {role : Role} {d : Draft}
    (hmark : (s.place n).IsMark lexicon) (hP : Draft.Prunes n (s.draft.recordClaim n role) d)
    (f : Behaviour → Behaviour) : s.Changes lexicon n (d.modifyBehaviour n f) where
  size := by simpa using hP.size.trans (Draft.size_recordClaim role)
  child hm := by
    rw [Draft.child?_modifyBehaviour] at hm
    exact (Draft.child?_recordClaim role _ _).symm.trans (hP.child hm)
  keeps {k} hk u := by
    have hkn : k ≠ n := by
      rintro rfl
      exact hk hmark
    rw [Draft.child?_modifyBehaviour, Trie.child?, hP.edges hkn]
    exact Draft.child?_recordClaim role k u
  site hk := by rw [Draft.site_modifyBehaviour f hk, hP.behaviour, Draft.behaviour_recordClaim]
  claim {k} hk h := by
    have hrecorded : (s.draft.recordClaim n role).claim? k = s.draft.claim? k :=
      (Draft.claim?_recordClaim hn role k).trans (if_neg hk.symm)
    rw [Draft.claim?_modifyBehaviour] at h
    rcases hP.claim k with hsame | ⟨hnone, -⟩
    · rwa [hsame, hrecorded] at h
    · exact absurd hnone h

theorem Filled.isEnd (h : s.Filled lexicon) (hj : s.draft.IsOpenEnded j)
    (ht : t ∈ lexicon.terminators) (hp : s.draft.trie.follow? j (spelling t.toList) = some n) :
    (s.place n).IsEnd lexicon :=
  ⟨s.place j, t, _, h.home hj, ht, spelling_ne_nil _, List.prefix_rfl, h.place_follow? hp⟩

variable {d' : Draft} {place' : NodeId → Locus} {role : Role} {f : Behaviour → Behaviour}
  {owing' : NodeId → String → Prop}

/-- Nodes are added. -/
theorem Filled.grow (h : s.Filled lexicon) (hg : s.draft.Grows s.place d' place')
    (hchild : ∀ {n m u}, d'.trie.child? n u = some m →
      m < d'.trie.size ∧ place' m = (place' n).down u)
    (hsite : ∀ k, (d'.site k).claim = (s.draft.site k).claim ∧
      (d'.site k).behaviour.action = (s.draft.site k).behaviour.action ∧
      (d'.site k).behaviour.fallback = (s.draft.site k).behaviour.fallback) :
    Filled lexicon ⟨d', place', s.owing⟩ := by
  have hopen {k : NodeId} : d'.IsOpenEnded k ↔ s.draft.IsOpenEnded k := by
    rw [Draft.IsOpenEnded, (hsite k).2.2, Draft.IsOpenEnded]
  have hplace {k : NodeId} (hk : s.draft.IsOpenEnded k) : place' k = s.place k :=
    hg.place (h.lt_size hk)
  refine ⟨Nat.le_trans h.size hg.size, fun {o} ho => ?_, fun hm => (hchild hm).2, fun {j} hj => ?_,
    fun {j} hj => ?_, fun {j} hj t ht => ?_, fun {k label length} hk => ?_, fun {k} hk hend => ?_⟩
  · refine (hg.place (Nat.lt_of_lt_of_le ?_ h.size)).trans (h.origin ho)
    cases o with
    | body b m nested => exact absurd ⟨b, m, nested, rfl⟩ ho
    | _ => decide
  · dsimp only
    rw [hplace (hopen.1 hj)]
    exact h.home (hopen.1 hj)
  · dsimp only
    rw [hplace (hopen.1 hj)]
    exact hg.follow? (h.linked (hopen.1 hj))
  · refine (h.filled (hopen.1 hj) ht).imp_right ?_
    rintro ⟨k, hk, ha⟩
    refine ⟨k, hg.follow? hk, ?_⟩
    rwa [(hsite k).2.1]
  · obtain ⟨j, t, hj, ht, hlength, hfollow⟩ := h.ends ((hsite k).2.1.symm.trans hk)
    exact ⟨j, t, hopen.2 hj, ht, hlength, hg.follow? hfollow⟩
  · have hclaim : s.draft.claim? k ≠ none := by
      rwa [Draft.claim?, ← (hsite k).1]
    have hsize : k < s.draft.trie.size := Nat.lt_of_not_le fun hle => by
      rw [Draft.claim?, Draft.site_of_size_le hle] at hclaim
      exact hclaim rfl
    dsimp only at hend ⊢
    rw [hg.place hsize] at hend
    rw [(hsite k).2.1]
    exact h.claimed hclaim hend

/-- A node is taken for a role. -/
theorem Filled.take (h : s.Filled lexicon) (hp : lexicon.IsPlain matchers)
    (hn : n < s.draft.trie.size) (ht : s.Takes lexicon matchers n role f owing')
    (ws : Array Warning) : Filled lexicon
      ⟨({ s.draft.recordClaim n role with warnings := ws } : Draft).modifyBehaviour n f, s.place,
        owing'⟩ := by
  have hc : s.Changes lexicon n _ := changes_take hn role ws f
  generalize hd : ({ s.draft.recordClaim n role with warnings := ws } : Draft).modifyBehaviour n f =
    d at hc ⊢
  have hb : (d.site n).behaviour = f (s.draft.site n).behaviour := by
    rw [← hd, Draft.behaviour_modifyBehaviour (by simpa using hn), if_pos rfl]
    exact congrArg f (Draft.behaviour_recordClaim role n)
  cases ht with
  | @boundary j label weak t ho hj ht hfollow hplace =>
    have hend := h.isEnd ho ht hfollow
    refine h.change hc (fun hopen => absurd hend ((h.home hopen).not_isEnd hp))
      (fun hopen hclosed => absurd (hopen.of_ne ?_) hclosed) (fun k u hu hk hkowes => ?_) ?_ ?_ ?_
    · rw [hb]
      simp [Lexicon.identifierFallback]
    · by_cases hku : k = j ∧ u = t
      · obtain ⟨rfl, rfl⟩ := hku
        refine .inr ⟨n, (hc.follow?_end h ho _).trans hfollow, ?_⟩
        rw [hb]
        simp
      · exact .inl ⟨hkowes, hku⟩
    · rw [hb]
      simp
    · intro label' length' heq
      rw [hb] at heq
      cases heq
      exact .inr ⟨j, t, ho, ht, rfl, hfollow⟩
    · rw [hb]
      simp
  | word hrole hbears hroot hlinked =>
    have hhome := hbears.isHome hp
    refine h.change hc (fun _ => ?_) (fun _ _ => ⟨hhome, ?_, fun t => .inr rfl⟩)
      (fun _ _ _ _ ho => .inl (.inl ho)) (fun _ hend => absurd hend (hhome.not_isEnd hp)) ?_
      fun _ hend => absurd hend (hhome.not_isEnd hp)
    · refine .inr (.inr (.inr (.inr ?_)))
      rw [hb]
    · rw [hroot]
      exact hlinked
    · intro label length heq
      rw [hb] at heq
      cases heq
  | decimal hfloat =>
    have hopen : s.draft.IsOpenEnded n := .inr (.inr (.inr (.inl hfloat)))
    refine h.change hc (fun _ => .inr (.inr (.inr (.inl hfloat))))
      (fun _ hclosed => absurd hopen hclosed) (fun _ _ _ _ ho => .inl (.inl ho))
      (fun _ hend => absurd hend ((h.home hopen).not_isEnd hp)) ?_
      fun _ hend => absurd hend ((h.home hopen).not_isEnd hp)
    intro label length heq
    rw [hb] at heq
    cases heq
  | delimiter hdelimits hplace =>
    have hsame : d.IsOpenEnded n ↔ s.draft.IsOpenEnded n := by
      rw [Draft.IsOpenEnded, hb, Draft.IsOpenEnded]
    refine h.change hc hsame.2 (fun hopen hclosed => absurd (hsame.1 hopen) hclosed)
      (fun _ _ _ _ ho => .inl ho) ?_ ?_ ?_
    · rw [hb]
      simp
    · intro label length heq
      rw [hb] at heq
      cases heq
    · rw [hb]
      simp
  | close hterminated hplace =>
    refine h.change hc (fun hopen => ?_) (fun hopen hclosed => absurd (hopen.of_ne ?_) hclosed)
      (fun _ _ _ _ ho => .inl ho) ?_ ?_ ?_
    · exact absurd ⟨_, _, _, congrArg Locus.origin hplace⟩ (h.home hopen).not_isBody
    · rw [hb]
      simp [Lexicon.identifierFallback]
    · rw [hb]
      simp
    · intro label length heq
      rw [hb] at heq
      cases heq
    · rw [hb]
      simp

/-- A node is taken for a mark, and paths below it are pruned. -/
theorem Filled.clear (h : s.Filled lexicon) (hp : lexicon.IsPlain matchers)
    (hn : n < s.draft.trie.size) (hP : Draft.Prunes n (s.draft.recordClaim n role) d')
    (ht : s.Clears lexicon matchers n role f) :
    Filled lexicon ⟨d'.modifyBehaviour n f, s.place, s.owing⟩ := by
  have hmark : (s.place n).IsMark lexicon := by
    cases ht with
    | opener hm hterminated hplace => exact ⟨_, hp.openers _ hm hterminated, hplace⟩
    | punctuation hmark hplace =>
      exact ⟨_, hp.marks _ (List.mem_append_right _ hmark.mem_literalsOf), hplace⟩
  have hc : s.Changes lexicon n _ := changes_clear hn hmark hP f
  have hb : ((d'.modifyBehaviour n f).site n).behaviour = f (s.draft.site n).behaviour := by
    rw [Draft.behaviour_modifyBehaviour (by rw [hP.size]; simpa using hn), if_pos rfl, hP.behaviour,
      Draft.behaviour_recordClaim]
  have hfallback : (f (s.draft.site n).behaviour).fallback ≠ Lexicon.identifierFallback := by
    cases ht <;> exact nofun
  have haction : (f (s.draft.site n).behaviour).action = .none := by cases ht <;> rfl
  refine h.change hc (fun hopen => absurd hmark (h.home hopen).isWordly.not_isMark)
    (fun hopen hclosed => absurd (hopen.of_ne (hb ▸ hfallback)) hclosed) (fun _ _ _ _ ho => .inl ho)
    (fun _ hend => absurd hmark hend.isWordly.not_isMark) ?_
    fun _ hend => absurd hmark hend.isWordly.not_isMark
  intro label length heq
  rw [hb, haction] at heq
  cases heq

/-- Every step of building a plain grammar keeps the ends that act. -/
theorem Step.filled (hstep : Step lexicon matchers s s') (hp : lexicon.IsPlain matchers)
    (h : s.Filled lexicon) : s'.Filled lexicon := by
  cases hstep with
  | grow hg hchild hsite => exact h.grow hg hchild hsite
  | @through n target hn hpass =>
    have hc : s.Changes lexicon n _ := changes_modifyBehaviour rfl (fun _ _ => rfl) (fun _ => rfl)
      (fun _ _ => rfl) fun b => { b with fallback := .reroute target }
    have hb :=
      Draft.behaviour_modifyBehaviour hn (fun b => { b with fallback := .reroute target }) n
    rw [if_pos rfl] at hb
    refine h.change hc (fun hopen => absurd (h.home hopen) (hpass.not_isHome hp))
      (fun hopen hclosed => absurd (hopen.of_ne (hb ▸ nofun)) hclosed) (fun _ _ _ _ ho => .inl ho)
      (fun ha _ => hb ▸ ha) (fun label length heq => .inl ?_) fun hclaim hend => ?_
    · rwa [hb] at heq
    · rw [Draft.claim?_modifyBehaviour] at hclaim
      exact hb ▸ h.claimed hclaim hend
  | @classify o f ho hn hf =>
    have hc : s.Changes lexicon o.node _ := changes_modifyBehaviour rfl (fun _ _ => rfl)
      (fun _ => rfl) (fun _ _ => rfl) fun b => { b with fallback := f }
    have hb := Draft.behaviour_modifyBehaviour hn (fun b => { b with fallback := f }) o.node
    rw [if_pos rfl] at hb
    have hopen (d : Draft) : d.IsOpenEnded o.node := by
      rcases ho with rfl | rfl
      · exact .inr (.inl rfl)
      · exact .inr (.inr (.inl rfl))
    refine h.change hc (fun _ => hopen _) (fun _ hclosed => absurd (hopen _) hclosed)
      (fun _ _ _ _ ho => .inl (.inl ho)) (fun ha _ => hb ▸ ha) (fun label length heq => .inl ?_)
      fun hclaim hend => ?_
    · rwa [hb] at heq
    · rw [Draft.claim?_modifyBehaviour] at hclaim
      exact hb ▸ h.claimed hclaim hend
  | take hn htakes => exact h.take hp hn htakes _
  | clear hn hP hclears => exact h.clear hp hn hP hclears
  | @decline j n label t role ho hj ht hfollow hplace hclaim hstrong =>
    refine h.change (changes_refl lexicon s n) id (fun hopen hclosed => absurd hopen hclosed)
      (fun k u hu hk howes => ?_) (fun ha _ => ha) (fun _ _ => .inl) h.claimed
    by_cases hku : k = j ∧ u = t
    · obtain ⟨rfl, rfl⟩ := hku
      exact .inr ⟨n, hfollow, h.claimed (by simp [hclaim]) (h.isEnd ho ht hfollow)⟩
    · exact .inl ⟨howes, hku⟩
  | waive hw =>
    exact h.change (changes_refl lexicon s .root) id (fun hopen hclosed => absurd hopen hclosed)
      (fun k u hu _ howes => .inl (hw k u hu howes)) (fun ha _ => ha) (fun _ _ => .inl) h.claimed

theorem filled_of_builds (hb : Builds lexicon matchers s s') (hp : lexicon.IsPlain matchers)
    (h : s.Filled lexicon) : s'.Filled lexicon := by
  induction hb with
  | refl => exact h
  | tail _ hstep ih => exact hstep.filled hp ih

/-- In the beginning all ends are owed. -/
theorem filled_start (lexicon : Lexicon) :
    Filled lexicon ⟨.start, Draft.startPlace, Draft.startOwing⟩ := by
  have hchart : Draft.Charted lexicon [] False (fun _ => False)
      (fun k => k = .identifier ∨ k = .number ∨ k = .float) .start Draft.startPlace :=
    Draft.charted_start
  have hopen {j : NodeId} (hj : Draft.start.IsOpenEnded j) : Draft.startOwing j "" := by
    rcases hj with hj | hj | hj | hj | hj
    · exact .inl hj
    · exact .inr (.inl hj)
    · exact .inr (.inr (.inl hj))
    · exact .inr (.inr (.inr hj))
    · rw [Draft.site_start] at hj
      cases hj
  refine ⟨hchart.size, hchart.origin, fun hm => (hchart.child hm).2, fun hj => ?_, fun hj => ?_,
    fun hj _ _ => .inl (hopen hj), fun {n label length} hn => ?_, fun {n} hn => ?_⟩
  · rcases hopen hj with rfl | rfl | rfl | rfl <;> exact .category (by simp)
  · rcases hopen hj with rfl | rfl | rfl | rfl <;> rfl
  · rw [Draft.site_start] at hn
    cases hn
  · rw [Draft.claim?, Draft.site_start] at hn
    exact absurd rfl hn

end Survey

end TrieLexer
