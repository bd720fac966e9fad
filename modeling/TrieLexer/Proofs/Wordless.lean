import TrieLexer.Proofs.Forests
import TrieLexer.Proofs.Nesting
import TrieLexer.Proofs.Vocabulary

/-!
# Grammars without their keywords

When keywords are built, the root has no children yet, and nothing that is built afterwards begins
as they do. So the automaton of a grammar is that of the grammar without its keywords, with the
words and their ends added below the root.

## Main definitions

* `Draft.Wordless` — what the open-ended categories leave behind.
* `StateGraph.Faces` — what the end of a path does in an automaton.
* `Grammar.WordsApart` — nothing else begins as the keywords do.
* `StateGraph.Enriches` — an automaton, and the same automaton with words.

## Main results

* `Draft.Charted.mirrors_of_spares` — a draft is mirrored in what keywords make of it.
* `Grammar.wordless_compile` — a grammar compiles without its keywords.
-/

namespace TrieLexer

/-- A symbol with which an identifier may begin. -/
def Lexicon.Starts (lexicon : Lexicon) (s : Symbol) : Prop :=
  ∃ c, s = .char c ∧ lexicon.identifierStart.contains c = true

namespace Draft

open Assembly (yields_bind yields_pure yields_get yields_modify)

variable {lexicon : Lexicon} {matchers : List (GreedyMatcher Compilation)} {pointed : Prop}
  {marked : String → Prop} {loose : NodeId → Prop} {d d' e : Draft} {place place' : NodeId → Locus}
  {kept : NodeId → Prop} {out : Symbol → Prop} {b n m : NodeId} {q : List Symbol} {s : Symbol}

/-! ### What stands below spared nodes -/

/-- Nodes from which no path leads elsewhere. -/
def Closed (kept : NodeId → Prop) (d : Draft) : Prop :=
  ∀ {n m : NodeId} {s : Symbol}, kept n → d.trie.child? n s = some m → kept m

/-- What stands below a spared node stays there. -/
theorem below_of_spares (hs : d.trie.Spares kept out d'.trie) (hclosed : d.Closed kept)
    (hb : kept b) (q : List Symbol) : d'.below b q = d.below b q := by
  obtain ⟨hfollow, hkept⟩ := hs.follow? hclosed hb q
  rw [below, below, hfollow]
  cases hq : d.trie.follow? b q with
  | none => rfl
  | some n => exact congrArg (some ·.face) (hs.content (Trie.not_free_of_kept (hkept hq)))

/-- The nodes of an origin. -/
def StemsFrom (o : Origin) (place : NodeId → Locus) (d : Draft) (n : NodeId) : Prop :=
  n < d.trie.size ∧ (place n).origin = o

theorem Charted.closed_stemsFrom (h : Charted lexicon matchers pointed marked loose d place)
    {o : Origin} (hnumber : o ≠ .number) : d.Closed (d.StemsFrom o place) := by
  intro n m s hn hc
  obtain ⟨hlt, hm⟩ := h.child hc
  refine ⟨hlt, ?_⟩
  rw [hm, Locus.down_of_origin_ne (by rw [hn.2]; exact hnumber)]
  exact hn.2

/-- The nodes of an origin stand apart, if no path leads to the origin. -/
theorem Charted.apart_stemsFrom (h : Charted lexicon matchers pointed marked loose d place)
    (hopeners : d.openers = []) {o : Origin} (hroot : o ≠ .root) (hfloat : o ≠ .float)
    (out : Symbol → Prop) : d.Apart (d.StemsFrom o place) out where
  trie :=
    { pos := h.root_lt_size
      root := fun hk => by
        rw [StemsFrom, h.place_root] at hk
        exact hroot hk.2.symm
      lt := fun hk => hk.1
      edge := fun {n x} hn _ hx => by
        have hc := (h.sorted n).find?_of_mem hx
        refine ⟨fun hk => hn ⟨Trie.lt_size_of_edges_ne (List.ne_nil_of_mem hx), ?_⟩,
          h.ne_root_of_child? hc⟩
        rw [StemsFrom, (h.child hc).2] at hk
        obtain hd | ⟨-, -, hd⟩ := (place n).down_eq_or x.1
        · rw [hd] at hk
          exact hk.2
        · rw [hd] at hk
          exact absurd hk.2.symm hfloat }
  opener := by simp [hopeners]

theorem Charted.stemsFrom_origin (h : Charted lexicon matchers pointed marked loose d place)
    {o : Origin} (ho : ¬o.IsBody) : d.StemsFrom o place o.node :=
  ⟨h.origin_lt_size ho, by rw [h.origin ho]⟩

theorem Charted.free_stemsFrom (h : Charted lexicon matchers pointed marked loose d place)
    {o o' : Origin} (ho : ¬o'.IsBody) (hne : o' ≠ o) (hroot : o' ≠ .root) :
    Trie.Free (d.StemsFrom o place) o'.node := by
  refine ⟨fun hk => hne ?_, fun heq => ?_⟩
  · rw [StemsFrom, h.origin ho] at hk
    exact hk.2
  · cases o' with
    | root => exact hroot rfl
    | body b m nested => exact ho ⟨b, m, nested, rfl⟩
    | _ => cases heq

/-! ### The open-ended categories -/

/-- What the open-ended categories leave behind: a root without children, and identifiers with the
ends of their tokens. -/
structure Wordless (lexicon : Lexicon) (d : Draft) : Prop where
  forest : d.trie.Forest
  root (s : Symbol) : d.trie.child? .root s = none
  identifier : d.below .identifier [] = some { fallback := Lexicon.identifierFallback }
  ending {q : List Symbol} (hq : q ≠ []) :
    d.below .identifier q = lexicon.ending lexicon.labels.identifier false q

theorem spares_buildCategories (hfree : ∀ o : Origin, o = .unknown ∨ o = .identifier ∨ o = .number ∨
      o = .float → Trie.Free kept o.node) :
    lexicon.buildCategories.Spares kept out fun _ => True := by
  refine (Assembly.spares_behave (hfree .identifier (by simp)) _).bind fun _ _ =>
    (Assembly.spares_behave (hfree .number (by simp)) _).bind fun _ _ =>
    (Lexicon.spares_endBeforeTerminators (hfree .unknown (by simp)) _ _).bind fun _ _ =>
    (Lexicon.spares_endBeforeTerminators (hfree .identifier (by simp)) _ _).bind fun _ _ =>
    (Lexicon.spares_endBeforeTerminators (hfree .number (by simp)) _ _).bind fun _ _ =>
    (Assembly.spares_claim (hfree .float (by simp)) _ _).bind fun _ _ =>
    Assembly.spares_ite (fun _ => ?_) fun _ => Assembly.spares_pure trivial
  exact (Assembly.spares_behave (hfree .float (by simp)) _).bind fun _ _ =>
    Lexicon.spares_endBeforeTerminators (hfree .float (by simp)) _ _

theorem wordless_buildCategories (hy : lexicon.buildCategories.Yields .start ⟨⟩ d) :
    d.Wordless lexicon := by
  have hbody {o : Origin} (ho : o = .unknown ∨ o = .identifier ∨ o = .number ∨ o = .float) :
      ¬o.IsBody := Origin.not_isBody_of_mem (.inr ho)
  obtain ⟨chart, unknown, chart₁, identifier, chart₂, number, chart₃, claim, chart₄, float, -⟩ :=
    (@charted_start lexicon []).categories hy
  rename_i d₁ d₂ d₃ d₄ place₁ place₂ place₃ _
  have hcategories : start.beginCategories.trie.Forest :=
    forest_start.congr (by simp [beginCategories]) (by simp [beginCategories])
  have hforest {o : Origin} {label : Label} {d d' : Draft} (hd : d.trie.Forest)
      (hsize : o.node < d.trie.size)
      (hy : (lexicon.endBeforeTerminators o.node label false).Yields d ⟨⟩ d') :
      d.Overwrites o.node [] label false lexicon.terminators d' :=
    overwrites_forM hd hsize rfl (by simp) hy
  have hover₁ := hforest (o := .unknown) hcategories
    (chart.origin_lt_size (hbody (by simp))) unknown
  have hover₂ := hforest (o := .identifier) hover₁.forest
    (chart₁.origin_lt_size (hbody (by simp))) identifier
  have hover₃ := hforest (o := .number) hover₂.forest
    (chart₂.origin_lt_size (hbody (by simp))) number
  have hdecimals : d₄.beginDecimals.trie.Forest := by
    rcases claim.claim with ⟨-, ⟨ws, rfl⟩, -⟩ | ⟨⟨⟩, -⟩
    exact hover₃.forest.congr (by simp [beginDecimals]) (by simp [beginDecimals])
  have hover₄ := hforest (o := .float) hdecimals (chart₄.origin_lt_size (hbody (by simp))) float
  have hstart : Charted lexicon [] False (fun _ => False)
      (fun k => k = .identifier ∨ k = .number ∨ k = .float) start startPlace := charted_start
  have hroot : start.Apart (fun _ => False) fun _ => True := ⟨⟨by decide, id, False.elim,
    fun _ _ he => ⟨id, hstart.ne_root_of_child? ((hstart.sorted _).find?_of_mem he)⟩⟩,
    by rintro o ⟨⟩⟩
  -- The other categories are built apart from the identifiers.
  have hfirst (q : List Symbol) :
      d₁.below .identifier q = start.beginCategories.below .identifier q := by
    have hfree : Trie.Free (start.beginCategories.StemsFrom .identifier startPlace)
        Origin.unknown.node :=
      chart.free_stemsFrom (hbody (by simp)) (by simp) (by simp)
    refine below_of_spares ((Lexicon.spares_endBeforeTerminators hfree _ _).keeps
      (chart.apart_stemsFrom rfl (by simp) (by simp) fun _ => False) unknown).2.1
      (chart.closed_stemsFrom (by simp)) (chart.stemsFrom_origin (o := .identifier) ?_) q
    exact hbody (by simp)
  have hfree {o : Origin} (ho : o = .number ∨ o = .float) :
      Trie.Free (d₂.StemsFrom .identifier place₂) o.node :=
    chart₂.free_stemsFrom (hbody (by rcases ho with rfl | rfl <;> simp))
      (by rcases ho with rfl | rfl <;> simp) (by rcases ho with rfl | rfl <;> simp)
  have hlast (q : List Symbol) : d.below .identifier q = d₂.below .identifier q := by
    obtain ⟨h₃, hs₃, -⟩ := (Lexicon.spares_endBeforeTerminators (hfree (o := .number) (by simp))
      _ _).keeps (chart₂.apart_stemsFrom chart₂.openers_eq_nil (by simp) (by simp) fun _ => False)
      number
    obtain ⟨h₄, hs₄, -⟩ :=
      (Assembly.spares_claim (hfree (o := .float) (by simp)) _ _).keeps h₃ claim
    obtain ⟨h₅, hs₅, -⟩ := (Assembly.spares_behave (hfree (o := .float) (by simp)) _).keeps h₄
      (yields_modify.2 rfl : (Assembly.modifyBehaviour .float _).Yields d₄ ⟨⟩ d₄.beginDecimals)
    obtain ⟨-, hs₆, -⟩ := (Lexicon.spares_endBeforeTerminators (hfree (o := .float) (by simp))
      _ _).keeps h₅ float
    refine below_of_spares (((hs₃.trans hs₄).trans hs₅).trans hs₆)
      (chart₂.closed_stemsFrom (by simp)) (chart₂.stemsFrom_origin (o := .identifier) ?_) q
    exact hbody (by simp)
  refine ⟨hover₄.forest, fun s => ?_, ?_, fun {q} hq => ?_⟩
  · rw [((spares_buildCategories fun o ho => ⟨id, ?_⟩).keeps hroot hy).2.1.root trivial]
    · rfl
    · rcases ho with rfl | rfl | rfl | rfl <;> decide
  · exact (hlast []).trans ((hover₂.rest fun t _ => not_along_self _ _).trans (hfirst []))
  · rw [hlast]
    refine hover₂.below_eq hq (.inl ?_)
    obtain ⟨s, q, rfl⟩ := List.exists_cons_of_ne_nil hq
    exact (hfirst (s :: q)).trans rfl

/-- Without words no text stands for anything. -/
theorem Wordless.learned (h : d.Wordless lexicon) (hpos : NodeId.root < d.trie.size)
    (α : Alphabet) : d.Learned lexicon α fun _ => .absent := by
  refine ⟨h.forest, hpos, fun {x q} hx _ => ?_⟩
  obtain ⟨c, x, rfl⟩ := List.exists_cons_of_ne_nil hx.1
  rw [Lexicon.face, below_eq_none, List.map_cons, List.cons_append, Trie.follow?_cons, h.root]
  rfl

/-! ### A draft in what keywords make of it -/

/-- A renaming that makes room for new nodes behind the old ones. -/
def shift (size room n : Nat) : Nat := if n < size then n else n + room

theorem shift_inj {size room n m : Nat} (h : shift size room n = shift size room m) : n = m := by
  unfold shift at h
  split at h <;> split at h <;> omega

theorem renames_shift {size : Nat} (room : Nat) (h : 5 ≤ size) : Renames (shift size room) where
  inj heq := shift_inj heq
  start hn := if_pos (Nat.lt_of_lt_of_le hn h)

/-- The old nodes, of which only the root has got more children. -/
def IsOld (d : Draft) (n : NodeId) : Prop := n < d.trie.size ∧ n ≠ .root

/-- The nodes that have come. -/
def IsNew (d e : Draft) (n : NodeId) : Prop := d.trie.size ≤ n ∧ n < e.trie.size

theorem Charted.apart_isOld (h : Charted lexicon [] pointed marked loose d place)
    (hroot : ∀ s, d.trie.child? .root s = none) (out : Symbol → Prop) : d.Apart d.IsOld out where
  trie := by
    refine ⟨h.root_lt_size, fun hk => hk.2 rfl, fun hk => hk.1, fun {n x} hn _ hx => ?_⟩
    have hlt := Trie.lt_size_of_edges_ne (List.ne_nil_of_mem hx)
    obtain rfl : n = .root := by
      by_contra hne
      exact hn ⟨hlt, hne⟩
    have hc := (h.sorted .root).find?_of_mem hx
    cases (hroot x.1).symm.trans hc
  opener := by simp [h.openers_eq_nil]

/-- What has been built on new children of the root stands apart. -/
theorem Charted.apart_isNew (h : Charted lexicon [] pointed marked loose d place)
    (h' : Charted lexicon [] pointed marked loose e place')
    (hroot : ∀ s, d.trie.child? .root s = none)
    (hs : d.trie.Spares d.IsOld (fun s => ¬out s) e.trie) : e.Apart (d.IsNew e) out where
  trie := by
    refine ⟨h'.root_lt_size, fun hk => Nat.not_lt.2 hk.1 h.root_lt_size, fun hk => hk.2,
      fun {n x} hn hout hx => ?_⟩
    have hc := (h'.sorted n).find?_of_mem hx
    refine ⟨fun hk => ?_, h'.ne_root_of_child? hc⟩
    by_cases hne : n = .root
    · subst hne
      have hnone := (hs.root (hout rfl)).trans (hroot x.1)
      cases hnone.symm.trans hc
    · have hlt : n < d.trie.size := Nat.lt_of_not_le fun hle =>
        hn ⟨hle, Trie.lt_size_of_edges_ne (List.ne_nil_of_mem hx)⟩
      rw [hs.edges ⟨hlt, hne⟩] at hx
      exact Nat.not_lt.2 hk.1 (h.child ((h.sorted n).find?_of_mem hx)).1
  opener := by simp [h'.openers_eq_nil]

theorem Charted.closed_isNew (h' : Charted lexicon [] pointed marked loose e place')
    (hforest : e.trie.Forest) : e.Closed (d.IsNew e) := by
  intro n m s hn hc
  exact ⟨Nat.le_trans hn.1 (Nat.le_of_lt (hforest.up hc).1), (h'.child hc).1⟩

/-- A draft whose root has no children is mirrored in what is built on new children of the root. -/
theorem Charted.mirrors_of_spares (h : Charted lexicon [] pointed marked loose d place)
    (h' : Charted lexicon [] pointed marked loose e place')
    (hroot : ∀ s, d.trie.child? .root s = none)
    (hs : d.trie.Spares d.IsOld (fun s => ¬out s) e.trie) :
    d.Mirrors (shift d.trie.size (e.trie.size - d.trie.size)) out e := by
  have hnew {n : NodeId} (hn : ¬n < d.trie.size) :
      e.trie.size ≤ n + (e.trie.size - d.trie.size) := by
    have hle := Nat.add_le_add_right (Nat.not_lt.1 hn) (e.trie.size - d.trie.size)
    rwa [Nat.add_sub_cancel' hs.size] at hle
  refine ⟨⟨h.root_lt_size, hs.size, fun k => ?_, h.sorted, fun {n} hn => ?_, fun {s} hs' => ?_,
    fun n => ?_, h.ne_root_of_child?⟩, h.tame, ?_, fun {o} ho => ?_, h.runs_eq_empty⟩
  · rw [shift, if_neg (Nat.not_lt.2 (Nat.le_add_right ..)), Nat.add_right_comm,
      Nat.add_sub_cancel' hs.size]
  · by_cases hlt : n < d.trie.size
    · rw [shift, if_pos hlt, hs.edges ⟨hlt, hn⟩]
      refine ((List.map_congr_left fun x hx => ?_).trans (List.map_id _)).symm
      rw [shift, if_pos (h.child ((h.sorted n).find?_of_mem hx)).1]
      rfl
    · rw [shift, if_neg hlt, Trie.edges_of_size_le _ _ (Nat.not_lt.1 hlt),
        Trie.edges_of_size_le _ _ (hnew hlt)]
      rfl
  · rw [hs.root hs', hroot]
    rfl
  · by_cases hlt : n < d.trie.size
    · have hself := h.site_mirrors_self
        (renames_shift (e.trie.size - d.trie.size) h.size) n
      rw [shift, if_pos hlt, hs.content fun hn => hn.1 ⟨hlt, hn.2⟩]
      exact hself
    · rw [shift, if_neg hlt, Trie.content_of_size_le _ _ (Nat.not_lt.1 hlt),
        Trie.content_of_size_le _ _ (hnew hlt)]
      exact Site.mirrors_default _
  · rw [h.openers_eq_nil, h'.openers_eq_nil]
    rfl
  · rw [h.openers_eq_nil] at ho
    cases ho

end Draft

/-! ### What the ends of paths do -/

namespace StateGraph

variable {g : StateGraph} {lexicon : Lexicon} {d : Draft} {kept : NodeId → Prop}
  {out : Symbol → Prop} {b : NodeId} {q : List Symbol} {s : Symbol}

/-- What the end of a path does in an automaton. -/
def Faces (g : StateGraph) (b : NodeId) (path : List Symbol) : Option Face → Prop
  | none => g.trie.follow? b path = none
  | some face => ∃ n, g.trie.follow? b path = some n ∧
      (g.behaviour n).fallback = face.fallback ∧ (g.behaviour n).action = face.action

theorem Faces.of_child {m : NodeId} {face : Option Face} (hc : g.trie.child? b s = some m)
    (h : g.Faces m q face) : g.Faces b (s :: q) face := by
  have hfollow : g.trie.follow? b (s :: q) = g.trie.follow? m q := by
    rw [Trie.follow?_cons, hc]
    rfl
  cases face with
  | none => exact hfollow.trans h
  | some face =>
    obtain ⟨n, hn, hface⟩ := h
    exact ⟨n, hfollow.trans hn, hface⟩

/-- A finished automaton does below a spared node what its draft does. -/
theorem Shows.faces (h : g.Shows kept out d) (hclosed : d.Closed kept) (hb : kept b)
    (q : List Symbol) : g.Faces b q (d.below b q) := by
  induction q generalizing b with
  | nil => exact ⟨b, rfl, by rw [h.behaviour hb]; rfl, by rw [h.behaviour hb]; rfl⟩
  | cons s q ih =>
    have hchild := h.child? (s := s) (.inl hb)
    rw [Draft.below, Trie.follow?_cons]
    cases hc : d.trie.child? b s with
    | none =>
      rw [hc] at hchild
      exact (Trie.follow?_cons ..).trans (by rw [hchild]; rfl)
    | some m => exact .of_child (hchild.trans hc) (ih (hclosed hb hc))

theorem Shows.faces_root (h : g.Shows kept out d) (hclosed : d.Closed kept) (hs : out s)
    (hroot : ∀ m, d.trie.child? .root s = some m → kept m) (q : List Symbol) :
    g.Faces .root (s :: q) (d.below .root (s :: q)) := by
  have hchild := h.child? (s := s) (.inr ⟨rfl, hs⟩)
  rw [Draft.below, Trie.follow?_cons]
  cases hc : d.trie.child? .root s with
  | none =>
    rw [hc] at hchild
    exact (Trie.follow?_cons ..).trans (by rw [hchild]; rfl)
  | some m => exact .of_child (hchild.trans hc) (h.faces hclosed (hroot m hc) q)

/-- Weak ends of tokens do what strong ones do. -/
theorem faces_ending {label : Label} {weak : Bool} (weak' : Bool)
    (h : g.Faces b q (lexicon.ending label weak q)) :
    g.Faces b q (lexicon.ending label weak' q) := by
  unfold Lexicon.ending at h ⊢
  split
  · next hend =>
    rw [if_pos hend] at h
    exact h
  · next hend =>
    rw [if_neg hend] at h
    exact h

/-- An identifier does what the beginning of a word does. -/
theorem Faces.begun (hd : d.Wordless lexicon) (h : g.Faces .identifier q (d.below .identifier q)) :
    g.Faces .identifier q (lexicon.face .begun q) := by
  rw [Lexicon.face, Lexicon.standing]
  split
  · next hq =>
    subst hq
    rw [hd.identifier] at h
    exact h
  · next hq =>
    rw [hd.ending hq] at h
    exact faces_ending true h

/-- An automaton `g`, and an automaton `g'` in which words stand below the root as well. An
identifier does in `g` what the beginning of a word does in `g'`. -/
structure Enriches (lexicon : Lexicon) (words : List (String × Label)) (f : NodeId → NodeId)
    (g g' : StateGraph) : Prop where
  renames : Renames f
  mirrors : g.Mirrors f lexicon.Starts g'
  identifierStart : g.identifierStart = lexicon.identifierStart
  identifierContinue : g.identifierContinue = lexicon.identifierContinue
  root {s : Symbol} (hs : lexicon.Starts s) : g.trie.child? .root s = none
  identifier (q : List Symbol) : g.Faces .identifier q (lexicon.face .begun q)
  word {x : List Char} {q : List Symbol} (hx : lexicon.IsWordlike x)
    (hstarts : ∀ c ∈ x.head?, lexicon.identifierStart.contains c = true) (hq : lexicon.IsEnding q) :
    g'.Faces .root (x.map .char ++ q) (lexicon.face (standingIn words x) q)

end StateGraph

/-! ### Grammars -/

theorem GreedyMatcher.flat_eq_self {γ : Type} {m : GreedyMatcher γ} (h : m.subGrammar = none) :
    m.flat = m := by
  obtain ⟨kind, startsWith, endsWith, haltsWith, escapesWith, subGrammar⟩ := m
  cases h
  rfl

theorem head?_spelling {cs : List Char} {c : Char} :
    (spelling cs).head? = some (.char c) ↔ cs.head? = some c := by
  cases cs <;> simp [spelling]

theorem admits_of {lexicon : Lexicon} {literal : String}
    (h : ∀ c ∈ literal.toList.head?, lexicon.identifierStart.contains c = false) :
    Admits lexicon.Starts literal := by
  rintro _ hs ⟨c, rfl, hc⟩
  rw [h c (head?_spelling.1 hs)] at hc
  cases hc

namespace Grammar

/-- A grammar without its keywords. -/
def wordless (g : Grammar) : Grammar := { g with keywords := [] }

/-- Keywords are different and look like identifiers, and nothing else begins as an identifier
does; no mark goes on as one. Every matcher has a terminator. -/
structure WordsApart (g : Grammar) : Prop where
  distinct : (literalsOf g.keywords).Nodup
  shaped : ∀ t ∈ literalsOf g.keywords, g.isIdentifierShaped t.toList = true
  point : g.identifierStart.contains '.' = false
  mark : ∀ t ∈ literalsOf g.delimiters ++ literalsOf g.punctuation, ∀ c ∈ t.toList.head?,
    g.identifierStart.contains c = false ∧ g.identifierContinue.contains c = false
  opener : ∀ m ∈ g.greedyMatchers, ∀ c ∈ m.startsWith.toList.head?,
    g.identifierStart.contains c = false
  terminated : ∀ m ∈ g.greedyMatchers, m.terminator ≠ none

theorem wordsApart_iff {g : Grammar} : g.WordsApart ↔
    (literalsOf g.keywords).Nodup ∧
    (∀ t ∈ literalsOf g.keywords, g.isIdentifierShaped t.toList = true) ∧
    g.identifierStart.contains '.' = false ∧
    (∀ t ∈ literalsOf g.delimiters ++ literalsOf g.punctuation, (t.toList.head?.all fun c =>
      !g.identifierStart.contains c && !g.identifierContinue.contains c) = true) ∧
    (∀ m ∈ g.greedyMatchers,
      (m.startsWith.toList.head?.all fun c => !g.identifierStart.contains c) = true) ∧
    ∀ m ∈ g.greedyMatchers, m.terminator ≠ none := by
  simp only [Option.all_eq_true, Bool.and_eq_true, Bool.not_eq_true']
  exact ⟨fun h => ⟨h.distinct, h.shaped, h.point, h.mark, h.opener, h.terminated⟩,
    fun ⟨h₁, h₂, h₃, h₄, h₅, h₆⟩ => ⟨h₁, h₂, h₃, h₄, h₅, h₆⟩⟩

instance (g : Grammar) : Decidable g.WordsApart := decidable_of_iff _ wordsApart_iff.symm

namespace WordsApart

variable {g : Grammar} (h : g.WordsApart)

include h

/-- No mark and no opener begins as a keyword does. -/
theorem admitted : g.toLexicon.Admitted (compileMatchers g.greedyMatchers) g.Starts where
  opener {m} hm := by
    rw [compileMatchers_eq] at hm
    obtain ⟨m', hm', rfl⟩ := List.mem_map.1 hm
    rw [startsWith_compileMatcher]
    exact admits_of (h.opener m' hm')
  delimiter ht := admits_of fun c hc => (h.mark _ (List.mem_append_left _ ht) c hc).1
  punctuation ht := admits_of fun c hc => (h.mark _ (List.mem_append_right _ ht) c hc).1
  point := by
    rintro ⟨c, hc, hstart⟩
    cases hc
    rw [h.point] at hstart
    cases hstart

/-- A terminator ends words. -/
theorem ending {t : String} (ht : t ∈ g.terminators) : g.IsEnding (spelling t.toList) := by
  intro c hc
  rw [head?_spelling] at hc
  simp only [Lexicon.terminators, List.mem_eraseDups, List.mem_append, List.mem_singleton] at ht
  rcases ht with (ht | rfl) | ht
  · exact (h.mark t (List.mem_append_left _ ht) c hc).2
  · cases hc
  · exact (h.mark t (List.mem_append_right _ ht) c hc).2

/-- A keyword begins as an identifier does. -/
theorem exists_start {t : String} (ht : t ∈ literalsOf g.keywords) :
    ∃ c, t.toList.head? = some c ∧ g.identifierStart.contains c = true := by
  have hshaped := h.shaped t ht
  cases hlist : t.toList with
  | nil =>
    rw [hlist] at hshaped
    cases hshaped
  | cons c cs =>
    rw [hlist] at hshaped
    exact ⟨c, rfl, (Bool.and_eq_true_iff.1 hshaped).1⟩

theorem shaped_of_mem {p : String × Label} (hp : p ∈ g.keywordLabels) :
    g.isIdentifierShaped p.1.toList = true :=
  h.shaped p.1 (g.map_fst_keywordLabels ▸ List.mem_map_of_mem hp)

end WordsApart

theorem validate_wordless {g : Grammar} (h : g.validate = .ok ()) :
    g.wordless.validate = .ok () := by
  obtain ⟨lexicon, matchers⟩ := g
  rw [validate] at h
  obtain ⟨⟨⟩, hl, hm⟩ := bind_eq_ok.1 h
  obtain ⟨⟨⟩, -, hl⟩ := bind_eq_ok.1 hl
  obtain ⟨⟨⟩, hpunctuation, hdelimiter⟩ := bind_eq_ok.1 hl
  change Grammar.validate ⟨{ lexicon with keywords := [] }, matchers⟩ = _
  have hvalid : ({ lexicon with keywords := [] } : Lexicon).validate = .ok () := by
    change refuseEmptyLiteral .keyword [] >>= _ = _
    rw [show refuseEmptyLiteral .keyword [] = .ok () from rfl, ok_bind, hpunctuation, ok_bind]
    exact hdelimiter
  rw [validate, hvalid, ok_bind, hm]

/-- Grammars of interiors apart, a grammar compiles without its keywords, and its automaton is that
of the other grammar with the keywords as words. -/
theorem wordless_compile {g : Grammar} {a : Automaton} (h : g.compile.result = .ok a)
    (hflat : ∀ m ∈ g.greedyMatchers, m.subGrammar = none) (hwords : g.WordsApart) :
    ∃ plain f, g.wordless.compile.result = .ok plain ∧
      StateGraph.Enriches g.toLexicon g.keywordLabels f plain.toStateGraph a.toStateGraph := by
  obtain ⟨hvalid, hassemble⟩ := compile_eq_ok.1 h
  obtain ⟨e', hbuild, rfl⟩ := Lexicon.assemble_eq_ok.1 hassemble
  obtain ⟨⟨⟩, d, hcategories, hbuild⟩ := Assembly.yields_bind.1 hbuild
  obtain ⟨⟨⟩, e, hkeywords, hrest⟩ := Assembly.yields_bind.1 hbuild
  obtain ⟨place, hd⟩ := (@Draft.charted_start g.toLexicon []).buildCategories hcategories
  obtain ⟨place', he⟩ := hd.buildKeywords (by simp) hkeywords
  have hplain := Draft.wordless_buildCategories hcategories
  have hold := hd.apart_isOld hplain.root fun s => ¬g.Starts s
  have hspares := ((Lexicon.spares_buildKeywords hold.trie.root fun t ht => by
    rintro s hs hstarts
    obtain ⟨c, hc, hstart⟩ := hwords.exists_start ht
    exact hstarts ⟨c, Option.some.inj (hs.symm.trans (head?_spelling.2 hc)), hstart⟩).keeps hold
    hkeywords).2.1
  have hmirrors := hd.mirrors_of_spares he hplain.root hspares
  have hf := Draft.renames_shift (e.trie.size - d.trie.size) hd.size
  have hmatchers : (compileMatchers g.greedyMatchers).map .flat =
      compileMatchers g.greedyMatchers := by
    rw [← compileMatchers_flat,
      List.map_congr_left fun m hm => GreedyMatcher.flat_eq_self (hflat m hm), List.map_id']
  obtain ⟨d', hrest', hfinish⟩ := Lexicon.mirrors_buildRest hmirrors hf hwords.admitted hrest
  rw [hmatchers] at hrest'
  have hshows := Lexicon.shows_buildRest (hd.apart_stemsFrom hd.openers_eq_nil (o := .identifier)
    (by simp) (by simp) g.Starts) hwords.admitted hrest'
  refine ⟨g.toLexicon.finish d', _, compile_eq_ok.2 ⟨validate_wordless hvalid,
    Lexicon.assemble_eq_ok.2 ⟨d', ?_, rfl⟩⟩, hf, hfinish, rfl, rfl, ?_, ?_, ?_⟩
  · exact Assembly.yields_bind.2 ⟨⟨⟩, d, hcategories, Assembly.yields_bind.2 ⟨⟨⟩, d,
      Assembly.yields_pure.2 ⟨rfl, rfl⟩, hrest'⟩⟩
  · exact fun hs => (hshows.child? (.inr ⟨rfl, hs⟩)).trans (hplain.root _)
  · exact fun q => .begun hplain (hshows.faces (hd.closed_stemsFrom (by simp))
      (hd.stemsFrom_origin (Origin.not_isBody_of_mem (by simp))) q)
  · intro x q hx hstarts hq
    obtain ⟨c, x, rfl⟩ := List.exists_cons_of_ne_nil hx.1
    have hlearned := (hplain.learned hd.root_lt_size g.alphabet).buildKeywords
      (fun _ ht => (hwords.ending ht).alphabet) (g.map_fst_keywordLabels ▸ hwords.distinct)
      (fun p hp => (Lexicon.isWordlike_of_shaped (hwords.shaped_of_mem hp)).isWord)
      (g.buildKeywords_eq ▸ hkeywords)
    have hstart : g.Starts (.char c) := ⟨c, rfl, hstarts c rfl⟩
    rw [← hlearned.below hx.isWord hq.alphabet]
    refine (Lexicon.shows_buildRest (hd.apart_isNew he hplain.root hspares) hwords.admitted
      hrest).faces_root (he.closed_isNew hlearned.forest) hstart (fun m hm => ?_) _
    have hfree := hspares.apart.child (fun hk => hk.2 rfl) (fun _ hs => hs hstart) hm
    exact ⟨Nat.not_lt.1 fun hlt => hfree.1 ⟨hlt, hfree.2⟩, (he.child hm).1⟩

end Grammar

end TrieLexer
