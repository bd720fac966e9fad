import TrieLexer.Proofs.Fidelity
import TrieLexer.Proofs.Safety
import TrieLexer.Proofs.Survey

/-!
# What labels say about values

A node that gives text out under a label stands at the end of a path that spells what is registered
under the label, or ends text that stands at a place of the label. The pending text spells the path
to its node. So the label of a token tells the truth about its value.

## Main definitions

* `Titled` — what nodes give out under a label fits their places.
* `Lexeme.Truthful` — the label of a lexeme tells the truth.
* `Grammar.TellsTruth` — what a label of a group says about a token.

## Main results

* `Survey.Step.titled` — every step of building keeps the labels of nodes fitting.
* `Reading.Spelled.truthful_advance` — a symbol only gives out lexemes that tell the truth.
* `Grammar.naming` — so do tokens.
-/

namespace TrieLexer

open Text (byteLength)

/-! ### Nodes -/

/-- What landing gives out under a label fits the place: a delimiter, or text that stands before a
terminator. -/
inductive Action.Titled (lexicon : Lexicon) (matchers : List (GreedyMatcher Compilation))
    (p : Locus) : Action → Prop
  | none : Titled lexicon matchers p .none
  | literal {label : Option Label} {t : String} (h : lexicon.Delimits label t)
      (hp : p = ⟨.root, spelling t.toList⟩) : Titled lexicon matchers p (.literal label)
  | boundary {q : Locus} {label : Label} {t : String} (hq : q.Bears lexicon matchers label)
      (hp : p = q.walk (spelling t.toList)) :
      Titled lexicon matchers p (.boundary label (byteLength t.toList))
  | close {c : Close} {b : NodeId} {m : GreedyMatcher Compilation} {nested : Option RunId}
      {path : List Symbol} (ht : m.terminator ≠ Option.none) (hp : p = ⟨.body b m nested, path⟩) :
      Titled lexicon matchers p (.close c)

/-- A release under a label stands at the end of a punctuation literal. -/
def Fallback.Titled (lexicon : Lexicon) (p : Locus) (f : Fallback) : Prop :=
  ∀ label, f = .release label → ∃ t, lexicon.Punctuates label t ∧ p = ⟨.root, spelling t.toList⟩

/-- What nodes give out under a label fits their places. -/
structure Titled (lexicon : Lexicon) (matchers : List (GreedyMatcher Compilation))
    (behaviour : NodeId → Behaviour) (place : NodeId → Locus) : Prop where
  action (n : NodeId) : (behaviour n).action.Titled lexicon matchers (place n)
  fallback (n : NodeId) : (behaviour n).fallback.Titled lexicon (place n)

namespace Survey

variable {lexicon : Lexicon} {matchers : List (GreedyMatcher Compilation)} {s s' : Survey}

/-- What nodes give out under a label fits their places. -/
def Titled (lexicon : Lexicon) (matchers : List (GreedyMatcher Compilation)) (s : Survey) : Prop :=
  TrieLexer.Titled lexicon matchers (fun n => (s.draft.site n).behaviour) s.place

/-- A node gets a behaviour that fits its place. -/
theorem Titled.behave (h : s.Titled lexicon matchers) {d : Draft} {n : NodeId}
    (hn : n < d.trie.size) (hb : ∀ k, (d.site k).behaviour = (s.draft.site k).behaviour)
    {f : Behaviour → Behaviour}
    (ha : (f (s.draft.site n).behaviour).action.Titled lexicon matchers (s.place n))
    (hf : (f (s.draft.site n).behaviour).fallback.Titled lexicon (s.place n)) :
    TrieLexer.Titled lexicon matchers (fun k => ((d.modifyBehaviour n f).site k).behaviour)
      s.place := by
  refine ⟨fun k => ?_, fun k => ?_⟩
  · rw [Draft.behaviour_modifyBehaviour hn, hb]
    split
    · next hk => exact hk ▸ ha
    · exact h.action k
  · rw [Draft.behaviour_modifyBehaviour hn, hb]
    split
    · next hk => exact hk ▸ hf
    · exact h.fallback k

/-- Every step of building keeps the labels of nodes fitting. -/
theorem Step.titled (h : Step lexicon matchers s s') (ht : s.Titled lexicon matchers) :
    s'.Titled lexicon matchers := by
  cases h with
  | grow hg hchild hsite =>
    have hnew {k : NodeId} (hk : ¬k < s.draft.trie.size) : s.draft.site k = {} :=
      Draft.site_of_size_le (Nat.le_of_not_lt hk)
    refine ⟨fun k => ?_, fun k => ?_⟩
    · dsimp only
      rw [(hsite k).2.1]
      by_cases hk : k < s.draft.trie.size
      · rw [hg.place hk]
        exact ht.action k
      · rw [hnew hk]
        exact .none
    · dsimp only
      rw [(hsite k).2.2]
      by_cases hk : k < s.draft.trie.size
      · rw [hg.place hk]
        exact ht.fallback k
      · rw [hnew hk]
        rintro label ⟨⟩
  | through hn hp => exact ht.behave hn (fun _ => rfl) (ht.action _) (by rintro label ⟨⟩)
  | classify ho hn hf =>
    refine ht.behave hn (fun _ => rfl) (ht.action _) ?_
    obtain ⟨test, hit, rfl⟩ := hf
    exact nofun
  | take hn hrole =>
    refine ht.behave (by simpa using hn) (Draft.behaviour_recordClaim _) ?_ ?_
    · cases hrole with
      | boundary ho hj ht hp hn => exact .boundary hj hn
      | word hrole hn hroot hp => exact .none
      | decimal hn => exact .none
      | delimiter h hn => exact .literal h hn
      | close hterminated hn => exact .close hterminated hn
    · cases hrole with
      | delimiter h hn => exact ht.fallback _
      | _ => rintro label ⟨⟩
  | clear hn hP hrole =>
    refine ht.behave (by rw [hP.size]; simpa using hn)
      (fun k => by rw [hP.behaviour, Draft.behaviour_recordClaim]) ?_ ?_
    · cases hrole <;> exact .none
    · cases hrole with
      | opener => exact nofun
      | punctuation h hn =>
        rintro label ⟨⟩
        exact ⟨_, h, hn⟩
  | decline => exact ht
  | waive => exact ht

theorem titled_of_builds (h : Builds lexicon matchers s s')
    (ht : s.Titled lexicon matchers) : s'.Titled lexicon matchers := by
  induction h with
  | refl => exact ht
  | tail _ hstep ih => exact hstep.titled ih

theorem titled_start (owing : NodeId → String → Prop) :
    Titled lexicon matchers ⟨.start, Draft.startPlace, owing⟩ := by
  refine ⟨fun k => ?_, fun k => ?_⟩
  · dsimp only
    rw [Draft.site_start]
    exact .none
  · dsimp only
    rw [Draft.site_start]
    rintro label ⟨⟩

end Survey

/-- What is left of a draft in its automaton fits as before. -/
theorem Draft.Finishes.titled {lexicon : Lexicon} {matchers : List (GreedyMatcher Compilation)}
    {d : Draft} {place : NodeId → Locus} {a : Automaton} (hf : Draft.Finishes lexicon d place a)
    (h : Titled lexicon matchers (fun n => (d.site n).behaviour) place) :
    Titled lexicon matchers a.behaviour place := by
  refine ⟨fun n => hf.action n ▸ h.action n, fun n => ?_⟩
  by_cases hn : n = .root
  · rw [hn, hf.root]
    rintro label ⟨⟩
  · rcases hf.fallback hn with hsame | ⟨-, b, -, -, hb⟩
    · rw [hsame]
      exact h.fallback n
    · rw [hb]
      rintro label ⟨⟩

/-- What the nodes of an automaton give out under a label fits their places. -/
theorem Grammar.titled_compile {g : Grammar} {a : Automaton} (h : g.compile.result = .ok a) :
    a.unnamed = g.unnamedLabel ∧ ∃ place,
      Charted g.toLexicon (compileMatchers g.greedyMatchers) a place ∧
      Titled g.toLexicon (compileMatchers g.greedyMatchers) a.behaviour place := by
  obtain ⟨hunnamed, d, place, hchart, hfinishes, hbuilds⟩ := exists_builds h
  exact ⟨hunnamed, place, hfinishes.charted hchart,
    hfinishes.titled (Survey.titled_of_builds hbuilds (Survey.titled_start _))⟩

/-! ### Lexemes -/

/-- A terminator after this interior is not escaped. -/
def GreedyMatcher.Unescaped {γ : Type} (m : GreedyMatcher γ) (interior : List Char) : Prop :=
  ∀ escape ∈ m.escapeChars, (interior.reverse.takeWhile (· == escape)).length % 2 = 0

/-- The labels of the open-ended categories. -/
def Labels.categories (labels : Labels) : List Label :=
  [labels.unknown, labels.identifier, labels.number, labels.decimal]

/-- The label of a lexeme tells the truth. A run may be cut off only where the input has `ended`. -/
inductive Lexeme.Truthful (lexicon : Lexicon) (matchers : List (GreedyMatcher Compilation))
    (ended : Prop) : Lexeme → Prop
  | silent {text : List Char} : Truthful lexicon matchers ended (.plain text none)
  | category {text : List Char} {label : Label} (h : label ∈ lexicon.labels.categories) :
      Truthful lexicon matchers ended (.plain text (some label))
  | word {label : Label} {t : String} (h : lexicon.Words matchers label t) :
      Truthful lexicon matchers ended (.plain t.toList (some label))
  | delimiter {label : Option Label} {t : String} (h : lexicon.Delimits label t) :
      Truthful lexicon matchers ended (.plain t.toList (label.or lexicon.unnamedLabel))
  | punctuation {label : Label} {t : String} (h : lexicon.Punctuates label t) :
      Truthful lexicon matchers ended (.plain t.toList (some label))
  | run {m : GreedyMatcher Compilation} {t : String} {interior : List Char} {c : Close}
      (hm : m ∈ matchers) (ht : m.terminator = some t) (hc : c.label = m.kind)
      (hi : m.Unescaped interior) :
      Truthful lexicon matchers ended (.whole (m.startsWith.toList ++ interior ++ t.toList) c)
  | halted {m : GreedyMatcher Compilation} {t : String} {interior : List Char} {c : Close}
      (hm : m ∈ matchers) (hterminated : m.terminator ≠ none) (ht : m.haltMarker = some t)
      (hc : c.label = lexicon.labels.halted m.kind) (hi : m.Unescaped interior) :
      Truthful lexicon matchers ended (.whole (m.startsWith.toList ++ interior ++ t.toList) c)
  | cut {m : GreedyMatcher Compilation} {interior : List Char} {c : Close} (hm : m ∈ matchers)
      (hterminated : m.terminator ≠ none) (hc : c.label = lexicon.labels.halted m.kind)
      (hended : ended) :
      Truthful lexicon matchers ended (.whole (m.startsWith.toList ++ interior) c)

namespace Lexeme

variable {lexicon : Lexicon} {matchers : List (GreedyMatcher Compilation)} {ended ended' : Prop}
  {l : Lexeme} {ls ms : List Lexeme} {after : List Char}

theorem Truthful.mono (h : l.Truthful lexicon matchers ended) (hended : ended → ended') :
    l.Truthful lexicon matchers ended' := by
  cases h with
  | silent => exact .silent
  | category h => exact .category h
  | word h => exact .word h
  | delimiter h => exact .delimiter h
  | punctuation h => exact .punctuation h
  | run hm ht hc hi => exact .run hm ht hc hi
  | halted hm hterminated ht hc hi => exact .halted hm hterminated ht hc hi
  | cut hm hterminated hc h => exact .cut hm hterminated hc (hended h)

/-- The labels of lexemes tell the truth. A run is only cut off if the input has `ended` after them
and nothing follows the run. -/
def Truths (lexicon : Lexicon) (matchers : List (GreedyMatcher Compilation)) (ended : Prop)
    (after : List Char) : List Lexeme → Prop
  | [] => True
  | l :: ls => l.Truthful lexicon matchers (ended ∧ spelled ls ++ after = []) ∧
      Truths lexicon matchers ended after ls

theorem Truths.append (h : Truths lexicon matchers ended (spelled ms ++ after) ls)
    (h' : Truths lexicon matchers ended after ms) :
    Truths lexicon matchers ended after (ls ++ ms) := by
  induction ls with
  | nil => exact h'
  | cons l ls ih =>
    have hl : l.Truthful lexicon matchers (ended ∧ spelled (ls ++ ms) ++ after = []) := by
      rw [spelled_append, List.append_assoc]
      exact h.1
    exact ⟨hl, ih h.2⟩

theorem truths_of_forall (h : ∀ l ∈ ls, l.Truthful lexicon matchers False) :
    Truths lexicon matchers ended after ls := by
  induction ls with
  | nil => trivial
  | cons l ls ih =>
    obtain ⟨hl, hls⟩ := List.forall_mem_cons.1 h
    exact ⟨hl.mono False.elim, ih hls⟩

theorem Truths.forall (h : Truths lexicon matchers ended after ls) (hended : ¬ended) :
    ∀ l ∈ ls, l.Truthful lexicon matchers False := by
  induction ls with
  | nil => exact List.forall_mem_nil _
  | cons l ls ih => exact List.forall_mem_cons.2 ⟨h.1.mono fun he => hended he.1, ih h.2⟩

theorem Truths.split (h : Truths lexicon matchers ended after (ls ++ l :: ms)) :
    l.Truthful lexicon matchers (ended ∧ spelled ms ++ after = []) := by
  induction ls with
  | nil => exact h.1
  | cons l' ls ih => exact ih h.2

end Lexeme

/-! ### Scans -/

/-- The pending text at a place below the root is the path. -/
theorem Locus.Spells.eq_of_root {path : List Symbol} {text : List Char}
    (h : Locus.Spells ⟨.root, path⟩ text) : text = pathText path := by
  obtain ⟨before, rfl, rfl⟩ := h
  rfl

/-- The symbol that led to a place ends its path. -/
theorem Locus.Leads.path_eq {stays : Prop} {p q : Locus} {s : Symbol} (h : p.Leads stays s q)
    (hstays : stays → p.IsRest) : q.path = [] ∨ ∃ front, q.path = front ++ [s] := by
  have hrest {rest : List Symbol} (hr : rest = [] ∨ rest = [s]) :
      rest = [] ∨ ∃ front, rest = front ++ [s] := hr.imp_right fun hr => ⟨[], hr⟩
  cases h with
  | down =>
    obtain hd | ⟨-, -, hd⟩ := p.down_eq_or s
    · exact .inr ⟨p.path, by rw [hd]⟩
    · exact .inl (by rw [hd])
  | stay h => exact .inl (hstays h).1
  | unknown => exact .inr ⟨[], rfl⟩
  | enter hp hr => exact hrest hr
  | back hp hr => exact hrest hr
  | _ => exact .inl rfl

namespace Charted

variable {lexicon : Lexicon} {matchers : List (GreedyMatcher Compilation)} {a : Automaton}
  {place : NodeId → Locus} {n : NodeId} {text : List Char}

/-- Text before a terminator goes out under the label of the place that it stands at. -/
theorem truthful_boundary (ht : Titled lexicon matchers a.behaviour place) {label : Label}
    {length : Nat} (hb : (a.behaviour n).action = .boundary label length)
    (hs : (place n).Spells text) {before terminator : List Char}
    (hcut : cutBack length text = .ok (before, terminator)) :
    (Lexeme.plain before (some label)).Truthful lexicon matchers False := by
  have htitle := ht.action n
  rw [hb] at htitle
  cases htitle with
  | @boundary q _ t hq hp =>
    cases hq with
    | unknown | identifier | number | decimal => exact .category (by simp [Labels.categories])
    | beginning => exact .category (by simp [Labels.categories])
    | @word _ literal hword =>
      rw [hp, Locus.walk_of_origin_ne (by simp)] at hs
      obtain ⟨rfl, hlength⟩ := cutBack_eq_ok.1 hcut
      have htext := hs.eq_of_root
      rw [pathText_append, pathText_spelling, pathText_spelling] at htext
      have hbytes := congrArg byteLength htext
      rw [Text.byteLength_append, Text.byteLength_append] at hbytes
      rw [(Text.append_inj_of_byteLength htext (by omega)).1]
      exact .word hword

/-- The symbol of a move ends the path to where it leads. -/
theorem path_of_move (h : Charted lexicon matchers a place) {c c' : Cursor} {s : Symbol}
    {ls : List Lexeme} (hrest : (a.behaviour c.node).action = .none)
    (hm : a.move c s = .ok (c', ls)) :
    (place c'.node).path = [] ∨ ∃ front, (place c'.node).path = front ++ [s] := by
  rw [StateGraph.move] at hm
  split at hm
  · next hr =>
    cases hm
    exact (h.leads hr).path_eq fun hstay => h.settled hstay hrest
  · split at hm
    · next hr =>
      cases hm
      exact (h.leads hr).path_eq fun hstay => h.settled hstay h.action_root
    · cases hm

/-- Without interiors no run has a nested one. -/
theorem nested_eq_none (h : Charted lexicon matchers a place)
    (hflat : ∀ m ∈ matchers, m.subGrammar = none) {b : NodeId} {m : GreedyMatcher Compilation}
    {nested : Option RunId} {path : List Symbol} (hp : place n = ⟨.body b m nested, path⟩) :
    nested = none := by
  obtain ⟨-, -, hm, hnests⟩ := h.body hp
  cases nested with
  | none => rfl
  | some id =>
    obtain ⟨_, _, _, hsub, -⟩ := hnests
    cases (hflat m hm).symm.trans hsub

/-- Text goes out before a symbol that makes no longer literal. -/
theorem truthful_move (h : Charted lexicon matchers a place)
    (ht : Titled lexicon matchers a.behaviour place) {c c' : Cursor} {s : Symbol} {ls : List Lexeme}
    (hs : (place c.node).Spells c.pending) (hm : a.move c s = .ok (c', ls)) :
    ∀ l ∈ ls, l.Truthful lexicon matchers False := by
  rw [StateGraph.move] at hm
  split at hm
  · cases hm
    exact List.forall_mem_nil _
  · next label hr =>
    split at hm
    · cases hm
      obtain ⟨t, hmark, hp⟩ := ht.fallback c.node label (h.release hr).2
      rw [hp] at hs
      rw [hs.eq_of_root, pathText_spelling]
      exact List.forall_mem_singleton.2 (.punctuation hmark)
    · cases hm

end Charted

/-- Before a terminator that is not escaped stands an even number of escape characters. -/
theorem Close.Ends.unescaped {labels : Labels} {b : NodeId} {m : GreedyMatcher Compilation}
    {nested : Option RunId} {t : String} {c : Close} (h : c.Ends labels b m nested t)
    (hescape : m.escape = .ok c.escape) {interior : List Char}
    (hc : c.isEscaped (m.startsWith.toList ++ interior ++ t.toList) = .ok false) :
    m.Unescaped interior := by
  intro escape hmem
  have hchars : m.escapeChars = [escape] ∧ c.escape = some escape := by
    rw [GreedyMatcher.escape] at hescape
    split at hescape
    · next hnil =>
      rw [hnil] at hmem
      cases hmem
    · next hone =>
      rw [hone] at hmem ⊢
      rw [List.mem_singleton.1 hmem]
      exact ⟨rfl, (Except.ok.inj hescape).symm⟩
    · cases hescape
  rw [Close.isEscaped, hchars.2] at hc
  obtain ⟨⟨before, terminator⟩, hback, hc⟩ := bind_eq_ok.1 hc
  obtain ⟨⟨opener, interior'⟩, hfront, hc⟩ := bind_eq_ok.1 hc
  rw [cutBack_eq_ok.2 ⟨rfl, h.terminatorLength.symm⟩] at hback
  cases hback
  rw [cutFront_eq_ok.2 ⟨rfl, h.openerLength.symm⟩] at hfront
  cases hfront
  have hodd := Except.ok.inj hc
  simpa using hodd

namespace Reading

variable {lexicon : Lexicon} {matchers : List (GreedyMatcher Compilation)} {a : Automaton}
  {place : NodeId → Locus} {inner : InnerScan} {r r' : Reading} {ls : List Lexeme} {ended : Prop}

/-- A run goes out under a label that tells how it ended. -/
theorem truthful_close (h : Charted lexicon matchers a place)
    (ht : Titled lexicon matchers a.behaviour place) (hflat : ∀ m ∈ matchers, m.subGrammar = none)
    (hspells : (place r.node).Spells r.pending)
    (hended : (place r.node).path = [.endOfInput] → ended)
    {c : Close} (hc : (a.behaviour r.node).action = .close c)
    (hs : r.close a inner c = .ok (r', ls)) :
    Lexeme.Truths lexicon matchers ended r'.pending ls := by
  obtain ⟨b, m, nested, t, interior, hp, hends, hpending⟩ := h.close_spells hc hspells
  obtain ⟨-, -, hm, -⟩ := h.body hp
  have hterminated : m.terminator ≠ none := by
    have htitle := ht.action r.node
    rw [hc] at htitle
    cases htitle with
    | close hterminated hp' =>
      cases hp.symm.trans hp'
      exact hterminated
  have hnested : c.nested = none := hends.nested.trans (h.nested_eq_none hflat hp)
  obtain ⟨escaped, hescaped, hs⟩ := bind_eq_ok.1 hs
  cases escaped with
  | true =>
    cases hs
    trivial
  | false =>
    rw [if_neg Bool.false_ne_true, hnested] at hs
    cases hs
    refine ⟨?_, trivial⟩
    rw [hpending] at hescaped ⊢
    rcases hends.way with ⟨hterminator, hlabel, -, hescape⟩ | ⟨rfl, hlabel, -⟩ |
      ⟨hmarker, hlabel, -, hescape⟩
    · exact .run hm hterminator hlabel (hends.unescaped hescape hescaped)
    · have hend : ended := hended (by rw [hp]; rfl)
      rw [show "".toList = [] from rfl, List.append_nil (m.startsWith.toList ++ interior)]
      refine .cut hm hterminated hlabel ?_
      exact ⟨hend, rfl⟩
    · exact .halted hm hterminated hmarker hlabel (hends.unescaped hescape hescaped)

/-- A delimiter goes out under its label. -/
theorem truthful_mark (ht : Titled lexicon matchers a.behaviour place)
    (hunnamed : a.unnamed = lexicon.unnamedLabel) (hspells : (place r.node).Spells r.pending)
    (hmark : (a.behaviour r.node).action.EndsMark) (hs : r.settle a inner = .ok (r', ls)) :
    ∀ l ∈ ls, l.Truthful lexicon matchers False := by
  rw [Reading.settle] at hs
  rcases hmark with hc | ⟨label, hc⟩
  · rw [hc] at hs
    cases hs
    exact List.forall_mem_nil _
  · rw [hc] at hs
    cases hs
    have htitle := ht.action r.node
    rw [hc] at htitle
    cases htitle with
    | literal hdelimiter hp =>
      rw [hp] at hspells
      rw [hspells.eq_of_root, pathText_spelling, hunnamed]
      exact List.forall_mem_singleton.2 (.delimiter hdelimiter)

theorem truthful_act (h : Charted lexicon matchers a place)
    (ht : Titled lexicon matchers a.behaviour place) (hunnamed : a.unnamed = lexicon.unnamedLabel)
    (hflat : ∀ m ∈ matchers, m.subGrammar = none) (hlone : lexicon.LonePoint)
    (hspells : (place r.node).Spells r.pending)
    (hended : (place r.node).path = [.endOfInput] → ended) (hs : r.act a inner = .ok (r', ls)) :
    Lexeme.Truths lexicon matchers ended r'.pending ls := by
  cases hc : (a.behaviour r.node).action with
  | none =>
    rw [Reading.act, hc] at hs
    exact Lexeme.truths_of_forall (truthful_mark ht hunnamed hspells (.inl hc) hs)
  | literal label =>
    rw [Reading.act, hc] at hs
    exact Lexeme.truths_of_forall (truthful_mark ht hunnamed hspells (.inr ⟨label, hc⟩) hs)
  | close c =>
    rw [Reading.act, hc] at hs
    change r.settle a inner = .ok (r', ls) at hs
    rw [Reading.settle, hc] at hs
    exact truthful_close h ht hflat hspells hended hc hs
  | boundary label length =>
    rw [Reading.act, hc] at hs
    obtain ⟨⟨before, terminator⟩, hcut, hs⟩ := bind_eq_ok.1 hs
    obtain ⟨t, hmem, front, hpending, hlength⟩ := h.boundary_spells hlone hc hspells
    obtain ⟨n, hretake, hn, hends⟩ := h.retake_terminator hlone hmem
    obtain rfl : terminator = t.toList := by
      rw [cutBack_eq_ok.2 ⟨hpending, hlength⟩] at hcut
      cases hcut
      rfl
    obtain ⟨⟨c, released⟩, hm, hs⟩ := bind_eq_ok.1 hs
    cases hretake.symm.trans hm
    obtain ⟨⟨r₁, out⟩, hsettle, hs⟩ := bind_eq_ok.1 hs
    cases hs
    exact Lexeme.truths_of_forall (List.forall_mem_cons.2
      ⟨Charted.truthful_boundary ht hc hspells hcut, truthful_mark ht hunnamed hn hends hsettle⟩)

/-- A symbol only gives out lexemes whose labels tell the truth. -/
theorem Spelled.truthful_advance (hr : r.Spelled a place) (h : Charted lexicon matchers a place)
    (ht : Titled lexicon matchers a.behaviour place) (hunnamed : a.unnamed = lexicon.unnamedLabel)
    (hflat : ∀ m ∈ matchers, m.subGrammar = none) (hlone : lexicon.LonePoint) {s : Symbol}
    (ha : r.advance a inner s = .ok (r', ls)) :
    Lexeme.Truths lexicon matchers (s = .endOfInput) r'.pending ls := by
  obtain ⟨⟨c, released⟩, hm, ha⟩ := bind_eq_ok.1 ha
  obtain ⟨r₁, he, ha⟩ := bind_eq_ok.1 ha
  obtain ⟨⟨r₂, out⟩, hact, ha⟩ := bind_eq_ok.1 ha
  obtain ⟨r₃, hfeed, ha⟩ := bind_eq_ok.1 ha
  cases ha
  rw [feed_toCursor hfeed]
  refine .append (Lexeme.truths_of_forall (h.truthful_move ht hr.spells hm))
    (truthful_act h ht hunnamed hflat hlone (hr.enter h hm he) (fun hp => ?_) hact)
  rw [enter_toCursor he] at hp
  rcases h.path_of_move hr.rests hm with hpath | ⟨front, hpath⟩
  · rw [hpath] at hp
    cases hp
  · rw [hpath] at hp
    simpa using congrArg List.getLast? hp

theorem Spelled.truthful_read (hr : r.Spelled a place) (hsound : r.Sound a place 0)
    (h : Charted lexicon matchers a place) (ht : Titled lexicon matchers a.behaviour place)
    (hunnamed : a.unnamed = lexicon.unnamedLabel) (hflat : ∀ m ∈ matchers, m.subGrammar = none)
    (hlone : lexicon.LonePoint) {text : List Char} (hread : r.read a inner text = .ok (r', ls)) :
    ∀ l ∈ ls, l.Truthful lexicon matchers False := by
  induction text generalizing r ls with
  | nil =>
    cases hread
    exact List.forall_mem_nil _
  | cons c text ih =>
    obtain ⟨⟨r₁, out⟩, ha, hread⟩ := bind_eq_ok.1 hread
    obtain ⟨⟨r₂, outs⟩, hread', hread⟩ := bind_eq_ok.1 hread
    cases hread
    obtain ⟨hr₁, -⟩ := hr.advance hsound h hlone ha
    exact List.forall_mem_append.2
      ⟨(hr.truthful_advance h ht hunnamed hflat hlone ha).forall nofun,
        ih hr₁ (hsound.advance h ha) hread'⟩

end Reading

/-- The labels of the lexemes of a whole input tell the truth. -/
theorem Charted.truths_lexemes {lexicon : Lexicon} {matchers : List (GreedyMatcher Compilation)}
    {a : Automaton} {place : NodeId → Locus} (h : Charted lexicon matchers a place)
    (ht : Titled lexicon matchers a.behaviour place) (hunnamed : a.unnamed = lexicon.unnamedLabel)
    (hflat : ∀ m ∈ matchers, m.subGrammar = none) (hlone : lexicon.LonePoint) {x : String}
    {ls : List Lexeme} (hx : a.lexemes x = .ok ls) :
    spelled ls = x.toList ∧ Lexeme.Truths lexicon matchers True [] ls := by
  refine ⟨Automaton.spelled_lexemes hx, ?_⟩
  obtain ⟨r₁, ls₁, r₂, ls₂, hread, ha, rfl⟩ := Automaton.exists_of_lexemes hx
  have hs := Reading.spelled_root h none (Array.replicate a.runs.length none)
  have hsound := Reading.sound_root h 0 (Array.replicate a.runs.length none)
  obtain ⟨hs₁, -⟩ := hs.read hsound h hlone hread
  refine .append (Lexeme.truths_of_forall
    (hs.truthful_read hsound h ht hunnamed hflat hlone hread)) ?_
  have htruths := hs₁.truthful_advance h ht hunnamed hflat hlone ha
  refine .append ?_ ⟨.silent, trivial⟩
  rw [spelled_cons, spelled_nil, List.append_nil, List.append_nil]
  rw [eq_true rfl] at htruths
  exact htruths

/-! ### Tokens -/

/-- The groups of labels that a grammar uses. -/
inductive LabelGroup where
  | keyword
  | punctuation
  | delimiter
  /-- The types of greedy matchers with a terminator. -/
  | run
  /-- The labels of their runs that are not terminated. -/
  | halted
  /-- The labels of unknown text, identifiers and numbers. -/
  | category
deriving DecidableEq, Repr, Inhabited

namespace Grammar

/-- The labels of a group. -/
def labelsOf (g : Grammar) : LabelGroup → List Label
  | .keyword => g.keywords.map (·.label.getD g.labels.keyword) ++
      (g.greedyMatchers.filter (·.terminator.isNone)).map (·.kind)
  | .punctuation => g.punctuation.map (·.label.getD g.labels.punctuation)
  | .delimiter => g.delimiters.filterMap (·.label.or g.unnamedLabel)
  | .run => (g.greedyMatchers.filter (·.terminator.isSome)).map (·.kind)
  | .halted => (g.greedyMatchers.filter (·.terminator.isSome)).map (g.labels.halted ·.kind)
  | .category => g.labels.categories

/-- What a label of a group says about a token. A keyword, a delimiter or a punctuation literal is
registered under its label. A run is what the opener of a matcher of this type, an interior and its
terminator spell. A halted run ends at the end of the input or with the halt marker. A terminator
or halt marker is not escaped. -/
def TellsTruth (g : Grammar) (input : String) (t : Token) : LabelGroup → Prop
  | .keyword => g.Words g.greedyMatchers t.kind t.value
  | .punctuation => g.Punctuates t.kind t.value
  | .delimiter => ∃ label, label.or g.unnamedLabel = some t.kind ∧ g.Delimits label t.value
  | .run => ∃ m ∈ g.greedyMatchers, m.kind = t.kind ∧ ∃ terminator interior,
      m.terminator = some terminator ∧ m.Unescaped interior ∧
      t.value.toList = m.startsWith.toList ++ interior ++ terminator.toList
  | .halted => ∃ m ∈ g.greedyMatchers, m.terminator ≠ none ∧ g.labels.halted m.kind = t.kind ∧
      ∃ interior,
        (t.value.toList = m.startsWith.toList ++ interior ∧ t.stop = input.utf8ByteSize) ∨
        ∃ marker, m.haltMarker = some marker ∧ m.Unescaped interior ∧
          t.value.toList = m.startsWith.toList ++ interior ++ marker.toList
  | .category => True

end Grammar

/-- Compiling the interior of a matcher leaves everything else of it. -/
theorem exists_of_mem_compileMatchers {ms : List (GreedyMatcher Grammar)}
    {m : GreedyMatcher Compilation} (h : m ∈ compileMatchers ms) :
    ∃ x ∈ ms, m.kind = x.kind ∧ m.startsWith = x.startsWith ∧ m.terminator = x.terminator ∧
      m.haltMarker = x.haltMarker ∧ m.escapeChars = x.escapeChars ∧
      m.subGrammar = x.subGrammar.map Grammar.compile := by
  rw [compileMatchers_eq] at h
  obtain ⟨x, hx, rfl⟩ := List.mem_map.1 h
  refine ⟨x, hx, ?_, ?_, ?_, ?_, ?_, subGrammar_compileMatcher x⟩ <;> cases x <;> rfl

/-- Compiling the interiors leaves matchers without interiors. -/
theorem flat_compileMatchers {ms : List (GreedyMatcher Grammar)}
    (hflat : ∀ m ∈ ms, m.subGrammar = none) : ∀ m ∈ compileMatchers ms, m.subGrammar = none := by
  intro m hm
  obtain ⟨x, hx, -, -, -, -, -, hsub⟩ := exists_of_mem_compileMatchers hm
  rw [hsub, hflat x hx]
  rfl

theorem Lexicon.Words.of_compileMatchers {lexicon : Lexicon} {ms : List (GreedyMatcher Grammar)}
    {label : Label} {t : String} (h : lexicon.Words (compileMatchers ms) label t) :
    lexicon.Words ms label t := by
  cases h with
  | keyword hd hl => exact .keyword hd hl
  | opener hm ht =>
    obtain ⟨x, hx, hkind, hopener, hterminator, -⟩ := exists_of_mem_compileMatchers hm
    rw [hkind, hopener]
    exact .opener hx (hterminator ▸ ht)

/-- A token of lexemes is one of a lexeme among them. -/
theorem exists_of_mem_listing {position : Nat} {ls : List Lexeme} {t : Token}
    (h : t ∈ listing position ls) : ∃ front l back, ls = front ++ l :: back ∧
      t ∈ l.tokens (position + byteLength (spelled front)) := by
  induction ls generalizing position with
  | nil => cases h
  | cons l ls ih =>
    rw [listing_cons, List.mem_append] at h
    rcases h with h | h
    · exact ⟨[], l, ls, rfl, h⟩
    · obtain ⟨front, l', back, rfl, ht⟩ := ih h
      refine ⟨l :: front, l', back, rfl, ?_⟩
      rwa [spelled_cons, Text.byteLength_append, ← Nat.add_assoc]

theorem mem_tokenAt {position : Nat} {text : List Char} {label : Option Label} {t : Token}
    (h : t ∈ tokenAt position text label) :
    label = some t.kind ∧ t.value.toList = text ∧ t.position = position := by
  cases label with
  | none => cases h
  | some kind =>
    rw [tokenAt] at h
    split at h
    · cases h
    · obtain rfl := List.mem_singleton.1 h
      exact ⟨rfl, String.toList_ofList, rfl⟩

theorem Lexicon.Words.mem_labelsOf {g : Grammar} {label : Label} {t : String}
    (h : g.toLexicon.Words g.greedyMatchers label t) : label ∈ g.labelsOf .keyword := by
  cases h with
  | keyword hd hl => exact List.mem_append_left _ (List.mem_map.2 ⟨_, hd, rfl⟩)
  | @opener m hm ht =>
    exact List.mem_append_right _ (List.mem_map.2 ⟨m, List.mem_filter.2 ⟨hm, by simp [ht]⟩, rfl⟩)

theorem Lexicon.Delimits.mem_labelsOf {g : Grammar} {label : Option Label} {kind : Label}
    {t : String} (h : g.toLexicon.Delimits label t) (hkind : label.or g.unnamedLabel = some kind) :
    kind ∈ g.labelsOf .delimiter := by
  obtain ⟨d, hd, rfl, -⟩ := h
  exact List.mem_filterMap.2 ⟨d, hd, hkind⟩

theorem Lexicon.Punctuates.mem_labelsOf {g : Grammar} {label : Label} {t : String}
    (h : g.toLexicon.Punctuates label t) : label ∈ g.labelsOf .punctuation := by
  obtain ⟨d, hd, hlabel, -⟩ := h
  exact List.mem_map.2 ⟨d, hd, hlabel⟩

/-- The label of a token belongs to a group, and tells the truth. -/
theorem Lexeme.Truthful.exists_group {g : Grammar} {ended : Prop} {l : Lexeme}
    (h : l.Truthful g.toLexicon (compileMatchers g.greedyMatchers) ended) {input : String}
    {position : Nat} (hended : ended → position + byteLength l.text = input.utf8ByteSize)
    {t : Token} (ht : t ∈ l.tokens position) :
    ∃ group, t.kind ∈ g.labelsOf group ∧ g.TellsTruth input t group := by
  cases h with
  | silent => cases ht
  | category hl =>
    rw [Lexeme.tokens] at ht
    obtain ⟨hkind, -, -⟩ := mem_tokenAt ht
    cases hkind
    exact ⟨.category, hl, trivial⟩
  | word hword =>
    rw [Lexeme.tokens] at ht
    obtain ⟨hkind, hvalue, -⟩ := mem_tokenAt ht
    cases hkind
    obtain rfl := String.toList_inj.1 hvalue
    exact ⟨.keyword, hword.of_compileMatchers.mem_labelsOf, hword.of_compileMatchers⟩
  | @delimiter label literal hdelimits =>
    rw [Lexeme.tokens] at ht
    obtain ⟨hkind, hvalue, -⟩ := mem_tokenAt ht
    obtain rfl := String.toList_inj.1 hvalue
    exact ⟨.delimiter, hdelimits.mem_labelsOf hkind, label, hkind, hdelimits⟩
  | punctuation hmark =>
    rw [Lexeme.tokens] at ht
    obtain ⟨hkind, hvalue, -⟩ := mem_tokenAt ht
    cases hkind
    obtain rfl := String.toList_inj.1 hvalue
    exact ⟨.punctuation, hmark.mem_labelsOf, hmark⟩
  | run hm hterminator hlabel hi =>
    rw [Lexeme.tokens] at ht
    obtain ⟨hkind, hvalue, -⟩ := mem_tokenAt ht
    obtain ⟨x, hx, hxkind, hopener, hxterminator, -, hescape, -⟩ :=
      exists_of_mem_compileMatchers hm
    have hxlabel : x.kind = t.kind := by rw [← hxkind, ← hlabel, Option.some.inj hkind]
    rw [hxterminator] at hterminator
    refine ⟨.run, List.mem_map.2 ⟨x, List.mem_filter.2 ⟨hx, by simp [hterminator]⟩, hxlabel⟩,
      x, hx, hxlabel, _, _, hterminator, ?_, hopener ▸ hvalue⟩
    rwa [GreedyMatcher.Unescaped, ← hescape]
  | halted hm hterminated hmarker hlabel hi =>
    rw [Lexeme.tokens] at ht
    obtain ⟨hkind, hvalue, -⟩ := mem_tokenAt ht
    obtain ⟨x, hx, hxkind, hopener, hxterminator, hxmarker, hescape, -⟩ :=
      exists_of_mem_compileMatchers hm
    have hxlabel : g.labels.halted x.kind = t.kind := by
      rw [← hxkind, ← hlabel, Option.some.inj hkind]
    rw [hxterminator] at hterminated
    refine ⟨.halted, List.mem_map.2 ⟨x, List.mem_filter.2
      ⟨hx, Option.isSome_iff_ne_none.2 hterminated⟩, hxlabel⟩,
      x, hx, hterminated, hxlabel, _, .inr ⟨_, hxmarker ▸ hmarker, ?_, hopener ▸ hvalue⟩⟩
    rwa [GreedyMatcher.Unescaped, ← hescape]
  | cut hm hterminated hlabel hend =>
    rw [Lexeme.tokens] at ht
    obtain ⟨hkind, hvalue, hposition⟩ := mem_tokenAt ht
    obtain ⟨x, hx, hxkind, hopener, hxterminator, -⟩ := exists_of_mem_compileMatchers hm
    have hxlabel : g.labels.halted x.kind = t.kind := by
      rw [← hxkind, ← hlabel, Option.some.inj hkind]
    rw [hxterminator] at hterminated
    refine ⟨.halted, List.mem_map.2 ⟨x, List.mem_filter.2
      ⟨hx, Option.isSome_iff_ne_none.2 hterminated⟩, hxlabel⟩,
      x, hx, hterminated, hxlabel, _, .inl ⟨hopener ▸ hvalue, ?_⟩⟩
    rw [Token.stop, hposition, hvalue]
    exact hended hend

/-- Tokens are what their labels say: a keyword, a delimiter and a punctuation literal are
registered under the label, and a run begins and ends as a matcher of the type says. -/
theorem Grammar.naming {g : Grammar} {a : Automaton} (h : g.compile.result = .ok a)
    (hflat : ∀ m ∈ g.greedyMatchers, m.subGrammar = none) (hlone : g.toLexicon.LonePoint)
    (hlabels : ∀ group other label,
      label ∈ g.labelsOf group → label ∈ g.labelsOf other → group = other) (input : String) :
    ∃ tokens, a.tokenize input = .ok tokens ∧ ∀ t ∈ tokens, ∀ group,
      t.kind ∈ g.labelsOf group → g.TellsTruth input t group := by
  obtain ⟨hunnamed, place, hchart, htitled⟩ := titled_compile h
  have hlawful : Lawful True a := g.lawful_compile
    (fun _ => .mk hlone fun m hm s hs => nomatch (hflat m hm).symm.trans hs) h
  obtain ⟨tokens, htokens⟩ := hlawful.exists_tokenize input
  refine ⟨tokens, htokens, fun t ht group hgroup => ?_⟩
  rw [hchart.tokenize_eq] at htokens
  cases hls : a.lexemes input with
  | error e => rw [hls] at htokens; cases htokens
  | ok ls =>
  rw [hls] at htokens
  cases htokens
  have hflat' (m : GreedyMatcher Compilation) (hm : m ∈ compileMatchers g.greedyMatchers) :
      m.subGrammar = none := by
    obtain ⟨x, hx, -, -, -, -, -, hsub⟩ := exists_of_mem_compileMatchers hm
    rw [hsub, hflat x hx]
    rfl
  obtain ⟨hspelled, htruths⟩ := hchart.truths_lexemes htitled hunnamed hflat' hlone hls
  obtain ⟨front, l, back, rfl, hmem⟩ := exists_of_mem_listing ht
  have hended : True ∧ spelled back ++ [] = [] →
      0 + byteLength (spelled front) + byteLength l.text = input.utf8ByteSize := by
    rintro ⟨-, hback⟩
    rw [List.append_nil] at hback
    rw [Text.utf8ByteSize_eq, ← hspelled, spelled_append, spelled_cons, hback, List.append_nil,
      Text.byteLength_append, Nat.zero_add]
  obtain ⟨other, hother, htells⟩ := htruths.split.exists_group hended hmem
  obtain rfl := hlabels _ _ _ hgroup hother
  exact htells

/-- A grammar with literals of every kind that shares beginnings between them. -/
def Grammar.assorted : Grammar where
  keywords := [.bare "let", .named "loop" (.many ["for", "lets"])]
  punctuation := [.bare "<", .named "arrow" (.one "<-")]
  delimiters := [.named "space" (.many [" ", ".", "//"])]
  greedyMatchers := [
    { kind := "comment", startsWith := "//*", endsWith := some "*/" },
    { kind := "text", startsWith := "<'", endsWith := some "'", haltsWith := some ";"
      escapesWith := some "\\" },
    { kind := "raw", startsWith := "r" }]

theorem Grammar.naming_assorted : ∃ a, assorted.compile.result = .ok a ∧
    ∃ tokens, a.tokenize "lets<-a.//*x*/<'\\';<'y" = .ok tokens ∧ ∀ t ∈ tokens, ∀ group,
      t.kind ∈ assorted.labelsOf group →
        assorted.TellsTruth "lets<-a.//*x*/<'\\';<'y" t group := by
  obtain ⟨a, -, -, ha, -⟩ := assorted.exists_run [] (by decide +kernel)
  refine ⟨a, ha, naming ha (fun m hm => ?_) (by decide) ?_ _⟩
  · simp only [assorted, List.mem_cons, List.not_mem_nil, or_false] at hm
    rcases hm with rfl | rfl | rfl <;> rfl
  · have hlabels : ∀ group other, group ≠ other →
        ∀ label ∈ assorted.labelsOf group, label ∉ assorted.labelsOf other := by
      rintro (_ | _ | _ | _ | _ | _) (_ | _ | _ | _ | _ | _) <;> decide
    exact fun group other label hgroup hother =>
      Decidable.byContradiction fun hne => hlabels group other hne label hgroup hother

end TrieLexer
