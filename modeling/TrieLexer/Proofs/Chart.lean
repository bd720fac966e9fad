import TrieLexer.Proofs.Locus

/-!
# Charted automata

A chart gives every node of an automaton its place. In a charted automaton each edge leads down by
one symbol, and what a node does fits its place: text goes on as unknown text, an identifier, a
number or a greedy run only where it can be one, an action that cuts a terminator off stands at
the end of a path that spells the terminator, and a run is only left by its end. The place where a
symbol leads is then known from the place that it is read at.

## Main definitions

* `Fallback.Fits`, `Action.Fits`, `Close.Ends` — what a node may do at a place.
* `GreedyMatcher.Nests` — the nested run of a matcher.
* `Lexicon.LonePoint` — no mark goes on after a point at its beginning.
* `Charted` — a chart of an automaton.
* `Locus.Leads` — from which place to which a symbol leads.

## Main results

* `Charted.leads` — the walk goes from place to place.
* `Charted.release` — only the end of a path from the root releases.
-/

namespace TrieLexer

open Text (byteLength)

/-- A text at this place may turn into open-ended text of another kind. -/
def Locus.IsFree (p : Locus) : Prop := ¬p.origin.IsBody ∧ p ≠ ⟨.unknown, []⟩

/-- Where symbols without a child may lead at a place. -/
inductive Fallback.Fits (place : NodeId → Locus) (p : Locus) : Fallback → Prop
  | stay : Fits place p .stay
  | unknown (hp : p.IsFree) : Fits place p (.reroute .unknown)
  | identifier (hp : p.IsFree) :
      Fits place p (.classify .identifierContinue .identifier .unknown)
  | digit (hp : p = ⟨.number, []⟩) : Fits place p (.classify .digit .number .unknown)
  | decimal (hp : p = ⟨.float, []⟩) : Fits place p (.classify .digit .float .unknown)
  | enter {b : NodeId} {m : GreedyMatcher Compilation} {nested : Option RunId}
      {path : List Symbol} (hb : place b = ⟨.body b m nested, []⟩)
      (hp : p = ⟨.root, spelling m.startsWith.toList ++ path⟩) : Fits place p (.reroute b)
  | back {b : NodeId} {m : GreedyMatcher Compilation} {nested : Option RunId}
      {path : List Symbol} (hb : place b = ⟨.body b m nested, []⟩)
      (hp : p = ⟨.body b m nested, path⟩) (hpath : path ≠ []) : Fits place p (.reroute b)
  | release (hp : p.origin = .root) (hpath : p.path ≠ []) (label : Label) :
      Fits place p (.release label)
  | dispatch (hp : p = ⟨.root, []⟩) : Fits place p .dispatch

/-- The action ends a run of a matcher at one of its ends. -/
structure Close.Ends (labels : Labels) (b : NodeId) (m : GreedyMatcher Compilation)
    (nested : Option RunId) (terminator : String) (c : Close) : Prop where
  body : c.body = b
  nested : c.nested = nested
  openerLength : c.openerLength = byteLength m.startsWith.toList
  terminatorLength : c.terminatorLength = byteLength terminator.toList
  way : m.terminator = some terminator ∧ c.label = m.kind ∧ c.halted = false ∧
      m.escape = .ok c.escape ∨
    terminator = "" ∧ c.label = labels.halted m.kind ∧ c.halted = true ∧ c.escape = none ∨
    m.haltMarker = some terminator ∧ c.label = labels.halted m.kind ∧ c.halted = true ∧
      m.escape = .ok c.escape

/-- What landing may do at a place. -/
inductive Action.Fits (lexicon : Lexicon) (p : Locus) : Action → Prop
  | none : Fits lexicon p .none
  | literal (hp : p.origin = .root) (hpath : p.path ≠ []) (label : Option Label) :
      Fits lexicon p (.literal label)
  | boundary {q : Locus} {t : String} (ht : t ∈ lexicon.terminators) (hq : ¬q.origin.IsBody)
      (hp : p = q.walk (spelling t.toList)) (label : Label) :
      Fits lexicon p (.boundary label (byteLength t.toList))
  | close {b : NodeId} {m : GreedyMatcher Compilation} {nested : Option RunId} {t : String}
      {c : Close} (hp : p = ⟨.body b m nested, spelling t.toList⟩)
      (hc : c.Ends lexicon.labels b m nested t) : Fits lexicon p (.close c)

/-- The nested run of a matcher: there is one if the interior has a grammar, and then it carries
out that grammar. -/
def GreedyMatcher.Nests (m : GreedyMatcher Compilation) (runs : List (NestedRun Automaton)) :
    Option RunId → Prop
  | none => m.subGrammar = none
  | some id => ∃ (c : Compilation) (automaton : Automaton) (terminator : String),
      m.subGrammar = some c ∧ c.result = .ok automaton ∧ m.terminator = some terminator ∧
      runs[id]? = some ⟨automaton, byteLength m.startsWith.toList, Lexicon.holdOf m terminator⟩

/-- No delimiter and no punctuation literal goes on after a point at its beginning. -/
def Lexicon.LonePoint (lexicon : Lexicon) : Prop :=
  ∀ t ∈ lexicon.terminators, t.toList.head? = some '.' → t = "."

instance (lexicon : Lexicon) : Decidable lexicon.LonePoint :=
  inferInstanceAs (Decidable (∀ t ∈ lexicon.terminators, t.toList.head? = some '.' → t = "."))

/-- The action of a node at which a delimiter or a punctuation literal may end. -/
def Action.EndsMark (action : Action) : Prop :=
  action = .none ∨ ∃ label, action = .literal label

/-- A chart of an automaton. -/
structure Charted (lexicon : Lexicon) (matchers : List (GreedyMatcher Compilation))
    (a : Automaton) (place : NodeId → Locus) : Prop where
  origin {o : Origin} (ho : ¬o.IsBody) : place o.node = ⟨o, []⟩
  child {n m : NodeId} {s : Symbol} (h : a.trie.child? n s = some m) :
    place m = (place n).down s ∨ place n = ⟨.root, []⟩ ∧ s = .char '.' ∧ place m = ⟨.float, []⟩
  body {n b : NodeId} {m : GreedyMatcher Compilation} {nested : Option RunId}
    {path : List Symbol} (h : place n = ⟨.body b m nested, path⟩) :
    place b = ⟨.body b m nested, []⟩ ∧ (a.behaviour b).run = nested ∧ m ∈ matchers ∧
      m.Nests a.runs nested
  run {n : NodeId} {id : RunId} (h : (a.behaviour n).run = some id) :
    ∃ m, place n = ⟨.body n m (some id), []⟩
  runs {run : NestedRun Automaton} (h : run ∈ a.runs) :
    ∃ m ∈ matchers, ∃ c, m.subGrammar = some c ∧ c.result = .ok run.automaton
  fallback (n : NodeId) : (a.behaviour n).fallback.Fits place (place n)
  action (n : NodeId) : (a.behaviour n).action.Fits lexicon (place n)
  float {n : NodeId} (h : place n = ⟨.float, []⟩) : (a.behaviour n).action = .none
  mark {t : String} (ht : t ∈ lexicon.terminators) (hne : t ≠ "")
    (hpoint : t.toList.head? = some '.' → t = ".") :
    ∃ n, a.trie.follow? .root (t.toList.map .char) = some n ∧ (a.behaviour n).action.EndsMark
  dispatch : (a.behaviour .root).fallback = .dispatch
  settled {n : NodeId} (hf : (a.behaviour n).fallback = .stay)
    (ha : (a.behaviour n).action = .none) : (place n).IsRest

/-- A symbol leads from one place to another; it may lead back to the same place where `stays`
holds. -/
inductive Locus.Leads (stays : Prop) (p : Locus) (s : Symbol) : Locus → Prop
  | down : Leads stays p s (p.down s)
  | point (hp : p = ⟨.root, []⟩) (hs : s = .char '.') : Leads stays p s ⟨.float, []⟩
  | stay (h : stays) : Leads stays p s p
  | category {o : Origin} (hp : ¬p.origin.IsBody)
      (ho : o = .unknown ∨ o = .identifier ∨ o = .number) : Leads stays p s ⟨o, []⟩
  | decimal (hp : p = ⟨.float, []⟩) : Leads stays p s ⟨.float, []⟩
  | unknown (hp : ¬p.origin.IsBody) : Leads stays p s ⟨.unknown, [s]⟩
  | enter {b : NodeId} {m : GreedyMatcher Compilation} {nested : Option RunId}
      {path rest : List Symbol} (hp : p = ⟨.root, spelling m.startsWith.toList ++ path⟩)
      (hrest : rest = [] ∨ rest = [s]) : Leads stays p s ⟨.body b m nested, rest⟩
  | back {b : NodeId} {m : GreedyMatcher Compilation} {nested : Option RunId}
      {path rest : List Symbol} (hp : p = ⟨.body b m nested, path⟩)
      (hrest : rest = [] ∨ rest = [s]) : Leads stays p s ⟨.body b m nested, rest⟩

theorem Origin.not_isBody_of_mem {o : Origin}
    (h : o = .root ∨ o = .unknown ∨ o = .identifier ∨ o = .number ∨ o = .float) : ¬o.IsBody := by
  rintro ⟨n, m, nested, rfl⟩
  simp at h

/-- A symbol takes its bytes: what is least pending grows by them at most. -/
theorem Locus.Leads.least_le {stays : Prop} {p q : Locus} {s : Symbol} (h : p.Leads stays s q)
    {k : Nat} (hk : p.least ≤ k) : q.least ≤ k + byteLength s.text := by
  cases h with
  | down => rw [least_down]; omega
  | point hp hs => subst hp hs; exact Nat.le_add_left ..
  | stay h => exact Nat.le_add_right_of_le hk
  | category hp ho => rcases ho with rfl | rfl | rfl <;> exact Nat.zero_le _
  | decimal hp => subst hp; exact Nat.le_add_right_of_le hk
  | unknown hp => simp [least, Origin.least]
  | enter hp hrest =>
    subst hp
    simp only [least, pathText_append, pathText_spelling, Text.byteLength_append, Origin.least]
      at hk ⊢
    rcases hrest with rfl | rfl <;> simp <;> omega
  | back hp hrest =>
    subst hp
    simp only [least, Origin.least] at hk ⊢
    rcases hrest with rfl | rfl <;> simp <;> omega

/-- A run is only left by its end. -/
theorem Locus.Leads.origin_eq {stays : Prop} {p q : Locus} {s : Symbol} (h : p.Leads stays s q)
    (hp : p.origin.IsBody) : q.origin = p.origin := by
  cases h with
  | down =>
    obtain ⟨n, m, nested, hn⟩ := hp
    rw [down_of_origin_ne (by simp [hn])]
  | point h => subst h; exact absurd hp (Origin.not_isBody_of_mem (by simp))
  | stay h => rfl
  | category h => exact absurd hp h
  | decimal h => subst h; exact absurd hp (Origin.not_isBody_of_mem (by simp))
  | unknown h => exact absurd hp h
  | enter h => subst h; exact absurd hp (Origin.not_isBody_of_mem (by simp))
  | back h => subst h; rfl

theorem Locus.IsRest.origin_ne {p : Locus} (h : p.IsRest) :
    p.origin ≠ .root ∧ p.origin ≠ .number ∧ p.origin ≠ .float := by
  rcases h.2 with h | ⟨n, m, nested, h⟩ <;> simp [h]

theorem Locus.isRest_unknown : IsRest ⟨.unknown, []⟩ := ⟨rfl, .inl rfl⟩

theorem Locus.isRest_body (b : NodeId) (m : GreedyMatcher Compilation) (nested : Option RunId) :
    IsRest ⟨.body b m nested, []⟩ := ⟨rfl, .inr ⟨b, m, nested, rfl⟩⟩

theorem Locus.IsFree.not_isRest {p : Locus} (h : p.IsFree) : ¬p.IsRest := by
  rintro ⟨hpath, ho | ho⟩
  · obtain ⟨o, path⟩ := p
    cases ho
    cases hpath
    exact h.2 rfl
  · exact h.1 ho

theorem Locus.not_isRest_down (p : Locus) (s : Symbol) : ¬(p.down s).IsRest := by
  rintro ⟨hpath, ho⟩
  obtain hd | ⟨-, -, hd⟩ := p.down_eq_or s
  · rw [hd] at hpath
    simp at hpath
  · rw [hd] at ho
    rcases ho with ho | ⟨_, _, _, ⟨⟩⟩
    cases ho

/-- Unknown text and runs go on as what they are. -/
theorem Fallback.Fits.eq_stay {place : NodeId → Locus} {p : Locus} {f : Fallback}
    (h : f.Fits place p) (hp : p.IsRest) : f = .stay := by
  have ho := hp.origin_ne
  cases h with
  | stay => rfl
  | unknown hfree => exact absurd hp hfree.not_isRest
  | identifier hfree => exact absurd hp hfree.not_isRest
  | digit h => subst h; exact absurd rfl ho.2.1
  | decimal h => subst h; exact absurd rfl ho.2.2
  | enter hb h => subst h; exact absurd rfl ho.1
  | back hb h hpath => subst h; exact absurd hp.1 hpath
  | release h => exact absurd h ho.1
  | dispatch h => subst h; exact absurd rfl ho.1

namespace Charted

variable {lexicon : Lexicon} {matchers : List (GreedyMatcher Compilation)} {a : Automaton}
  {place : NodeId → Locus}

/-- The arena holds the root. -/
theorem size_pos (h : Charted lexicon matchers a place) : 0 < a.trie.size := by
  refine Nat.pos_of_ne_zero fun hsize => ?_
  have hd := h.dispatch
  rw [StateGraph.behaviour, Trie.content, Array.getElem?_eq_none (by exact Nat.le_of_eq hsize)]
    at hd
  cases hd

theorem place_unknown (h : Charted lexicon matchers a place) : place .unknown = ⟨.unknown, []⟩ :=
  h.origin (o := .unknown) (Origin.not_isBody_of_mem (by simp))

theorem place_root (h : Charted lexicon matchers a place) : place .root = ⟨.root, []⟩ :=
  h.origin (o := .root) (Origin.not_isBody_of_mem (by simp))

theorem place_dispatch (h : Charted lexicon matchers a place) (s : Symbol) :
    ∃ o, (o = .unknown ∨ o = .identifier ∨ o = .number) ∧ place (a.dispatch s) = ⟨o, []⟩ := by
  have hbody {o : Origin} (ho : o = .unknown ∨ o = .identifier ∨ o = .number) : ¬o.IsBody :=
    Origin.not_isBody_of_mem (by rcases ho with rfl | rfl | rfl <;> simp)
  cases s with
  | endOfInput => exact ⟨.unknown, .inl rfl, h.place_unknown⟩
  | char c =>
    rw [StateGraph.dispatch]
    split
    · exact ⟨.identifier, .inr (.inl rfl), h.origin (hbody (.inr (.inl rfl)))⟩
    · split
      · exact ⟨.number, .inr (.inr rfl), h.origin (hbody (.inr (.inr rfl)))⟩
      · exact ⟨.unknown, .inl rfl, h.place_unknown⟩

/-- A node that goes on as what it is leads to its child or to itself. -/
theorem resolveWithin_of_isRest (h : Charted lexicon matchers a place) {n : NodeId}
    (hn : (place n).IsRest) (hops : Nat) (s : Symbol) :
    a.resolveWithin hops n s = .node n ∨
      ∃ m, a.resolveWithin hops n s = .node m ∧ place m = (place n).down s := by
  rw [StateGraph.resolveWithin]
  cases hc : a.trie.child? n s with
  | some m =>
    refine .inr ⟨m, rfl, (h.child hc).resolve_right fun hroot => ?_⟩
    rw [hroot.1] at hn
    exact hn.origin_ne.1 rfl
  | none =>
    rw [(h.fallback n).eq_stay hn]
    exact .inl rfl

/-- The walk goes from place to place. -/
theorem leads (h : Charted lexicon matchers a place) {n m : NodeId} {s : Symbol}
    (hr : a.resolve n s = .node m) :
    (place n).Leads ((a.behaviour n).fallback = .stay) s (place m) := by
  obtain ⟨hops, hsize⟩ := Nat.exists_eq_succ_of_ne_zero (Nat.ne_of_gt h.size_pos)
  rw [StateGraph.resolve, StateGraph.resolveWithin] at hr
  cases hc : a.trie.child? n s with
  | some child =>
    rw [hc] at hr
    cases hr
    rcases h.child hc with hd | ⟨hn, hs, hd⟩
    · exact hd ▸ .down
    · exact hd ▸ .point hn hs
  | none =>
    rw [hc] at hr
    have hfit := h.fallback n
    generalize (a.behaviour n).fallback = f at hr hfit ⊢
    cases hfit with
    | stay =>
      cases hr
      exact .stay rfl
    | unknown hp =>
      rw [hsize] at hr
      have hrest := h.place_unknown ▸ Locus.isRest_unknown
      rcases h.resolveWithin_of_isRest hrest hops s with hu | ⟨k, hu, hk⟩
      · cases hu.symm.trans hr
        exact h.place_unknown ▸ .category hp.1 (.inl rfl)
      · cases hu.symm.trans hr
        rw [hk, h.place_unknown]
        exact .unknown hp.1
    | identifier hp =>
      dsimp only at hr
      split at hr
      · cases hr
        exact h.origin (o := .identifier) (Origin.not_isBody_of_mem (by simp)) ▸
          .category hp.1 (.inr (.inl rfl))
      · cases hr
        exact h.place_unknown ▸ .category hp.1 (.inl rfl)
    | digit hp =>
      have hbody : ¬(place n).origin.IsBody := hp ▸ Origin.not_isBody_of_mem (by simp)
      dsimp only at hr
      split at hr
      · cases hr
        exact h.origin (o := .number) (Origin.not_isBody_of_mem (by simp)) ▸
          .category hbody (.inr (.inr rfl))
      · cases hr
        exact h.place_unknown ▸ .category hbody (.inl rfl)
    | decimal hp =>
      dsimp only at hr
      split at hr
      · cases hr
        exact h.origin (o := .float) (Origin.not_isBody_of_mem (by simp)) ▸ .decimal hp
      · cases hr
        exact h.place_unknown ▸
          .category (hp ▸ Origin.not_isBody_of_mem (by simp)) (.inl rfl)
    | enter hb hp =>
      rw [hsize] at hr
      rcases h.resolveWithin_of_isRest (hb ▸ Locus.isRest_body ..) hops s with hu | ⟨k, hu, hk⟩
      · cases hu.symm.trans hr
        exact hb ▸ .enter hp (.inl rfl)
      · cases hu.symm.trans hr
        rw [hk, hb, Locus.down_of_origin_ne (by simp)]
        exact .enter hp (.inr rfl)
    | back hb hp hpath =>
      rw [hsize] at hr
      rcases h.resolveWithin_of_isRest (hb ▸ Locus.isRest_body ..) hops s with hu | ⟨k, hu, hk⟩
      · cases hu.symm.trans hr
        exact hb ▸ .back hp (.inl rfl)
      · cases hu.symm.trans hr
        rw [hk, hb, Locus.down_of_origin_ne (by simp)]
        exact .back hp (.inr rfl)
    | release hp hpath label => cases hr
    | dispatch hp =>
      have hbody : ¬(place n).origin.IsBody := hp ▸ Origin.not_isBody_of_mem (by simp)
      cases hr
      obtain ⟨o, ho, hd⟩ := h.place_dispatch s
      exact hd ▸ .category hbody ho

/-- Only the end of a path from the root releases. -/
theorem release (h : Charted lexicon matchers a place) {n : NodeId} {s : Symbol} {label : Label}
    (hr : a.resolve n s = .release label) :
    (place n).origin = .root ∧ (a.behaviour n).fallback = .release label := by
  obtain ⟨hops, hsize⟩ := Nat.exists_eq_succ_of_ne_zero (Nat.ne_of_gt h.size_pos)
  rw [StateGraph.resolve, StateGraph.resolveWithin] at hr
  cases hc : a.trie.child? n s with
  | some child => rw [hc] at hr; cases hr
  | none =>
    rw [hc] at hr
    have hfit := h.fallback n
    generalize (a.behaviour n).fallback = f at hr hfit ⊢
    cases hfit with
    | release hp hpath label =>
      cases hr
      exact ⟨hp, rfl⟩
    | unknown hp =>
      rw [hsize] at hr
      have hrest := h.place_unknown ▸ Locus.isRest_unknown
      rcases h.resolveWithin_of_isRest hrest hops s with hu | ⟨k, hu, -⟩ <;> cases hu.symm.trans hr
    | enter hb hp =>
      rw [hsize] at hr
      rcases h.resolveWithin_of_isRest (hb ▸ Locus.isRest_body ..) hops s with hu | ⟨k, hu, -⟩ <;>
        cases hu.symm.trans hr
    | back hb hp hpath =>
      rw [hsize] at hr
      rcases h.resolveWithin_of_isRest (hb ▸ Locus.isRest_body ..) hops s with hu | ⟨k, hu, -⟩ <;>
        cases hu.symm.trans hr
    | _ => cases hr

/-- The root gives no text out. -/
theorem resolve_root (h : Charted lexicon matchers a place) (s : Symbol) :
    ∃ n, a.resolve .root s = .node n := by
  cases hr : a.resolve .root s with
  | node n => exact ⟨n, rfl⟩
  | release label => exact absurd ((h.release hr).2.symm.trans h.dispatch) nofun

end Charted

end TrieLexer
