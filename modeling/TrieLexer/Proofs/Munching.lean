import TrieLexer.Proofs.Marks
import TrieLexer.Proofs.Naming
import TrieLexer.Proofs.Plain

/-!
# Punctuation is matched maximally

Where nothing else begins as punctuation does and every beginning of a literal is a literal, the
root leads along punctuation only, and every node on the way is the end of a literal. So pending
text that begins as punctuation does is a literal, and the walk stands where the root leads with it.
It goes out when the next symbol makes no longer literal, and then no literal goes on with that
symbol.

## Main definitions

* `Lexicon.IsMark`, `Lexicon.markLabel?` — a punctuation literal, and the label of its last
  definition.
* `Grammar.MarksApart` — punctuation stands apart, and its beginnings are punctuation.
* `Cursor.OnMark` — pending text that begins as punctuation does is punctuation.
* `Lexeme.Munched` — a lexeme that begins as punctuation does is as long as it can be.

## Main results

* `Reading.Munches.advance` — a symbol only gives out such lexemes.
* `Grammar.munching` — every token that begins as punctuation does is the longest literal there.
-/

namespace TrieLexer

open Text (byteLength)

/-! ### Punctuation and its labels -/

namespace Lexicon

variable {lexicon : Lexicon} {x : List Char} {t : String} {c : Char}

/-- A punctuation literal. -/
def IsMark (lexicon : Lexicon) (x : List Char) : Prop :=
  ∃ t ∈ literalsOf lexicon.punctuation, t.toList = x

/-- The label of the last definition that lists a punctuation literal. -/
def markLabel? (lexicon : Lexicon) (t : String) : Option Label :=
  (lexicon.punctuation.filter (t ∈ ·.literals)).getLast?.map fun definition =>
    definition.label.getD lexicon.labels.punctuation

theorem isMark_iff : lexicon.IsMark t.toList ↔ t ∈ literalsOf lexicon.punctuation := by
  constructor
  · rintro ⟨u, hu, heq⟩
    rwa [← String.toList_inj.1 heq]
  · exact fun ht => ⟨t, ht, rfl⟩

theorem IsMark.heads (h : lexicon.IsMark x) (hc : x.head? = some c) : lexicon.Heads (.char c) := by
  obtain ⟨t, ht, rfl⟩ := h
  exact ⟨t, ht, c, hc, rfl⟩

theorem spelling_inj {u : String} : spelling t.toList = spelling u.toList ↔ t = u := by
  refine ⟨fun h => ?_, fun h => h ▸ rfl⟩
  have htext := congrArg pathText h
  rwa [pathText_spelling, pathText_spelling, String.toList_inj] at htext

/-- The last label of a literal is that of the last definition that lists it. -/
theorem labelAt?_markLabels (lexicon : Lexicon) (t : String) :
    labelAt? lexicon.markLabels (spelling t.toList) = lexicon.markLabel? t := by
  rw [labelAt?, markLabels, labelled, markLabel?]
  simp only [spelling_inj]
  induction lexicon.punctuation using List.reverseRecOn with
  | nil => rfl
  | append_singleton definitions definition ih =>
    -- The pairs of a definition have its label, and there are some if it lists the literal.
    have hpairs (label : Label) : ((definition.literals.map fun u => (u, label)).filter
        fun p => decide (p.1 = t)).getLast?.map Prod.snd =
          if t ∈ definition.literals then some label else none := by
      cases hlast : ((definition.literals.map fun u => (u, label)).filter
          fun p => decide (p.1 = t)).getLast? with
      | none =>
        rw [if_neg]
        · rfl
        · intro hmem
          exact List.filter_eq_nil_iff.1 (List.getLast?_eq_none_iff.1 hlast) (t, label)
            (List.mem_map_of_mem hmem) (decide_eq_true rfl)
      | some p =>
        obtain ⟨hp, heq⟩ := List.mem_filter.1 (List.mem_of_getLast? hlast)
        obtain ⟨u, hu, rfl⟩ := List.mem_map.1 hp
        rw [if_pos (of_decide_eq_true heq ▸ hu)]
        rfl
    rw [List.flatMap_append, List.filter_append, List.filter_append, List.flatMap_singleton,
      List.getLast?_append, List.getLast?_append, Option.map_or, Option.map_or, hpairs, ih]
    by_cases hmem : t ∈ definition.literals <;> simp [hmem]

end Lexicon

/-! ### Grammars -/

namespace Grammar

/-- Nothing else begins as punctuation does, and the beginnings of punctuation are punctuation. No
mark begins with a point. -/
structure MarksApart (g : Grammar) : Prop where
  closed : ∀ t ∈ literalsOf g.punctuation, ∀ x, x ≠ [] → x <+: t.toList → g.IsMark x
  identifier : ∀ t ∈ literalsOf g.punctuation, ∀ c ∈ t.toList.head?,
    g.identifierStart.contains c = false
  keyword : ∀ t ∈ literalsOf g.punctuation, ∀ u ∈ literalsOf g.keywords, ∀ c ∈ t.toList.head?,
    u.toList.head? ≠ some c
  opener : ∀ t ∈ literalsOf g.punctuation, ∀ m ∈ g.greedyMatchers, ∀ c ∈ t.toList.head?,
    m.startsWith.toList.head? ≠ some c
  delimiter : ∀ t ∈ literalsOf g.punctuation, ∀ u ∈ literalsOf g.delimiters, ∀ c ∈ t.toList.head?,
    u.toList.head? ≠ some c
  point : ∀ t ∈ literalsOf g.delimiters ++ literalsOf g.punctuation, t.toList.head? ≠ some '.'

theorem marksApart_iff {g : Grammar} : g.MarksApart ↔
    (∀ t ∈ literalsOf g.punctuation, ∀ x ∈ t.toList.inits,
      x ≠ [] → String.ofList x ∈ literalsOf g.punctuation) ∧
    (∀ t ∈ literalsOf g.punctuation,
      (t.toList.head?.all fun c => !g.identifierStart.contains c) = true) ∧
    (∀ t ∈ literalsOf g.punctuation, ∀ u ∈ literalsOf g.keywords,
      (t.toList.head?.all fun c => u.toList.head? != some c) = true) ∧
    (∀ t ∈ literalsOf g.punctuation, ∀ m ∈ g.greedyMatchers,
      (t.toList.head?.all fun c => m.startsWith.toList.head? != some c) = true) ∧
    (∀ t ∈ literalsOf g.punctuation, ∀ u ∈ literalsOf g.delimiters,
      (t.toList.head?.all fun c => u.toList.head? != some c) = true) ∧
    ∀ t ∈ literalsOf g.delimiters ++ literalsOf g.punctuation, t.toList.head? ≠ some '.' := by
  have hmark (x : List Char) : g.IsMark x ↔ String.ofList x ∈ literalsOf g.punctuation := by
    rw [← Lexicon.isMark_iff, String.toList_ofList]
  simp only [Option.all_eq_true, Bool.not_eq_true', bne_iff_ne, List.mem_inits, ← hmark]
  exact ⟨fun h => ⟨fun t ht x hx hne => h.closed t ht x hne hx, h.identifier, h.keyword, h.opener,
      h.delimiter, h.point⟩,
    fun ⟨h₁, h₂, h₃, h₄, h₅, h₆⟩ => ⟨fun t ht x hne hx => h₁ t ht x hx hne, h₂, h₃, h₄, h₅, h₆⟩⟩

instance (g : Grammar) : Decidable g.MarksApart := decidable_of_iff _ marksApart_iff.symm

/-- A grammar with punctuation that stands apart, and its automaton. -/
structure Munches (g : Grammar) (a : Automaton) (place : NodeId → Locus) : Prop where
  apart : g.MarksApart
  flat : ∀ m ∈ compileMatchers g.greedyMatchers, m.subGrammar = none
  chart : Charted g.toLexicon (compileMatchers g.greedyMatchers) a place
  faces {s : Symbol} (hs : g.Heads s) (q : List Symbol) :
    a.Faces .root (s :: q) (standingMark g.markLabels (s :: q))

variable {g : Grammar} {a : Automaton} {place : NodeId → Locus} {x : List Char} {n : NodeId}

theorem admits_heads {literal : String} (h : ∀ t ∈ literalsOf g.punctuation, ∀ c ∈ t.toList.head?,
    literal.toList.head? ≠ some c) : Admits g.Heads literal := by
  rintro s hs ⟨t, ht, c, hc, rfl⟩
  exact h t ht c hc (head?_spelling.1 hs)

theorem exists_munches (h : g.compile.result = .ok a)
    (hflat : ∀ m ∈ g.greedyMatchers, m.subGrammar = none) (hapart : g.MarksApart) :
    ∃ place, g.Munches a place := by
  obtain ⟨place, hchart⟩ := charted_compile h
  refine ⟨place, hapart, flat_compileMatchers hflat, hchart, fun hs q => ?_⟩
  refine Lexicon.faces_assemble (assemble_of_compile h) (fun t => (proper_compile h).punctuation)
    hapart.identifier (fun u hu => admits_heads fun t ht => hapart.keyword t ht u hu)
    (fun m hm => ?_)
    (fun u hu => admits_heads fun t ht => hapart.delimiter t ht u hu) ?_ hs q
  · obtain ⟨m', hm', -, hopener, -⟩ := exists_of_mem_compileMatchers hm
    rw [hopener]
    exact admits_heads fun t ht => hapart.opener t ht m' hm'
  · rintro ⟨t, ht, c, hc, hpoint⟩
    cases hpoint
    exact hapart.point t (List.mem_append_right _ ht) hc

namespace Munches

variable (h : g.Munches a place)

include h

theorem lonePoint : g.toLexicon.LonePoint := by
  intro t ht hpoint
  rcases Lexicon.mem_terminators.1 ht with rfl | ht
  · cases hpoint
  · exact absurd hpoint (h.apart.point t ht)

/-- The root leads along a literal to a node that releases it. -/
theorem exists_node (hx : g.IsMark x) (hne : x ≠ []) : ∃ n label,
    a.trie.follow? .root (x.map .char) = some n ∧ (a.behaviour n).fallback = .release label ∧
      (a.behaviour n).action = .none ∧ g.markLabel? (String.ofList x) = some label := by
  obtain ⟨t, ht, rfl⟩ := hx
  obtain ⟨p, hp, rfl⟩ := List.mem_map.1 (g.map_fst_markLabels ▸ ht)
  obtain ⟨label, hlabel⟩ := exists_labelAt? hp
  obtain ⟨c, cs, hcs⟩ := List.exists_cons_of_ne_nil hne
  have hspelling : spelling p.1.toList = .char c :: cs.map .char := by
    rw [hcs, spelling_cons]
  have hface := h.faces ⟨p.1, ht, c, by rw [hcs]; rfl, rfl⟩ (cs.map .char)
  rw [← hspelling, standingMark, hlabel] at hface
  obtain ⟨n, hn, hfallback, haction⟩ := hface
  rw [Lexicon.labelAt?_markLabels] at hlabel
  refine ⟨n, label, ?_, hfallback, haction, String.ofList_toList ▸ hlabel⟩
  rw [hcs, List.map_cons, ← hspelling]
  exact hn

/-- From there a symbol leads to a longer literal or nowhere. -/
theorem isMark_of_child (hx : g.IsMark x) (hne : x ≠ [])
    (hn : a.trie.follow? .root (x.map .char) = some n) {s : Symbol} {m : NodeId}
    (hc : a.trie.child? n s = some m) : ∃ c, s = .char c ∧ g.IsMark (x ++ [c]) := by
  obtain ⟨c, cs, rfl⟩ := List.exists_cons_of_ne_nil hne
  have hhead := hx.heads rfl
  have hface := h.faces hhead (cs.map .char ++ [s])
  have hm : a.trie.follow? .root (.char c :: (cs.map .char ++ [s])) = some m := by
    rw [← List.cons_append, Trie.follow?_concat]
    exact (congrArg (· >>= _) hn).trans hc
  have hthere : standingMark g.markLabels (.char c :: (cs.map .char ++ [s])) ≠ none := by
    intro hnone
    rw [hnone] at hface
    cases hm.symm.trans hface
  obtain ⟨p, hp, hfront⟩ := exists_of_standingMark_ne_none hthere
  have hmem := Lexicon.mem_markLabels hp
  have hspelling : spelling p.1.toList = p.1.toList.map .char := by
    rw [spelling, if_neg]
    intro hnil
    rw [List.isEmpty_iff.1 hnil] at hfront
    obtain ⟨more, hmore⟩ := hfront
    cases hmore
  rw [hspelling, ← List.cons_append, ← List.map_cons] at hfront
  obtain ⟨y, hy, heq⟩ := List.prefix_map_iff.1 hfront
  obtain ⟨y₁, y₂, rfl, h₁, h₂⟩ := List.map_eq_append_iff.1 heq.symm
  obtain ⟨d, rfl, rfl⟩ := List.map_eq_singleton_iff.1 h₂
  obtain rfl := (List.map_inj_right fun _ _ => Symbol.char.inj).1 h₁
  exact ⟨d, rfl, h.apart.closed p.1 hmem _ (by simp) hy⟩

end Munches

end Grammar

/-! ### Lexemes -/

/-- A lexeme that begins as punctuation does is a literal under its last label, and no literal goes
on with what comes after it. Text without a label makes no token, and says nothing. -/
inductive Lexeme.Munched (lexicon : Lexicon) (after : List Char) : Lexeme → Prop
  | silent (x : List Char) : Munched lexicon after (.plain x none)
  | other {x : List Char} (label : Label) (hx : ∀ c ∈ x.head?, ¬lexicon.Heads (.char c)) :
      Munched lexicon after (.plain x (some label))
  | run {x : List Char} (close : Close) (hx : ∀ c ∈ x.head?, ¬lexicon.Heads (.char c)) :
      Munched lexicon after (.whole x close)
  | mark {x : List Char} {label : Label} (hx : lexicon.IsMark x)
      (hlabel : lexicon.markLabel? (String.ofList x) = some label)
      (hafter : ∀ c ∈ after.head?, ¬lexicon.IsMark (x ++ [c])) :
      Munched lexicon after (.plain x (some label))

/-- Every lexeme is as long as it can be before the lexemes after it and the text after them. -/
def Lexeme.AllMunched (lexicon : Lexicon) (after : List Char) : List Lexeme → Prop
  | [] => True
  | l :: ls => l.Munched lexicon (spelled ls ++ after) ∧ AllMunched lexicon after ls

namespace Lexeme

variable {lexicon : Lexicon} {after : List Char} {l : Lexeme} {ls ms : List Lexeme}

theorem AllMunched.append (h : AllMunched lexicon (spelled ms ++ after) ls)
    (h' : AllMunched lexicon after ms) : AllMunched lexicon after (ls ++ ms) := by
  induction ls with
  | nil => exact h'
  | cons l ls ih =>
    have hl : l.Munched lexicon (spelled (ls ++ ms) ++ after) := by
      rw [spelled_append, List.append_assoc]
      exact h.1
    exact ⟨hl, ih h.2⟩

theorem AllMunched.split (h : AllMunched lexicon after (ls ++ l :: ms)) :
    l.Munched lexicon (spelled ms ++ after) := by
  induction ls with
  | nil => exact h.1
  | cons l' ls ih => exact ih h.2

theorem allMunched_of_forall (h : ∀ after, ∀ l ∈ ls, l.Munched lexicon after) :
    AllMunched lexicon after ls := by
  induction ls with
  | nil => trivial
  | cons l ls ih =>
    exact ⟨h _ l List.mem_cons_self, ih fun after m hm => h after m (List.mem_cons_of_mem _ hm)⟩

end Lexeme

/-! ### Scans -/

/-- Pending text that begins as punctuation does is punctuation, and the walk stands where the root
leads with it. -/
def Cursor.OnMark (lexicon : Lexicon) (a : Automaton) (c : Cursor) : Prop :=
  ∀ d ∈ c.pending.head?, lexicon.Heads (.char d) →
    lexicon.IsMark c.pending ∧ a.trie.follow? .root (c.pending.map .char) = some c.node

theorem Cursor.onMark_of_pending_eq_nil {lexicon : Lexicon} {a : Automaton} {c : Cursor}
    (h : c.pending = []) : c.OnMark lexicon a := by
  intro d hd
  rw [h] at hd
  cases hd

/-- Between two symbols nothing is pending at the root only. -/
structure Reading.Munches (lexicon : Lexicon) (a : Automaton) (place : NodeId → Locus)
    (r : Reading) : Prop where
  spelled : r.Spelled a place
  sound : r.Sound a place 0
  onMark : r.OnMark lexicon a
  rest : r.pending = [] → r.node = .root

namespace Grammar.Munches

variable {g : Grammar} {a : Automaton} {place : NodeId → Locus} (h : g.Munches a place)

include h

/-- The root leads to where the first symbol stands. -/
theorem onMark_of_root {s : Symbol} {n : NodeId} (hn : a.resolve .root s = .node n) :
    Cursor.OnMark g.toLexicon a ⟨n, s.text⟩ := by
  intro d hd hhead
  cases s with
  | endOfInput => cases hd
  | char c =>
    cases hd
    obtain ⟨t, ht, e, he, heq⟩ := id hhead
    cases heq
    obtain ⟨cs, hcs⟩ := List.head?_eq_some_iff.1 he
    have hmark := h.apart.closed t ht [d] (by simp) (by rw [hcs]; exact ⟨cs, rfl⟩)
    obtain ⟨m, label, hm, -⟩ := h.exists_node hmark (by simp)
    refine ⟨hmark, ?_⟩
    obtain ⟨k, hk, ⟨⟩⟩ := Option.bind_eq_some_iff.1 ((Trie.follow?_cons ..).symm.trans hm)
    cases (StateGraph.resolve_of_child hk).symm.trans hn
    exact hm

/-- The walk stays on punctuation, and what it gives out before a symbol does not go on with it. -/
theorem onMark_move {c c' : Cursor} {s : Symbol} {ls : List Lexeme} {after : List Char}
    (hc : c.OnMark g.toLexicon a) (hrest : c.pending = [] → c.node = .root)
    (hafter : s = .endOfInput → after = []) (hm : a.move c s = .ok (c', ls)) :
    c'.OnMark g.toLexicon a ∧ Lexeme.AllMunched g.toLexicon (c'.pending ++ after) ls ∧
      (s.text ≠ [] → c'.pending ≠ []) := by
  have hpending : s.text ≠ [] → c.pending ++ s.text ≠ [] := fun hs hnil =>
    hs (List.append_eq_nil_iff.1 hnil).2
  rw [StateGraph.move] at hm
  split at hm
  · next n hn =>
    cases hm
    refine ⟨?_, trivial, hpending⟩
    by_cases hnil : c.pending = []
    · rw [hnil, List.nil_append]
      rw [hrest hnil] at hn
      exact h.onMark_of_root hn
    · intro d hd hhead
      change d ∈ (c.pending ++ s.text).head? at hd
      rw [List.head?_append_of_ne_nil _ hnil] at hd
      obtain ⟨hmark, hnode⟩ := hc d hd hhead
      obtain ⟨m, label, hm, hfallback, -⟩ := h.exists_node hmark hnil
      cases hnode.symm.trans hm
      cases hchild : a.trie.child? c.node s with
      | none =>
        rw [StateGraph.resolve, StateGraph.resolveWithin, hchild, hfallback] at hn
        cases hn
      | some k =>
        cases (StateGraph.resolve_of_child hchild).symm.trans hn
        obtain ⟨e, rfl, hlonger⟩ := h.isMark_of_child hmark hnil hnode hchild
        refine ⟨hlonger, ?_⟩
        change a.trie.follow? .root ((c.pending ++ [e]).map .char) = some n
        rw [List.map_append, List.map_singleton, Trie.follow?_concat, hnode]
        exact hchild
  · next label hrelease =>
    split at hm
    · next n hn =>
      cases hm
      refine ⟨h.onMark_of_root hn, ⟨?_, trivial⟩, id⟩
      by_cases hhead : ∀ d ∈ c.pending.head?, ¬g.Heads (.char d)
      · exact .other label hhead
      · simp only [not_forall, not_not] at hhead
        obtain ⟨d, hd, hhead⟩ := hhead
        obtain ⟨hmark, hnode⟩ := hc d hd hhead
        have hne : c.pending ≠ [] := by
          rintro hnil
          rw [hnil] at hd
          cases hd
        obtain ⟨m, label', hm, hfallback, -, hlabel⟩ := h.exists_node hmark hne
        cases hnode.symm.trans hm
        have hsame := (h.chart.release hrelease).2
        cases hsame.symm.trans hfallback
        refine .mark hmark hlabel fun e he hlonger => ?_
        -- A longer literal would be a child.
        obtain ⟨k, -, hk, -⟩ := h.exists_node hlonger (by simp)
        rw [List.map_append, List.map_singleton, Trie.follow?_concat, hnode] at hk
        obtain rfl : s = .char e := by
          cases s with
          | char c => cases he; rfl
          | endOfInput =>
            rw [hafter rfl] at he
            cases he
        cases (StateGraph.resolve_of_child hk).symm.trans hrelease
    · cases hm

/-- Nothing happens on punctuation. -/
theorem action_of_heads {c : Cursor} (hc : c.OnMark g.toLexicon a) {d : Char}
    (hd : d ∈ c.pending.head?) (hhead : g.Heads (.char d)) :
    (a.behaviour c.node).action = .none := by
  obtain ⟨hmark, hnode⟩ := hc d hd hhead
  obtain ⟨n, -, hn, -, haction, -⟩ := h.exists_node hmark (by
    rintro hnil
    rw [hnil] at hd
    cases hd)
  cases hnode.symm.trans hn
  exact haction

variable {inner : InnerScan} {r r' : Reading} {ls : List Lexeme}

/-- What a node gives out does not begin as punctuation does. -/
theorem munched_settle (hspells : (place r.node).Spells r.pending) (hr : r.OnMark g.toLexicon a)
    (hs : r.settle a inner = .ok (r', ls)) :
    r'.OnMark g.toLexicon a ∧ (∀ after, ∀ l ∈ ls, l.Munched g.toLexicon after) ∧
      (r.pending ≠ [] → r'.pending = [] → r'.node = .root) := by
  have hother (hc : (a.behaviour r.node).action ≠ .none) :
      ∀ d ∈ r.pending.head?, ¬g.Heads (.char d) := fun d hd hhead =>
    hc (h.action_of_heads hr hd hhead)
  have hkeep : r.OnMark g.toLexicon a ∧
      (∀ after, ∀ l ∈ ([] : List Lexeme), l.Munched g.toLexicon after) ∧
      (r.pending ≠ [] → r.pending = [] → r.node = .root) :=
    ⟨hr, fun _ => List.forall_mem_nil _, fun hne hnil => absurd hnil hne⟩
  rw [Reading.settle] at hs
  split at hs
  · cases hs
    exact hkeep
  · cases hs
    exact hkeep
  · next label hc =>
    cases hs
    refine ⟨Cursor.onMark_of_pending_eq_nil rfl, fun after => List.forall_mem_singleton.2 ?_,
      fun _ _ => rfl⟩
    cases label.or a.unnamed with
    | none => exact .silent _
    | some label => exact .other label (hother (by rw [hc]; simp))
  · next c hc =>
    have hother := hother (by rw [hc]; simp)
    obtain ⟨b, m, nested, t, interior, hp, hends, -⟩ := h.chart.close_spells hc hspells
    have hnested : c.nested = none := hends.nested.trans (h.chart.nested_eq_none h.flat hp)
    obtain ⟨escaped, -, hs⟩ := bind_eq_ok.1 hs
    cases escaped with
    | true =>
      cases hs
      exact ⟨fun d hd hhead => absurd hhead (hother d hd), fun _ => List.forall_mem_nil _,
        fun hne hnil => absurd hnil hne⟩
    | false =>
      rw [if_neg Bool.false_ne_true, hnested] at hs
      cases hs
      exact ⟨Cursor.onMark_of_pending_eq_nil rfl,
        fun after => List.forall_mem_singleton.2 (.run c hother), fun _ _ => rfl⟩

theorem munched_act (hspells : (place r.node).Spells r.pending) (hr : r.OnMark g.toLexicon a)
    (hs : r.act a inner = .ok (r', ls)) :
    r'.OnMark g.toLexicon a ∧ (∀ after, ∀ l ∈ ls, l.Munched g.toLexicon after) ∧
      (r.pending ≠ [] → r'.pending = [] → r'.node = .root) := by
  rw [Reading.act] at hs
  split at hs
  · next label length hc =>
    have hother : ∀ d ∈ r.pending.head?, ¬g.Heads (.char d) := by
      intro d hd hhead
      cases hc.symm.trans (h.action_of_heads hr hd hhead)
    obtain ⟨⟨before, terminator⟩, hcut, hs⟩ := bind_eq_ok.1 hs
    obtain ⟨t, ht, front, hpending, hlength⟩ := h.chart.boundary_spells h.lonePoint hc hspells
    obtain ⟨n, hretake, hn, hends⟩ := h.chart.retake_terminator h.lonePoint ht
    cases hcut.symm.trans (cutBack_eq_ok.2 ⟨hpending, hlength⟩)
    obtain ⟨⟨c, released⟩, hm, hs⟩ := bind_eq_ok.1 hs
    cases hretake.symm.trans hm
    obtain ⟨⟨r₁, out⟩, hsettle, hs⟩ := bind_eq_ok.1 hs
    cases hs
    -- A terminator that begins as punctuation does is punctuation.
    have hterminator : Cursor.OnMark g.toLexicon a ⟨n, t.toList⟩ := by
      intro d hd hhead
      have hmark : g.IsMark t.toList := by
        rcases Lexicon.mem_terminators.1 ht with rfl | ht
        · cases hd
        · rcases List.mem_append.1 ht with ht | ht
          · obtain ⟨u, hu, e, he, heq⟩ := hhead
            cases heq
            exact absurd hd (h.apart.delimiter u hu t ht d he)
          · exact ⟨t, ht, rfl⟩
      refine ⟨hmark, ?_⟩
      obtain ⟨k, -, hk, -⟩ := h.exists_node hmark (by
        rintro hnil
        rw [hnil] at hd
        cases hd)
      cases (StateGraph.retake_of_follow? hk).symm.trans hretake
      exact hk
    obtain ⟨hr', hout, hrest⟩ := h.munched_settle (r := { r with toCursor := ⟨n, t.toList⟩ })
      hn hterminator hsettle
    refine ⟨hr',
      fun after => List.forall_mem_cons.2 ⟨.other label fun d hd => hother d ?_, hout after⟩,
      fun _ hnil => ?_⟩
    · rw [hpending, List.head?_append, hd]
      rfl
    · by_cases hne : t.toList = []
      · obtain rfl := String.toList_eq_nil_iff.1 hne
        cases hretake
        rw [Reading.settle, h.chart.action_root] at hsettle
        cases hsettle
        rfl
      · exact hrest hne hnil
  · exact h.munched_settle hspells hr hs

end Grammar.Munches

/-! ### Whole inputs -/

namespace Reading.Munches

variable {g : Grammar} {a : Automaton} {place : NodeId → Locus} {inner : InnerScan} {r r' : Reading}
  {ls : List Lexeme}

/-- A symbol only gives out lexemes that are as long as they can be, and a character leaves nothing
else pending. -/
theorem advance (hr : r.Munches g.toLexicon a place) (h : g.Munches a place) (after : List Char)
    {s : Symbol} (ha : r.advance a inner s = .ok (r', ls)) (hafter : s = .endOfInput → after = []) :
    Lexeme.AllMunched g.toLexicon (r'.pending ++ after) ls ∧
      (s.text ≠ [] → r'.Munches g.toLexicon a place) := by
  obtain ⟨hspelled, -⟩ := hr.spelled.advance hr.sound h.chart h.lonePoint ha
  have hsound := hr.sound.advance h.chart ha
  obtain ⟨⟨c, released⟩, hm, ha⟩ := bind_eq_ok.1 ha
  obtain ⟨r₁, he, ha⟩ := bind_eq_ok.1 ha
  obtain ⟨⟨r₂, out⟩, hact, ha⟩ := bind_eq_ok.1 ha
  obtain ⟨r₃, hfeed, ha⟩ := bind_eq_ok.1 ha
  cases ha
  have hcursor := Reading.feed_toCursor hfeed
  have henter := Reading.enter_toCursor he
  obtain ⟨hc, hreleased, hne⟩ := h.onMark_move hr.onMark hr.rest hafter hm
  obtain ⟨hr₂, hout, hrest⟩ := h.munched_act (hr.spelled.enter h.chart hm he)
    (by rw [henter]; exact hc) hact
  refine ⟨.append ?_ (Lexeme.allMunched_of_forall hout), fun hs =>
    ⟨hspelled, hsound, by rw [hcursor]; exact hr₂, ?_⟩⟩
  · have htext := Reading.act_spelled hact
    rw [henter] at htext
    rwa [← List.append_assoc, hcursor, htext]
  · rw [hcursor]
    exact hrest (by rw [henter]; exact hne hs)

theorem read (hr : r.Munches g.toLexicon a place) (h : g.Munches a place) (after : List Char)
    {x : List Char} (hread : r.read a inner x = .ok (r', ls)) :
    Lexeme.AllMunched g.toLexicon (r'.pending ++ after) ls ∧ r'.Munches g.toLexicon a place := by
  induction x generalizing r ls with
  | nil =>
    cases hread
    exact ⟨trivial, hr⟩
  | cons c x ih =>
    obtain ⟨⟨r₁, out⟩, ha, hread⟩ := bind_eq_ok.1 hread
    obtain ⟨⟨r₂, outs⟩, hread', hread⟩ := bind_eq_ok.1 hread
    cases hread
    obtain ⟨hout, hr₁⟩ := hr.advance h (x ++ after) ha nofun
    obtain ⟨houts, hr'⟩ := ih (hr₁ (by simp [Symbol.text])) hread'
    refine ⟨.append ?_ houts, hr'⟩
    rwa [← List.append_assoc, Reading.read_spelled hread', List.append_assoc]

end Reading.Munches

namespace Grammar

variable {g : Grammar} {a : Automaton} {place : NodeId → Locus}

/-- The lexemes of a whole input are as long as they can be. -/
theorem Munches.lexemes (h : g.Munches a place) {x : String} {ls : List Lexeme}
    (hx : a.lexemes x = .ok ls) : spelled ls = x.toList ∧ Lexeme.AllMunched g.toLexicon [] ls := by
  refine ⟨Automaton.spelled_lexemes hx, ?_⟩
  obtain ⟨r₁, ls₁, r₂, ls₂, hread, ha, rfl⟩ := Automaton.exists_of_lexemes hx
  have hstart :
      Reading.Munches g.toLexicon a place { idle := Array.replicate a.runs.length none } :=
    ⟨Reading.spelled_root h.chart _ _, Reading.sound_root h.chart _ _,
      Cursor.onMark_of_pending_eq_nil rfl, fun _ => rfl⟩
  obtain ⟨hls₁, hr₁⟩ := hstart.read h [] hread
  have hpending : spelled (ls₂ ++ [.plain r₂.pending none]) = r₁.pending := by
    simpa [Lexeme.text, Symbol.text] using Reading.advance_spelled ha
  refine .append (by rwa [hpending]) (.append ?_ ⟨.silent _, trivial⟩)
  have hout := (hr₁.advance h [] ha fun _ => rfl).1
  rwa [spelled_cons, spelled_nil, List.append_nil, List.append_nil, ← List.append_nil r₂.pending]

/-- A token that begins as punctuation does is the longest punctuation literal at its place, under
the label of the last definition that lists it. -/
theorem munching (h : g.compile.result = .ok a)
    (hflat : ∀ m ∈ g.greedyMatchers, m.subGrammar = none) (hapart : g.MarksApart) (input : String) :
    ∃ tokens, a.tokenize input = .ok tokens ∧ ∀ t ∈ tokens,
      (∃ u ∈ literalsOf g.punctuation, u.toList.head? = t.value.toList.head?) →
      ∃ front rest, input.toList = front ++ rest ∧ byteLength front = t.position ∧
        t.value ∈ literalsOf g.punctuation ∧ t.value.toList <+: rest ∧
        (∀ u ∈ literalsOf g.punctuation, u.toList <+: rest → u.length ≤ t.value.length) ∧
        g.markLabel? t.value = some t.kind := by
  obtain ⟨place, hmunches⟩ := exists_munches h hflat hapart
  obtain ⟨tokens, htokens⟩ := (lawful_of_flat h hflat hmunches.lonePoint).exists_tokenize input
  refine ⟨tokens, htokens, fun t ht hbegins => ?_⟩
  obtain ⟨ls, hls, rfl⟩ := hmunches.chart.exists_lexemes htokens
  obtain ⟨hspelled, hall⟩ := hmunches.lexemes hls
  obtain ⟨front, l, back, rfl, hmem⟩ := exists_of_mem_listing ht
  have hbegin : ∃ c, t.value.toList.head? = some c ∧ g.Heads (.char c) := by
    obtain ⟨u, hu, hhead⟩ := hbegins
    obtain ⟨c, cs, hcs⟩ := List.exists_cons_of_ne_nil
      (mt String.toList_eq_nil_iff.1 ((proper_compile h).punctuation hu))
    rw [hcs] at hhead
    exact ⟨c, hhead.symm, u, hu, c, by rw [hcs]; rfl, rfl⟩
  obtain ⟨c, hc, hhead⟩ := hbegin
  have hother {x : List Char} {label : Option Label}
      (hmem : t ∈ tokenAt (0 + byteLength (spelled front)) x label)
      (hx : ∀ d ∈ x.head?, ¬g.Heads (.char d)) : False := by
    obtain ⟨-, rfl, -⟩ := mem_tokenAt hmem
    exact hx c hc hhead
  cases hall.split with
  | silent x => cases hmem
  | other label hx =>
    rw [Lexeme.tokens] at hmem
    exact (hother hmem hx).elim
  | run close hx =>
    rw [Lexeme.tokens] at hmem
    exact (hother hmem hx).elim
  | mark hx hlabel hafter =>
    rw [Lexeme.tokens] at hmem
    obtain ⟨hkind, rfl, hposition⟩ := mem_tokenAt hmem
    obtain rfl := Option.some.inj hkind
    rw [String.ofList_toList] at hlabel
    refine ⟨spelled front, t.value.toList ++ spelled back, ?_, by rw [hposition, Nat.zero_add],
      Lexicon.isMark_iff.1 hx, List.prefix_append .., fun u hu hfront => ?_, hlabel⟩
    · rw [← hspelled, spelled_append, spelled_cons]
      rfl
    · -- A longer literal would go on with the next character.
      by_contra hlonger
      rw [← String.length_toList, ← String.length_toList, not_le] at hlonger
      obtain ⟨more, hmore⟩ :=
        List.prefix_of_prefix_length_le (List.prefix_append ..) hfront (Nat.le_of_lt hlonger)
      obtain ⟨d, ds, rfl⟩ := List.exists_cons_of_ne_nil (l := more) (by
        rintro rfl
        rw [List.append_nil] at hmore
        exact absurd (congrArg List.length hmore) (Nat.ne_of_lt hlonger))
      rw [← hmore, List.prefix_append_right_inj] at hfront
      obtain ⟨ds', hds⟩ := hfront
      refine hafter d (by rw [List.append_nil, ← hds]; rfl)
        (hapart.closed u hu _ (by simp) ⟨ds, ?_⟩)
      rw [← hmore, List.append_assoc]
      rfl

/-- A grammar with operators that begin with each other, of which one is listed twice. -/
def operators : Grammar where
  keywords := [.bare "let"]
  punctuation := [.bare "<", .named "comparison" (.many ["<=", "<<="]), .named "shift" (.one "<<"),
    .named "arrow" (.one "<=")]
  delimiters := [.bare " "]
  greedyMatchers := [{ kind := "text", startsWith := "'", endsWith := some "'" }]

theorem munching_operators : ∃ a, operators.compile.result = .ok a ∧
    ∃ tokens, a.tokenize "1<<=a<= '<'<<<" = .ok tokens ∧ ∀ t ∈ tokens,
      (∃ u ∈ literalsOf operators.punctuation, u.toList.head? = t.value.toList.head?) →
      ∃ front rest, "1<<=a<= '<'<<<".toList = front ++ rest ∧ byteLength front = t.position ∧
        t.value ∈ literalsOf operators.punctuation ∧ t.value.toList <+: rest ∧
        (∀ u ∈ literalsOf operators.punctuation, u.toList <+: rest → u.length ≤ t.value.length) ∧
        operators.markLabel? t.value = some t.kind := by
  obtain ⟨a, -, -, ha, -⟩ := operators.exists_run [] (by decide +kernel)
  refine ⟨a, ha, munching ha (fun m hm => ?_) (by decide +kernel) _⟩
  rw [List.mem_singleton.1 hm]

/-- A literal that is listed twice, and one that breaks off at the end of input. -/
example : (operators.compile.result.toOption.bind fun a => (a.tokenize "a<=b<<<").toOption) =
    some [⟨"a", "IDENTIFIER", 0⟩, ⟨"<=", "arrow", 1⟩, ⟨"b", "IDENTIFIER", 3⟩, ⟨"<<", "shift", 4⟩,
      ⟨"<", "PUNCTUATION", 6⟩] := by
  decide +kernel

end Grammar

end TrieLexer
