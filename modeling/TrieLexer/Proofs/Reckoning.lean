import TrieLexer.Proofs.Numerals
import TrieLexer.Proofs.Resumption
import TrieLexer.Proofs.Safety
import TrieLexer.Proofs.Terminating

/-!
# Numbers before marks

A number is digits, or digits with a point between them. It is read without anything being given
out, and it is given out whole as soon as a mark has been read after it, or at the end of input, if
the marks that begin with a point go on apart from all marks. If they do not, some number before a
mark is broken up: a mark after a whole number and a mark after a number with a point then have
nodes in common, and one of them cuts off what the other should.

## Main definitions

* `Lexicon.Figure` — a number, and the label that it goes out under.
* `Grammar.Reckons` — a grammar that rejects conflicts, and its automaton, where nothing else begins
  as numbers do.

## Main results

* `Grammar.Reckons.read_figure`, `Grammar.Reckons.read_mark`, `Grammar.Reckons.lexemes_figure` — a
  number is read, and given out before a mark and at the end of input.
* `Grammar.reckoning` — a number before a mark, or at the end of input, is the first token.
* `Grammar.misreckoning` — the condition on the marks is exact.
* `Grammar.tokenize_ranged` — a number before a range is broken up behind its point.
-/

namespace TrieLexer

open Text (byteLength)

/-! ### Reading a number -/

/-- No path leads into a run from elsewhere. -/
theorem Charted.run_eq_none_below {lexicon : Lexicon} {matchers : List (GreedyMatcher Compilation)}
    {a : Automaton} {place : NodeId → Locus} (h : Charted lexicon matchers a place) {n k : NodeId}
    {q : List Symbol} (hn : ¬(place n).origin.IsBody) (hq : a.trie.follow? n q = some k) :
    (a.behaviour k).run = none := by
  induction q generalizing n with
  | nil =>
    cases hq
    cases hrun : (a.behaviour k).run with
    | none => rfl
    | some id =>
      obtain ⟨m, hm⟩ := h.run hrun
      exact absurd ⟨_, _, _, congrArg Locus.origin hm⟩ hn
  | cons s q ih =>
    rw [Trie.follow?_cons] at hq
    obtain ⟨m, hm, hq⟩ := Option.bind_eq_some_iff.1 hq
    refine ih (fun hbody => hn ?_) hq
    rcases h.child hm with hd | ⟨-, -, hd⟩
    · rw [hd] at hbody
      obtain hd' | ⟨-, -, hd'⟩ := (place n).down_eq_or s
      · rwa [hd'] at hbody
      · rw [hd'] at hbody
        exact absurd hbody (Origin.not_isBody_of_mem (by simp))
    · rw [hd] at hbody
      exact absurd hbody (Origin.not_isBody_of_mem (by simp))

namespace Reading

variable {a : Automaton} {inner : InnerScan} {r : Reading} {n k : NodeId} {s : Symbol}
  {x before t : List Char} {label : Label} {length : Nat}

/-- A text is read with more text. -/
theorem read_append_of_ok {r₁ r₂ : Reading} {ls ms : List Lexeme} {y : List Char}
    (hx : r.read a inner x = .ok (r₁, ls)) (hy : r₁.read a inner y = .ok (r₂, ms)) :
    r.read a inner (x ++ y) = .ok (r₂, ls ++ ms) := by
  rw [read_append, hx, ok_bind]
  dsimp only
  rw [hy]
  rfl

theorem read_concat_eq {r₁ : Reading} {c : Char} (hx : r.read a inner x = .ok (r₁, [])) :
    r.read a inner (x ++ [c]) = r₁.advance a inner (.char c) := by
  rw [read_append, hx, ok_bind]
  dsimp only
  rw [Reading.read]
  cases r₁.advance a inner (.char c) with
  | error e => rfl
  | ok z =>
    obtain ⟨r₂, ls⟩ := z
    change Except.ok (r₂, [] ++ (ls ++ [])) = _
    rw [List.append_nil]
    rfl

/-- Where the end of a token is reached, the token is given out and its terminator is taken
again. -/
theorem advance_of_boundary (inner : InnerScan) (before : List Char) (hr : r.run = none)
    (hn : a.resolve r.node s = .node n)
    (hrun : (a.behaviour n).run = none) (haction : (a.behaviour n).action = .boundary label length)
    (hcut : r.pending ++ s.text = before ++ t) (hlength : byteLength t = length) :
    r.advance a inner s = (do
      let (cursor, released) ← a.retake {} t
      let (r, out) ← settle a inner { r with toCursor := cursor }
      let r ← r.feed inner
      return (r, .plain before (some label) :: released ++ out)) := by
  rw [advance_of_node hr hn hrun, act, haction]
  dsimp only
  rw [cutBack_eq_ok.2 ⟨hcut, hlength⟩, ok_bind]
  simp only [bind_assoc, pure_bind]

/-- A mark that is taken again only gives itself out. -/
theorem settle_of_endsMark (inner : InnerScan) (h : (a.behaviour r.node).action.EndsMark)
    (hr : r.run = none) :
    ∃ r' out, r.settle a inner = .ok (r', out) ∧ r'.run = none ∧ r'.idle = r.idle := by
  rcases h with hnone | ⟨label, hliteral⟩
  · exact ⟨r, [], by rw [settle, hnone], hr, rfl⟩
  · exact ⟨{ run := r.run, idle := r.idle }, [.plain r.pending (label.or a.unnamed)],
      by rw [settle, hliteral], hr, rfl⟩

/-- A text is read along a path where nothing happens. -/
theorem read_of_quiet (inner : InnerScan) (hr : r.run = none)
    (hquiet : ∀ y, y ≠ [] → y <+: x → ∃ k, a.trie.follow? r.node (y.map .char) = some k ∧
      (a.behaviour k).action = .none ∧ (a.behaviour k).run = none) :
    ∃ k, a.trie.follow? r.node (x.map .char) = some k ∧
      r.read a inner x = .ok ({ r with node := k, pending := r.pending ++ x }, []) := by
  induction x using List.reverseRecOn with
  | nil => exact ⟨r.node, rfl, by rw [List.append_nil]; rfl⟩
  | append_singleton x c ih =>
    obtain ⟨m, hm, hread⟩ := ih fun y hne hy => hquiet y hne (hy.trans (List.prefix_append ..))
    obtain ⟨k, hk, haction, hrun⟩ := hquiet _ (by simp) List.prefix_rfl
    refine ⟨k, hk, ?_⟩
    rw [List.map_append, List.map_singleton, Trie.follow?_concat, hm] at hk
    rw [read_concat inner hread
      (advance_of_none inner hr (StateGraph.resolve_of_child hk) hrun haction)]
    simp [Symbol.text]

/-- A text is read along a path to the end of a token. -/
theorem read_of_halts (inner : InnerScan) (before : List Char) {front : List Char} {c : Char}
    (hr : r.run = none)
    (h : a.Halts r.node ((front ++ [c]).map .char) label length)
    (hrun : ∀ q k, a.trie.follow? r.node q = some k → (a.behaviour k).run = none)
    (hcut : r.pending ++ (front ++ [c]) = before ++ t) (hlength : byteLength t = length) :
    r.read a inner (front ++ [c]) = (do
      let (cursor, released) ← a.retake {} t
      let (r, out) ← settle a inner { r with toCursor := cursor }
      let r ← r.feed inner
      return (r, .plain before (some label) :: released ++ out)) := by
  obtain ⟨m, hm, hread⟩ := read_of_quiet (x := front) inner hr fun y hne hy => by
    obtain ⟨k, hk, haction⟩ := h.way (r := y.map .char) (by simpa using hne)
      ((hy.trans (List.prefix_append ..)).map _) fun heq => by
        have hlen := hy.length_le
        rw [← List.length_map (f := Symbol.char), heq, List.length_map, List.length_append] at hlen
        exact absurd hlen (Nat.not_succ_le_self _)
    exact ⟨k, hk, haction, hrun _ _ hk⟩
  obtain ⟨k, hk, haction⟩ := h.last
  have hk' := hk
  rw [List.map_append, List.map_singleton, Trie.follow?_concat, hm] at hk'
  rw [read_concat_eq hread, advance_of_boundary inner before (t := t) (n := k)
    (r := { r with node := m, pending := r.pending ++ front }) hr (StateGraph.resolve_of_child hk')
    (hrun _ _ hk) haction (by simpa [Symbol.text] using hcut) hlength]

/-- Whatever follows, the token that ends there is given out first. -/
theorem cons_of_read_halts (hr : r.run = none) (hx : x ≠ [])
    (h : a.Halts r.node (x.map .char) label length)
    (hrun : ∀ q k, a.trie.follow? r.node q = some k → (a.behaviour k).run = none)
    (hcut : r.pending ++ x = before ++ t) (hlength : byteLength t = length) {r' : Reading}
    {ls : List Lexeme} (hread : r.read a inner x = .ok (r', ls)) :
    ∃ ms, ls = .plain before (some label) :: ms := by
  obtain ⟨front, c, rfl⟩ := (List.eq_nil_or_concat x).resolve_left hx
  rw [List.concat_eq_append] at h hcut hread
  rw [read_of_halts inner before hr h hrun hcut hlength] at hread
  obtain ⟨_, -, hread⟩ := bind_eq_ok.1 hread
  obtain ⟨_, -, hread⟩ := bind_eq_ok.1 hread
  obtain ⟨_, -, hread⟩ := bind_eq_ok.1 hread
  cases hread
  exact ⟨_, rfl⟩

/-- A text that goes on as it is, is read where it is. -/
theorem read_of_stay (inner : InnerScan) (hr : r.run = none)
    (hquiet : (a.behaviour r.node).action = .none) (hrun : (a.behaviour r.node).run = none)
    (hx : ∀ c ∈ x, a.resolve r.node (.char c) = .node r.node) :
    r.read a inner x = .ok ({ r with pending := r.pending ++ x }, []) := by
  induction x using List.reverseRecOn with
  | nil => rw [List.append_nil]; rfl
  | append_singleton x c ih =>
    obtain ⟨hfront, hlast⟩ := List.forall_mem_append.1 hx
    rw [read_concat inner (ih hfront)
      (advance_of_none inner hr (hlast c List.mem_cons_self) hrun hquiet)]
    simp [Symbol.text]

end Reading

theorem StateGraph.child?_eq_none {g : StateGraph} {n : NodeId} {s : Symbol}
    (h : g.trie.follow? n [s] = none) : g.trie.child? n s = none := by
  rw [← List.nil_append [s], Trie.follow?_concat] at h
  exact h

/-- What the beginning of an input gives out first, the input gives out first. -/
theorem Automaton.lexemes_cons {a : Automaton} {x y : List Char} {z : String} {l : Lexeme}
    {all : List Lexeme} (hx : ∀ r ls, Reading.read a a.inner
      { idle := Array.replicate a.runs.length none } x = .ok (r, ls) → ∃ ms, ls = l :: ms)
    (hz : z.toList = x ++ y) (h : a.lexemes z = .ok all) : ∃ ms, all = l :: ms := by
  obtain ⟨⟨r₁, ls₁⟩, hread, h⟩ := bind_eq_ok.1 h
  obtain ⟨⟨r₂, ls₂⟩, -, h⟩ := bind_eq_ok.1 h
  cases h
  rw [Reading.take, hz, Reading.read_append] at hread
  obtain ⟨⟨r₃, ls₃⟩, hfront, hread⟩ := bind_eq_ok.1 hread
  obtain ⟨⟨r₄, ls₄⟩, -, hread⟩ := bind_eq_ok.1 hread
  cases hread
  obtain ⟨ms, rfl⟩ := hx _ _ hfront
  exact ⟨ms ++ ls₄ ++ ls₂, rfl⟩

/-- A symbol that passes the test of a node leads where the test says. -/
theorem StateGraph.resolve_of_passes {g : StateGraph} {n hit miss : NodeId} {s : Symbol}
    {test : CharTest} (hc : g.trie.child? n s = none)
    (hf : (g.behaviour n).fallback = .classify test hit miss) (hs : g.passes test s = true) :
    g.resolve n s = .node hit := by
  rw [resolve, resolveWithin, hc, hf]
  simp only [hs, if_true]

/-- A number, and the label that it goes out under: digits, or digits with a point between them. -/
inductive Lexicon.Figure (lexicon : Lexicon) : List Char → Label → Prop
  | whole {ds : List Char} (hne : ds ≠ []) (hds : ∀ c ∈ ds, c.isDigit = true) :
      Figure lexicon ds lexicon.labels.number
  | decimal {ds es : List Char} (hne : ds ≠ []) (hds : ∀ c ∈ ds, c.isDigit = true) (hne' : es ≠ [])
      (hes : ∀ c ∈ es, c.isDigit = true) : Figure lexicon (ds ++ '.' :: es) lexicon.labels.decimal

theorem Lexicon.Figure.ne_nil {lexicon : Lexicon} {w : List Char} {label : Label}
    (h : lexicon.Figure w label) : w ≠ [] := by
  cases h with
  | whole hne => exact hne
  | decimal hne => exact List.append_ne_nil_of_left_ne_nil hne _

namespace Grammar

/-- A grammar that rejects conflicts, and its automaton. Nothing else begins as numbers do. -/
structure Reckons (g : Grammar) (a : Automaton) (place : NodeId → Locus) (d : Draft) : Prop where
  digits : g.DigitsApart
  chart : Charted g.toLexicon (compileMatchers g.greedyMatchers) a place
  counted : d.Counted g.toLexicon
  counts : a.Counts d
  identifierStart : a.identifierStart = g.identifierStart
  unended : "." ∉ g.terminators
  mark {t : String} (ht : t ∈ g.terminators) (hne : t ≠ "") :
    ∃ n, a.trie.follow? .root (t.toList.map .char) = some n ∧ (a.behaviour n).action.EndsMark

variable {g : Grammar} {a : Automaton} {place : NodeId → Locus} {d : Draft} {c : Char}

theorem exists_reckons (h : g.compile.result = .ok a) (hreject : g.conflicts = .reject)
    (hdigits : g.DigitsApart) : ∃ place d, g.Reckons a place d := by
  obtain ⟨place, hchart⟩ := charted_compile h
  obtain ⟨d, hcounted, hcounts⟩ := counts_compile h hdigits
  refine ⟨place, d, hdigits, hchart, hcounted, hcounts, ?_, hcounted.unended hreject,
    exists_mark h hreject⟩
  obtain ⟨-, hassemble⟩ := compile_eq_ok.1 h
  obtain ⟨e, -, rfl⟩ := Lexicon.assemble_eq_ok.1 hassemble
  rfl

/-- No terminator begins with a digit. -/
theorem DigitsApart.not_prefix (h : g.DigitsApart) {t : String} (ht : t ∈ g.terminators)
    (hc : c.isDigit = true) : ¬[.char c] <+: spelling t.toList := by
  rintro ⟨more, hmore⟩
  obtain ⟨hhead, -⟩ := Lexicon.toList_of_spelling hmore
  rcases Lexicon.mem_terminators.1 ht with rfl | ht
  · cases hhead
  · rw [h.literal t (by rw [List.append_assoc]; exact List.mem_append_right _ ht) c hhead] at hc
    cases hc

/-- No terminator goes on with a digit after a point. -/
theorem DigitsApart.not_prefix_point (h : g.DigitsApart) {t : String} (ht : t ∈ g.terminators)
    (hc : c.isDigit = true) : ¬[.char '.', .char c] <+: spelling t.toList := by
  rintro ⟨more, hmore⟩
  obtain ⟨hhead, htail⟩ := Lexicon.toList_of_spelling hmore
  have hnext : t.toList.tail.head? = some c := by
    cases hcs : t.toList.tail with
    | nil =>
      rw [hcs] at htail
      cases htail
    | cons e es =>
      rw [hcs] at htail
      rw [Symbol.char.inj (List.cons.inj htail).1]
      rfl
  rcases Lexicon.mem_terminators.1 ht with rfl | ht
  · cases hhead
  · rw [h.point t ht hhead c hnext] at hc
    cases hc

namespace Reckons

variable (h : g.Reckons a place d)

include h

theorem resolve_root (hc : c.isDigit = true) : a.resolve .root (.char c) = .node .number := by
  rw [StateGraph.resolve, StateGraph.resolveWithin, h.counts.root hc, h.chart.dispatch]
  dsimp only
  rw [StateGraph.dispatch, h.identifierStart, h.digits.identifier c hc, if_neg Bool.false_ne_true,
    if_pos hc]

theorem resolve_number (hc : c.isDigit = true) : a.resolve .number (.char c) = .node .number := by
  have hnone := h.counts.faces [.char c]
  rw [h.counted.whole (by simp) (by rintro ⟨⟩; cases hc),
    Lexicon.ending_eq_none fun t ht => h.digits.not_prefix ht hc] at hnone
  have hself := h.counts.faces []
  rw [h.counted.number] at hself
  obtain ⟨k, hk, hfallback, -⟩ := hself
  cases hk
  exact StateGraph.resolve_of_passes (StateGraph.child?_eq_none hnone) hfallback hc

theorem resolve_float (hc : c.isDigit = true) : a.resolve .float (.char c) = .node .float := by
  have hnone := h.counts.faces_float [.char c]
  obtain ⟨e, he, hover⟩ := h.counted.decimal
  have hrest : d.below .number [.char '.', .char c] = e.below .number [.char '.', .char c] := by
    refine hover.rest ?_
    rintro t ht ⟨r, -, hr, heq⟩
    obtain rfl : r = [.char c] := (List.cons.inj heq).2.symm
    exact h.digits.not_prefix ht hc hr
  rw [hrest, he [.char c] (by simp),
    Lexicon.ending_eq_none fun t ht => h.digits.not_prefix_point ht hc] at hnone
  have hself := h.counts.faces_float []
  rw [h.counted.float] at hself
  obtain ⟨k, hk, hfallback, -⟩ := hself
  cases hk
  exact StateGraph.resolve_of_passes (StateGraph.child?_eq_none hnone) hfallback hc

theorem action_number : (a.behaviour .number).action = .none := by
  have hself := h.counts.faces []
  rw [h.counted.number] at hself
  obtain ⟨k, hk, -, haction⟩ := hself
  cases hk
  exact haction

theorem run_eq_none {n k : NodeId} (hn : n = .number ∨ n = .float) {q : List Symbol}
    (hq : a.trie.follow? n q = some k) : (a.behaviour k).run = none := by
  refine h.chart.run_eq_none_below ?_ hq
  have hbody {o : Origin} (ho : o = .number ∨ o = .float) : ¬(place o.node).origin.IsBody := by
    have hnot : ¬o.IsBody := Origin.not_isBody_of_mem (by rcases ho with rfl | rfl <;> simp)
    rwa [h.chart.origin hnot]
  rcases hn with rfl | rfl
  · exact hbody (o := .number) (.inl rfl)
  · exact hbody (o := .float) (.inr rfl)

theorem read_digits {ds : List Char} (hne : ds ≠ []) (hds : ∀ c ∈ ds, c.isDigit = true)
    (inner : InnerScan) (idle : Array (Option Progress)) :
    Reading.read a inner { idle } ds = .ok ({ node := .number, pending := ds, idle }, []) := by
  obtain ⟨c, ds, rfl⟩ := List.exists_cons_of_ne_nil hne
  rw [List.forall_mem_cons] at hds
  have hrun : (a.behaviour .number).run = none := h.run_eq_none (.inl rfl) (Trie.follow?_nil ..)
  have hfirst := Reading.advance_of_none inner (r := { idle }) rfl (h.resolve_root hds.1) hrun
    h.action_number
  have hrest := Reading.read_of_stay inner (r := { node := .number, pending := [c], idle })
    (x := ds) rfl h.action_number hrun fun e he => h.resolve_number (hds.2 e he)
  rw [Reading.read, hfirst, ok_bind]
  change (Reading.read a inner { node := .number, pending := [c], idle } ds >>= _) = _
  rw [hrest]
  rfl

/-- Digits and a point are read at the node of numbers with a point, and so are more digits. -/
theorem read_decimal {ds es : List Char} (hne : ds ≠ []) (hds : ∀ c ∈ ds, c.isDigit = true)
    (hes : ∀ c ∈ es, c.isDigit = true) (inner : InnerScan) (idle : Array (Option Progress)) :
    Reading.read a inner { idle } (ds ++ '.' :: es) =
      .ok ({ node := .float, pending := ds ++ '.' :: es, idle }, []) := by
  have hrun : (a.behaviour .float).run = none := h.run_eq_none (.inr rfl) (Trie.follow?_nil ..)
  have haction := h.counts.action_float h.counted
  have hpoint := Reading.advance_of_none inner
    (r := { node := .number, pending := ds, idle }) rfl
    (StateGraph.resolve_of_child h.counts.point) hrun haction
  have hrest := Reading.read_of_stay inner
    (r := { node := .float, pending := ds ++ ['.'], idle }) (x := es) rfl haction hrun
    fun e he => h.resolve_float (hes e he)
  have hread := Reading.read_append_of_ok
    (Reading.read_concat inner (h.read_digits hne hds inner idle) hpoint) hrest
  rwa [List.append_assoc, List.append_assoc] at hread

/-- A number is read at the node of its kind. -/
theorem read_figure {w : List Char} {label : Label} (hw : g.Figure w label) (inner : InnerScan)
    (idle : Array (Option Progress)) : ∃ n,
      (n = .number ∧ label = g.labels.number ∨ n = .float ∧ label = g.labels.decimal) ∧
      Reading.read a inner { idle } w = .ok ({ node := n, pending := w, idle }, []) := by
  cases hw with
  | whole hne hds => exact ⟨.number, .inl ⟨rfl, rfl⟩, h.read_digits hne hds inner idle⟩
  | decimal hne hds hne' hes =>
    exact ⟨.float, .inr ⟨rfl, rfl⟩, h.read_decimal hne hds hes inner idle⟩

/-- The ends of a number before a foremost terminator. -/
theorem halts (hapart : g.toLexicon.PointsApart) {n : NodeId} {label : Label}
    (hn : n = .number ∧ label = g.labels.number ∨ n = .float ∧ label = g.labels.decimal)
    {t : String} (ht : g.toLexicon.Foremost t) :
    a.Halts n (spelling t.toList) label (byteLength t.toList) := by
  rcases hn with ⟨rfl, rfl⟩ | ⟨rfl, rfl⟩
  · exact h.counts.halts_number h.counted h.unended hapart ht
  · exact h.counts.halts_float h.counted hapart ht

/-- A number is given out as soon as a foremost terminator has been read after it. -/
theorem read_mark (hapart : g.toLexicon.PointsApart) {w : List Char} {label : Label}
    (hw : g.Figure w label) {t : String} (ht : g.toLexicon.Foremost t) (hne : t ≠ "")
    (inner : InnerScan) (idle : Array (Option Progress)) : ∃ r' ls,
      Reading.read a inner { idle } (w ++ t.toList) = .ok (r', .plain w (some label) :: ls) := by
  obtain ⟨n, hn, hread⟩ := h.read_figure hw inner idle
  obtain ⟨front, c, hfront⟩ := (List.eq_nil_or_concat t.toList).resolve_left
    (mt String.toList_eq_nil_iff.1 hne)
  rw [List.concat_eq_append] at hfront
  have hhalts := h.halts hapart hn ht
  rw [spelling_of_ne_nil (by simp [hfront]), hfront] at hhalts
  have hend := Reading.read_of_halts inner w (r := { node := n, pending := w, idle })
    (t := t.toList) rfl hhalts (fun q k hk => h.run_eq_none (hn.imp And.left And.left) hk)
    (by rw [hfront]) (by rw [hfront])
  obtain ⟨k, hk, hends⟩ := h.mark ht.mem hne
  have hretake : a.retake {} t.toList = .ok (⟨k, t.toList⟩, []) := StateGraph.retake_of_follow? hk
  obtain ⟨r', out, hsettle, hrun', -⟩ := Reading.settle_of_endsMark inner
    (r := { node := k, pending := t.toList, idle }) hends rfl
  rw [hretake, ok_bind] at hend
  dsimp only at hend
  rw [hsettle, ok_bind] at hend
  dsimp only at hend
  rw [Reading.feed_of_run_eq_none hrun', ok_bind, ← hfront] at hend
  exact ⟨r', out, Reading.read_append_of_ok hread hend⟩

/-- A number is given out at the end of input. -/
theorem lexemes_figure (hapart : g.toLexicon.PointsApart) {w : String} {label : Label}
    (hw : g.Figure w.toList label) :
    a.lexemes w = .ok [.plain w.toList (some label), .plain [] none] := by
  obtain ⟨n, hn, hread⟩ := h.read_figure hw a.inner (Array.replicate a.runs.length none)
  obtain ⟨k, hk, haction⟩ := (h.halts hapart hn g.toLexicon.foremost_empty).last
  have hrun := h.run_eq_none (hn.imp And.left And.left) hk
  change a.trie.follow? n ([] ++ [.endOfInput]) = some k at hk
  rw [Trie.follow?_concat] at hk
  have hadvance := Reading.advance_of_boundary a.inner w.toList (t := [])
    (r := { node := n, pending := w.toList, idle := Array.replicate a.runs.length none }) rfl
    (StateGraph.resolve_of_child hk) hrun haction rfl rfl
  have hsettle : Reading.settle a a.inner { idle := Array.replicate a.runs.length none } =
      .ok ({ idle := Array.replicate a.runs.length none }, []) := by
    rw [Reading.settle, h.chart.action_root]
  rw [StateGraph.retake, ok_bind] at hadvance
  dsimp only at hadvance
  rw [hsettle, ok_bind, Reading.feed_of_run_eq_none rfl, ok_bind] at hadvance
  rw [Automaton.lexemes, Reading.take, hread, ok_bind]
  dsimp only
  rw [Reading.take, Reading.finish, hadvance]
  rfl

end Reckons

/-- A number before a mark, or at the end of input, is the first token, if what goes on after the
point at the beginning of a mark and another mark are never beginnings of each other. It is given
out as soon as a mark has been read after it. -/
theorem reckoning (h : g.compile.result = .ok a) (hreject : g.conflicts = .reject)
    (hdigits : g.DigitsApart) (hapart : g.toLexicon.PointsApart) {w : String} {label : Label}
    (hw : g.Figure w.toList label) {r : String}
    (hr : r = "" ∨ ∃ t ∈ literalsOf g.delimiters ++ literalsOf g.punctuation,
      t.toList <+: r.toList) :
    (∀ tokens, a.tokenize (w ++ r) = .ok tokens → tokens.head? = some ⟨w, label, 0⟩) ∧
    (r = "" ∨ g.LonePoint → ∃ tokens, a.tokenize (w ++ r) = .ok tokens) ∧
    (r ≠ "" → ∃ t ∈ literalsOf g.delimiters ++ literalsOf g.punctuation, t.toList <+: r.toList ∧
      ∃ s tokens, (Scanner.ofAutomaton a).consume .collect #[] (w ++ t) = .ok (s, tokens) ∧
        tokens[0]? = some ⟨w, label, 0⟩) := by
  obtain ⟨place, d, hreckons⟩ := exists_reckons h hreject hdigits
  have hfirst (ls : List Lexeme) :
      (listing 0 (.plain w.toList (some label) :: ls)).head? = some ⟨w, label, 0⟩ := by
    rw [listing_cons, Lexeme.tokens, tokenAt, if_neg (by simpa using hw.ne_nil),
      String.ofList_toList]
    rfl
  rcases eq_or_ne r "" with rfl | hne
  · have htokens := hreckons.chart.tokenize_eq w
    rw [hreckons.lexemes_figure hapart hw, map_ok] at htokens
    rw [String.append_empty]
    refine ⟨fun tokens hy => ?_, fun _ => ⟨_, htokens⟩, fun hne => absurd rfl hne⟩
    cases htokens.symm.trans hy
    exact hfirst _
  · obtain ⟨t, ht, hfront⟩ := hr.resolve_left hne
    obtain ⟨u, hu, hut⟩ := Lexicon.exists_foremost (Lexicon.mem_terminators.2 (.inr ht))
    have htne : t ≠ "" := (List.mem_append.1 ht).elim (proper_compile h).delimiter
      (proper_compile h).punctuation
    obtain ⟨hune, hut⟩ := Lexicon.prefix_of_spelling hut htne
    obtain ⟨rest, hrest⟩ := hut.trans hfront
    obtain ⟨r', ls, hread⟩ := hreckons.read_mark hapart hw hu hune a.inner
      (Array.replicate a.runs.length none)
    refine ⟨fun tokens htokens => ?_, fun hsafe => ?_, fun _ => ⟨u,
      (Lexicon.mem_terminators.1 hu.mem).resolve_left hune, ⟨rest, hrest⟩, ?_⟩⟩
    · rw [hreckons.chart.tokenize_eq] at htokens
      cases hall : a.lexemes (w ++ r) with
      | error e => rw [hall] at htokens; cases htokens
      | ok all =>
        rw [hall] at htokens
        cases htokens
        obtain ⟨ms, rfl⟩ :=
          Automaton.lexemes_cons (fun _ _ hx => ⟨ls, by cases hread.symm.trans hx; rfl⟩)
          (by rw [String.toList_append, List.append_assoc, hrest]) hall
        exact hfirst ms
    · exact Lawful.exists_tokenize (g.lawful_compile (fun _ => hsafe.resolve_left hne) h) _
    · obtain ⟨s, hconsume, -⟩ := (Scanner.reaches_ofAutomaton hreckons.chart).handle_of_take
        hreckons.chart .collect #[] (.chunk (w ++ u)) (by
          rw [Reading.take, String.toList_append]
          exact hread)
      refine ⟨s, _, hconsume, ?_⟩
      rw [← Array.getElem?_toList, foldl_collect]
      exact (List.head?_eq_getElem? ..).symm.trans (hfirst ls)

/-- A grammar with a mark that goes on after a point, apart from the other marks. -/
def dotted : Grammar where
  delimiters := [.bare " ", .bare ".-"]
  punctuation := [.bare "+"]
  floatsHaveLeadingNumber := true
  labels := { float := some "FLOAT" }
  conflicts := .reject

theorem reckoning_dotted : ∃ a, dotted.compile.result = .ok a ∧
    (∀ tokens, a.tokenize ("1.5" ++ ".-+") = .ok tokens → tokens.head? = some ⟨"1.5", "FLOAT", 0⟩) ∧
    ∃ t ∈ literalsOf dotted.delimiters ++ literalsOf dotted.punctuation, t.toList <+: ".-+".toList ∧
      ∃ s tokens, (Scanner.ofAutomaton a).consume .collect #[] ("1.5" ++ t) = .ok (s, tokens) ∧
        tokens[0]? = some ⟨"1.5", "FLOAT", 0⟩ := by
  have hw : dotted.Figure "1.5".toList "FLOAT" :=
    show dotted.Figure (['1'] ++ '.' :: ['5']) "FLOAT" from
      .decimal (by simp) (by simp) (by simp) (by simp)
  obtain ⟨a, -, -, ha, -⟩ := dotted.exists_run [] (by decide +kernel)
  obtain ⟨hfirst, -, hearly⟩ := reckoning ha rfl (by decide +kernel) (by decide) hw (r := ".-+")
    (.inr ⟨".-", by decide, by decide⟩)
  exact ⟨a, ha, hfirst, hearly (by decide)⟩

end Grammar

/-! ### Marks that are not apart -/

namespace Lexicon

variable {lexicon : Lexicon} {q : List Symbol}

/-- A path is a mark and goes on after the point of another one, or it is what goes on after the
point of a mark, and another mark begins with it. -/
def Crosses (lexicon : Lexicon) (q : List Symbol) : Prop :=
  (∃ s ∈ lexicon.terminators, q = spelling s.toList) ∧
      (∃ t ∈ lexicon.terminators, .char '.' :: q <+: spelling t.toList) ∨
    (∃ t ∈ lexicon.terminators, .char '.' :: q = spelling t.toList) ∧
      ∃ s ∈ lexicon.terminators, q <+: spelling s.toList

theorem exists_crosses (h : ¬lexicon.PointsApart) (hunended : "." ∉ lexicon.terminators) :
    ∃ q, q ≠ [] ∧ lexicon.Crosses q := by
  simp only [PointsApart, not_forall, Classical.not_and_iff_not_or_not, not_not] at h
  obtain ⟨t, ht, hhead, s, hs, hne, hcross⟩ := h
  obtain ⟨cs, hcs⟩ := List.head?_eq_some_iff.1 hhead
  have hspelling : spelling t.toList = .char '.' :: cs.map .char := by
    rw [hcs, spelling_cons]
  have hspelling' : spelling s.toList = s.toList.map .char := by
    exact spelling_of_ne_nil (mt String.toList_eq_nil_iff.1 hne)
  rw [hcs, List.tail_cons] at hcross
  rcases hcross with hcross | hcross
  · refine ⟨spelling s.toList, spelling_ne_nil _, .inl ⟨⟨s, hs, rfl⟩, t, ht, ?_⟩⟩
    rw [hspelling, hspelling']
    exact List.cons_prefix_cons.2 ⟨rfl, hcross.map _⟩
  · refine ⟨cs.map .char, fun hnil => ?_, .inr ⟨⟨t, ht, hspelling.symm⟩, s, hs, ?_⟩⟩
    · obtain rfl := List.map_eq_nil_iff.1 hnil
      exact hunended ((String.toList_inj.1 hcs : t = ".") ▸ ht)
    · rw [hspelling']
      exact hcross.map _

/-- Before the end of some crossing path nothing ends. -/
theorem exists_first_crossing (hq : q ≠ []) (h : lexicon.Crosses q) :
    ∃ q, q ≠ [] ∧ lexicon.Crosses q ∧
      ∀ r, r ≠ [] → r <+: q → r ≠ q → ∀ u ∈ lexicon.terminators,
        r ≠ spelling u.toList ∧ .char '.' :: r ≠ spelling u.toList := by
  induction hn : q.length using Nat.strong_induction_on generalizing q with
  | _ n ih =>
    by_cases hfirst : ∃ r, r ≠ [] ∧ r <+: q ∧ r ≠ q ∧ lexicon.Crosses r
    · obtain ⟨r, hne, hr, hproper, hcross⟩ := hfirst
      exact ih _ (hn ▸ lt_of_le_of_ne hr.length_le fun hlen => hproper (hr.eq_of_length hlen))
        hne hcross rfl
    · refine ⟨q, hq, h, fun r hne hr hproper u hu => ?_⟩
      have hnot : ¬lexicon.Crosses r := fun hcross => hfirst ⟨r, hne, hr, hproper, hcross⟩
      have hdot : .char '.' :: r <+: .char '.' :: q := List.cons_prefix_cons.2 ⟨rfl, hr⟩
      rcases h with ⟨⟨s, hs, heq⟩, t, ht, hfront⟩ | ⟨⟨t, ht, heq⟩, s, hs, hfront⟩
      · exact ⟨fun hru => hnot (.inl ⟨⟨u, hu, hru⟩, t, ht, hdot.trans hfront⟩),
          fun hru => hnot (.inr ⟨⟨u, hu, hru⟩, s, hs, heq ▸ hr⟩)⟩
      · exact ⟨fun hru => hnot (.inl ⟨⟨u, hu, hru⟩, t, ht, heq ▸ hdot⟩),
          fun hru => hnot (.inr ⟨⟨u, hu, hru⟩, s, hs, hr.trans hfront⟩)⟩

end Lexicon

namespace Grammar

variable {g : Grammar} {a : Automaton}

/-- Where a path from the node of numbers with a point ends a token, what is left of the number and
the path is the first token. -/
theorem Reckons.head?_of_halts {place : NodeId → Locus} {d : Draft} (h : g.Reckons a place d)
    (ds es before cut : List Char) {x y : List Char} (hne : ds ≠ [])
    (hds : ∀ c ∈ ds, c.isDigit = true) (hes : ∀ c ∈ es, c.isDigit = true)
    (hx : x ≠ []) {label : Label}
    (hhalts : a.Halts .float (x.map .char) label (byteLength cut))
    (hcut : ds ++ '.' :: es ++ x = before ++ cut) (hbefore : before ≠ []) {z : String}
    (hz : z.toList = ds ++ '.' :: es ++ x ++ y) {tokens : List Token}
    (htokens : a.tokenize z = .ok tokens) :
    tokens.head? = some ⟨String.ofList before, label, 0⟩ := by
  rw [h.chart.tokenize_eq] at htokens
  cases hall : a.lexemes z with
  | error e => rw [hall] at htokens; cases htokens
  | ok all =>
    rw [hall] at htokens
    cases htokens
    obtain ⟨ms, rfl⟩ := Automaton.lexemes_cons (x := ds ++ '.' :: es ++ x) (fun r ls hread => by
      rw [Reading.read_append, h.read_decimal hne hds hes, ok_bind] at hread
      dsimp only at hread
      obtain ⟨⟨r₂, ms⟩, hrest, hls⟩ := bind_eq_ok.1 hread
      cases hls
      exact Reading.cons_of_read_halts
        (r := { node := .float, pending := ds ++ '.' :: es, idle := _ })
        rfl hx hhalts (fun q k hk => h.run_eq_none (.inr rfl) hk) hcut rfl hrest) hz hall
    rw [listing_cons, Lexeme.tokens, tokenAt, if_neg (by simpa using hbefore)]
    rfl

/-- If what goes on after the point at the beginning of a mark and another mark are not apart, then
some number before a mark is not the first token. -/
theorem misreckoning (h : g.compile.result = .ok a) (hreject : g.conflicts = .reject)
    (hdigits : g.DigitsApart) (hapart : ¬g.toLexicon.PointsApart) :
    ∃ (w : String) (label : Label) (t : String), g.Figure w.toList label ∧
      t ∈ literalsOf g.delimiters ++ literalsOf g.punctuation ∧
      ∀ tokens, a.tokenize (w ++ t) ≠ .ok (⟨w, label, 0⟩ :: tokens) := by
  obtain ⟨place, d, hreckons⟩ := exists_reckons h hreject hdigits
  obtain ⟨q, hq, hcross⟩ := Lexicon.exists_crosses hapart hreckons.unended
  obtain ⟨q, hq, hcross, hfirst⟩ := Lexicon.exists_first_crossing hq hcross
  have hmark {t : String} (ht : t ∈ g.terminators) (hne : t ≠ "") :
      t ∈ literalsOf g.delimiters ++ literalsOf g.punctuation :=
    (Lexicon.mem_terminators.1 ht).resolve_left hne
  by_cases hends : ∃ s ∈ g.terminators, q = spelling s.toList
  · -- The number with a point ends inside the mark after the whole number.
    obtain ⟨s, hs, rfl⟩ := hends
    obtain ⟨t, ht, more, hmore⟩ :
        ∃ t ∈ g.terminators, .char '.' :: spelling s.toList <+: spelling t.toList := by
      rcases hcross with ⟨-, hcross⟩ | ⟨⟨t, ht, heq⟩, -⟩
      · exact hcross
      · exact ⟨t, ht, heq ▸ List.prefix_rfl⟩
    have hhalts := hreckons.counts.halts_decimal hreckons.counted hs hfirst
    obtain ⟨hhead, htail⟩ := Lexicon.toList_of_spelling hmore
    obtain ⟨cs, hcs⟩ := List.head?_eq_some_iff.1 hhead
    rw [hcs, List.tail_cons] at htail
    obtain ⟨x, y, rfl, hx, -⟩ := List.map_eq_append_iff.1 htail.symm
    have htext := congrArg pathText hx
    rw [pathText_map_char, pathText_spelling] at htext
    refine ⟨"1", _, t, .whole (by simp) (by simp), hmark ht ?_, fun tokens htokens => ?_⟩
    · rintro rfl
      cases hhead
    · have hfirst := hreckons.head?_of_halts ['1'] [] ['1', '.'] s.toList (x := x) (y := y)
        (by simp) (by simp) (by simp) ?_ (hx ▸ hhalts) (by rw [htext]; rfl) (by decide) ?_ htokens
      · have hvalue : "1" = String.ofList ['1', '.'] :=
          congrArg Token.value (Option.some.inj hfirst)
        exact absurd hvalue (by decide)
      · rintro rfl
        exact hq hx.symm
      · rw [String.toList_append, hcs]
        simp
  · -- The whole number ends inside the mark after the number with a point.
    obtain ⟨⟨t, ht, heq⟩, s, hs, more, hmore⟩ := hcross.resolve_left fun hcross => hends hcross.1
    have hhalts := hreckons.counts.halts_pointed hreckons.counted ht hq heq.symm
      (fun r hne hr u hu hru => by
        by_cases hrq : r = q
        · exact hends ⟨u, hu, hrq ▸ hru⟩
        · exact (hfirst r hne hr hrq u hu).1 hru)
      fun r hne hr hproper u hu => (hfirst r hne hr hproper u hu).2
    obtain ⟨hhead, rfl⟩ := Lexicon.toList_of_spelling heq
    obtain ⟨x, hx⟩ := List.head?_eq_some_iff.1 hhead
    rw [hx, List.tail_cons] at hmore hhalts hq
    have hlength : byteLength ('.' :: x) = byteLength ('5' :: x) := rfl
    have htext := congrArg pathText hmore
    rw [pathText_append, pathText_spelling, pathText_map_char] at htext
    have hfigure : g.Figure (['1'] ++ '.' :: ['5']) g.labels.decimal :=
      .decimal (by simp) (by simp) (by simp) (by simp)
    refine ⟨"1.5", _, s, hfigure, hmark hs ?_, fun tokens htokens => ?_⟩
    · rintro rfl
      cases x with
      | nil => exact hq rfl
      | cons c x => cases hmore
    · have hfirst := hreckons.head?_of_halts ['1'] ['5'] ['1', '.'] ('5' :: x) (x := x)
        (y := pathText more)
        (by simp) (by simp) (by simp) ?_ (hlength ▸ hhalts) rfl (by simp) ?_ htokens
      · have hvalue : "1.5" = String.ofList ['1', '.'] :=
          congrArg Token.value (Option.some.inj hfirst)
        exact absurd hvalue (by decide)
      · rintro rfl
        exact hq rfl
      · rw [String.toList_append, ← htext]
        simp

/-- A grammar with ranges. -/
def ranged : Grammar where
  delimiters := [.bare ".."]
  floatsHaveLeadingNumber := true
  conflicts := .reject

theorem misreckoning_ranged : ∃ a, ranged.compile.result = .ok a ∧
    ∃ (w : String) (label : Label) (t : String), ranged.Figure w.toList label ∧
      t ∈ literalsOf ranged.delimiters ++ literalsOf ranged.punctuation ∧
      ∀ tokens, a.tokenize (w ++ t) ≠ .ok (⟨w, label, 0⟩ :: tokens) := by
  obtain ⟨a, -, -, ha, -⟩ := ranged.exists_run [] (by decide +kernel)
  exact ⟨a, ha, misreckoning ha rfl (by decide +kernel) (by decide)⟩

/-- The point after `1.5` stands where the range after a whole number ends, whose two characters are
cut off then: the number is broken up behind its point. -/
theorem tokenize_ranged : ∃ a, ranged.conflicts = .reject ∧ ranged.DigitsApart ∧
    ranged.Figure "1.5".toList ranged.labels.decimal ∧ ".." ∈ literalsOf ranged.delimiters ∧
    ranged.compile.result = .ok a ∧ a.tokenize ("1.5" ++ "..9") =
      .ok [⟨"1.", "NUMBER", 0⟩, ⟨"5", "NUMBER", 2⟩, ⟨"9", "NUMBER", 5⟩] := by
  have htokens :
      (ranged.compile.result.toOption.bind fun a => (a.tokenize ("1.5" ++ "..9")).toOption) =
        some [⟨"1.", "NUMBER", 0⟩, ⟨"5", "NUMBER", 2⟩, ⟨"9", "NUMBER", 5⟩] := by
    decide +kernel
  obtain ⟨a, ha, htokens⟩ := exists_tokens htokens
  have hfigure : ranged.Figure (['1'] ++ '.' :: ['5']) ranged.labels.decimal :=
    .decimal (by simp) (by simp) (by simp) (by simp)
  exact ⟨a, rfl, by decide +kernel, hfigure, by decide, ha, htokens⟩

end Grammar

end TrieLexer
