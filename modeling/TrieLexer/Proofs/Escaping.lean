import TrieLexer.Proofs.Forgetting
import TrieLexer.Proofs.Naming
import TrieLexer.Proofs.Terminating

/-!
# Escapes

A run whose terminator and halt marker are single characters has nothing but these and the end of
input below its body. So every character leads to the body or to an end of the run, and at an end
the escape characters before it are counted: an odd number of them leads back to the body. The run
goes on up to the first end with an even number before it.

## Main definitions

* `GreedyMatcher.Brief` — the ends of a run are single characters.
* `GreedyMatcher.exit` — the label under which a symbol ends a run.
* `GreedyMatcher.EndsAfter`, `GreedyMatcher.GoesOn` — a character ends a run, and no character of a
  text does.
* `GreedyMatcher.Runs` — the tokens of a run.
* `Automaton.Hub` — the body of a run whose ends are single symbols.
* `Reading.Dwells` — a scan inside such a run.

## Main results

* `Close.Exits.isEscaped_iff` — an end is escaped by an odd number of escape characters.
* `Reading.Dwells.read`, `Reading.Dwells.advance_close` — the run goes on, and ends.
* `Grammar.escaping` — a run ends at the first end that is not escaped.
* `Grammar.escaping_faulty` — unless the scan of its interior fails.
-/

namespace TrieLexer

open Text (byteLength)

/-! ### Ends of single characters -/

namespace GreedyMatcher

variable {γ : Type}

/-- The terminator of a run is a character, and so is its halt marker, if it has one. They are
different. -/
structure Brief (m : GreedyMatcher γ) : Prop where
  terminator : ∃ c, m.terminator = some (.singleton c)
  haltMarker {marker : String} (h : m.haltMarker = some marker) : ∃ c, marker = .singleton c
  apart : m.haltMarker ≠ m.terminator

/-- The label under which a symbol ends a run whose ends are single characters. -/
def exit (m : GreedyMatcher γ) (labels : Labels) : Symbol → Option Label
  | .endOfInput => some (labels.halted m.kind)
  | .char c =>
    if m.terminator = some (.singleton c) then some m.kind
    else if m.haltMarker = some (.singleton c) then some (labels.halted m.kind)
    else none

/-- A character after an interior ends the run: it is one of its ends, and not escaped. -/
def EndsAfter (m : GreedyMatcher γ) (labels : Labels) (interior : List Char) (c : Char)
    (label : Label) : Prop :=
  m.exit labels (.char c) = some label ∧ m.Unescaped interior

/-- No character of a text ends the run. -/
def GoesOn (m : GreedyMatcher γ) (labels : Labels) (x : List Char) : Prop :=
  ∀ u c v label, x = u ++ c :: v → ¬m.EndsAfter labels u c label

theorem goesOn_iff {m : GreedyMatcher γ} {labels : Labels} {x : List Char} :
    m.GoesOn labels x ↔ ∀ i (hi : i < x.length),
      m.exit labels (.char x[i]) = none ∨ ¬m.Unescaped (x.take i) := by
  refine ⟨fun h i hi => ?_, fun h u c v label hx => ?_⟩
  · cases hexit : m.exit labels (.char x[i]) with
    | none => exact .inl rfl
    | some label =>
      refine .inr fun hu => h (x.take i) x[i] (x.drop (i + 1)) label ?_ ⟨hexit, hu⟩
      rw [List.cons_getElem_drop_succ, List.take_append_drop]
  · subst hx
    rintro ⟨hexit, hu⟩
    have hends := h u.length (by rw [List.length_append, List.length_cons]; omega)
    rw [List.getElem_append_right (Nat.le_refl _), List.take_left] at hends
    simp only [Nat.sub_self, List.getElem_cons_zero, hexit, reduceCtorEq, false_or] at hends
    exact hends hu

instance (m : GreedyMatcher γ) (u : List Char) : Decidable (m.Unescaped u) :=
  List.decidableBAll (fun escape => (u.reverse.takeWhile (· == escape)).length % 2 = 0)
    m.escapeChars

instance (m : GreedyMatcher γ) (labels : Labels) (u : List Char) (c : Char) (label : Label) :
    Decidable (m.EndsAfter labels u c label) :=
  inferInstanceAs (Decidable (m.exit labels (.char c) = some label ∧ m.Unescaped u))

instance (m : GreedyMatcher γ) (labels : Labels) (x : List Char) :
    Decidable (m.GoesOn labels x) :=
  decidable_of_iff _ goesOn_iff.symm

/-- The tokens of a run at a position: a single one, or, if the interior has a grammar, the opener,
the tokens of the interior alone and the end of the run. -/
inductive Runs (m : GreedyMatcher Grammar) (label : Label) (interior last : String)
    (position : Nat) : List Token → Prop
  | whole (h : m.subGrammar = none) :
      Runs m label interior last position [⟨m.startsWith ++ interior ++ last, label, position⟩]
  | nested {i : Grammar} {b : Automaton} {tokens : List Token} (h : m.subGrammar = some i)
      (hb : i.compile.result = .ok b) (htokens : b.tokenize interior = .ok tokens) :
      Runs m label interior last position (⟨m.startsWith, label, position⟩ ::
        tokens.map (·.shifted (position + m.startsWith.utf8ByteSize)) ++
        tokenAt (position + (m.startsWith ++ interior).utf8ByteSize) last.toList (some label))

end GreedyMatcher

/-- An end of a run at a single symbol. -/
structure Close.Exits (c : Close) (m : GreedyMatcher Grammar) (label : Label) (b : NodeId)
    (nested : Option RunId) (s : Symbol) : Prop where
  label : c.label = label
  body : c.body = b
  nested : c.nested = nested
  openerLength : c.openerLength = byteLength m.startsWith.toList
  terminatorLength : c.terminatorLength = byteLength s.text
  escape_stop (h : s = .endOfInput) : c.escape = none
  escape (h : s ≠ .endOfInput) : m.escape = .ok c.escape

/-- Before an end that is not escaped stands an even number of escape characters. The end of input
is never escaped. -/
theorem Close.Exits.isEscaped_iff {c : Close} {m : GreedyMatcher Grammar} {label : Label}
    {b : NodeId} {nested : Option RunId} {s : Symbol} (h : c.Exits m label b nested s)
    (u : List Char) : ∃ escaped, c.isEscaped (m.startsWith.toList ++ u ++ s.text) = .ok escaped ∧
      (escaped = false ↔ s = .endOfInput ∨ m.Unescaped u) := by
  by_cases hs : s = .endOfInput
  · exact ⟨false, by rw [Close.isEscaped, h.escape_stop hs], iff_of_true rfl (.inl hs)⟩
  · have hescape := h.escape hs
    rw [GreedyMatcher.escape] at hescape
    split at hescape
    · next hnil =>
      refine ⟨false, by rw [Close.isEscaped, ← Except.ok.inj hescape], iff_of_true rfl (.inr ?_)⟩
      rw [GreedyMatcher.Unescaped, hnil]
      exact List.forall_mem_nil _
    · next e hone =>
      have hback : cutBack c.terminatorLength (m.startsWith.toList ++ u ++ s.text) =
          .ok (m.startsWith.toList ++ u, s.text) := cutBack_eq_ok.2 ⟨rfl, h.terminatorLength.symm⟩
      have hfront : cutFront c.openerLength (m.startsWith.toList ++ u) =
          .ok (m.startsWith.toList, u) := cutFront_eq_ok.2 ⟨rfl, h.openerLength.symm⟩
      refine ⟨(u.reverse.takeWhile (· == e)).length % 2 == 1, ?_, ?_⟩
      · rw [Close.isEscaped, ← Except.ok.inj hescape]
        dsimp only
        rw [hback, ok_bind]
        dsimp only
        rw [hfront, ok_bind]
        rfl
      · rw [GreedyMatcher.Unescaped, hone, List.forall_mem_singleton, or_iff_right hs]
        simp
    · cases hescape

/-! ### The body of such a run -/

theorem stamp_singleton (s : Symbol) (way last : Face) (q : List Symbol) (old : Option Face) :
    stamp [s] way last q old = if q = [s] then some last else old := by
  rw [stamp]
  split
  · rfl
  · next hne =>
    rw [if_neg]
    rintro ⟨hnil, hprefix⟩
    rcases List.prefix_cons_iff.1 hprefix with rfl | ⟨rest, rfl, hrest⟩
    · exact hnil rfl
    · exact hne (by rw [List.prefix_nil.1 hrest])

/-- The ends of a run leave the body as it was. -/
theorem imprint_nil (closings : List (String × Close)) (b : NodeId) (old : Option Face) :
    imprint closings b [] old = old := by
  rw [imprint]
  induction closings generalizing old with
  | nil => rfl
  | cons c closings ih =>
    rw [List.foldl_cons, ih, stamp, if_neg (spelling_ne_nil _).symm, if_neg fun h => h.1 rfl]

/-- The body of a run whose ends are single symbols: every symbol leads to an end of the run or
nowhere. -/
structure Automaton.Hub (a : Automaton) (place : NodeId → Locus) (labels : Labels)
    (m : GreedyMatcher Grammar) (nested : Option RunId) (b : NodeId) : Prop where
  nests : (compileMatcher m).Nests a.runs nested
  body : ∃ m' nested', place b = ⟨.body b m' nested', []⟩
  run : (a.behaviour b).run = nested
  stay : (a.behaviour b).fallback = .stay
  idle : (a.behaviour b).action = .none
  inside {s : Symbol} (h : m.exit labels s = none) : a.trie.child? b s = none
  ends {s : Symbol} {label : Label} (h : m.exit labels s = some label) : ∃ z c,
    a.trie.child? b s = some z ∧ (a.behaviour z).action = .close c ∧ c.Exits m label b nested s

/-- What the ends of a run leave at a single symbol below its body. -/
theorem Lexicon.imprint_exit (lexicon : Lexicon) {m : GreedyMatcher Grammar} (h : m.Brief)
    {terminator : String} (ht : m.terminator = some terminator) {escape : Option Char}
    (hescape : m.escape = .ok escape) (b : NodeId) (nested : Option RunId) (s : Symbol) :
    (m.exit lexicon.labels s = none →
      imprint (lexicon.closings (compileMatcher m) terminator escape b nested) b [s] none = none) ∧
    ∀ label, m.exit lexicon.labels s = some label → ∃ c, c.Exits m label b nested s ∧
      imprint (lexicon.closings (compileMatcher m) terminator escape b nested) b [s] none =
        some (.closed c) := by
  obtain ⟨t, hsingle⟩ := h.terminator
  obtain rfl : terminator = .singleton t := Option.some.inj (ht.symm.trans hsingle)
  have hstamp (c : Char) (way last : Face) (old : Option Face) :
      stamp (spelling (String.singleton c).toList) way last [s] old =
        if s = .char c then some last else old := by
    rw [String.toList_singleton]
    refine (stamp_singleton (.char c) way last [s] old).trans ?_
    simp only [List.cons.injEq, and_true]
  have hstop (way last : Face) (old : Option Face) :
      stamp (spelling "".toList) way last [s] old =
        if s = .endOfInput then some last else old := by
    refine (stamp_singleton .endOfInput way last [s] old).trans ?_
    simp only [List.cons.injEq, and_true]
  have hlength (c : Char) : byteLength (String.singleton c).toList = byteLength [c] := by
    rw [String.toList_singleton]
  have hsingleton {c d : Char} : some (String.singleton c) = some (String.singleton d) ↔ c = d := by
    rw [Option.some_inj, ← String.toList_inj, String.toList_singleton, String.toList_singleton,
      List.cons.injEq, and_iff_left rfl]
  have hkind : (compileMatcher m).kind = m.kind := by cases m; rw [compileMatcher]
  have hmarker : (compileMatcher m).haltMarker = m.haltMarker := by
    cases m
    rw [compileMatcher]
    rfl
  rw [Lexicon.closings, hkind, hmarker, startsWith_compileMatcher]
  generalize hface : imprint _ b [s] none = face
  have hends {label : Label} {c : Close} (hexit : m.exit lexicon.labels s = some label)
      (hc : c.Exits m label b nested s) (hclosed : face = some (.closed c)) :
      (m.exit lexicon.labels s = none → face = none) ∧
        ∀ label, m.exit lexicon.labels s = some label →
          ∃ c, c.Exits m label b nested s ∧ face = some (.closed c) := by
    rw [hexit]
    refine ⟨fun h => absurd h (Option.some_ne_none _), fun label' h => ?_⟩
    cases h
    exact ⟨c, hc, hclosed⟩
  have hgoes (hexit : m.exit lexicon.labels s = none) (hnone : face = none) :
      (m.exit lexicon.labels s = none → face = none) ∧
        ∀ label, m.exit lexicon.labels s = some label →
          ∃ c, c.Exits m label b nested s ∧ face = some (.closed c) := by
    rw [hexit]
    exact ⟨fun _ => hnone, fun label h => absurd h.symm (Option.some_ne_none _)⟩
  cases hhalt : m.haltMarker with
  | none =>
    simp only [hhalt, Option.toList_none, List.map_nil, imprint, List.foldl_cons, List.foldl_nil,
      hstamp, hstop] at hface
    cases s with
    | endOfInput =>
      exact hends rfl ⟨rfl, rfl, rfl, rfl, rfl, fun _ => rfl, fun h => absurd rfl h⟩ hface.symm
    | char c =>
      simp only [Symbol.char.injEq] at hface
      by_cases hc : t = c
      · subst hc
        rw [if_pos rfl] at hface
        refine hends ?_ ⟨rfl, rfl, rfl, rfl, hlength t, by rintro ⟨⟩, fun _ => hescape⟩ hface.symm
        rw [GreedyMatcher.exit, if_pos ht]
      · rw [if_neg (Ne.symm hc)] at hface
        refine hgoes ?_ hface.symm
        simp only [GreedyMatcher.exit, ht, hhalt, hsingleton, hc, reduceCtorEq, if_false]
  | some marker =>
    obtain ⟨d, rfl⟩ := h.haltMarker hhalt
    have hne : d ≠ t := by
      rintro rfl
      exact h.apart (hhalt.trans ht.symm)
    simp only [hhalt, Option.toList_some, List.map_cons, List.map_nil, imprint, List.foldl_cons,
      List.foldl_nil, hstamp, hstop] at hface
    cases s with
    | endOfInput =>
      exact hends rfl ⟨rfl, rfl, rfl, rfl, rfl, fun _ => rfl, fun h => absurd rfl h⟩ hface.symm
    | char c =>
      simp only [Symbol.char.injEq] at hface
      by_cases hc : t = c
      · subst hc
        rw [if_neg (Ne.symm hne), if_pos rfl] at hface
        refine hends ?_ ⟨rfl, rfl, rfl, rfl, hlength t, by rintro ⟨⟩, fun _ => hescape⟩ hface.symm
        rw [GreedyMatcher.exit, if_pos ht]
      · by_cases hd : d = c
        · subst hd
          rw [if_pos rfl] at hface
          refine hends ?_ ⟨rfl, rfl, rfl, rfl, hlength d, by rintro ⟨⟩, fun _ => hescape⟩ hface.symm
          simp only [GreedyMatcher.exit, ht, hhalt, hsingleton, hc, if_false, if_true]
        · rw [if_neg (Ne.symm hd), if_neg (Ne.symm hc)] at hface
          refine hgoes ?_ hface.symm
          simp only [GreedyMatcher.exit, ht, hhalt, hsingleton, hc, hd, if_false]

/-- Below the body of a run whose ends are single characters stand these ends. -/
theorem Grammar.hub_of_ends {g : Grammar} {a : Automaton} {m : GreedyMatcher Grammar} {b : NodeId}
    {place : NodeId → Locus} {m' : GreedyMatcher Compilation} {nested' nested : Option RunId}
    (hb : place b = ⟨.body b m' nested', []⟩) {terminator : String} {escape : Option Char}
    (h : g.toLexicon.Ends (compileMatcher m) terminator escape nested b a) (hbrief : m.Brief) :
    a.Hub place g.labels m nested b := by
  have ht : m.terminator = some terminator := (terminator_compileMatcher m).symm.trans h.ends
  have hescape : m.escape = .ok escape := by
    refine Eq.trans ?_ h.escapes
    cases m
    rw [compileMatcher]
    rfl
  have himprint := g.toLexicon.imprint_exit hbrief ht hescape b nested
  have hfollow (s : Symbol) : a.trie.follow? b [s] = a.trie.child? b s :=
    Trie.follow?_concat a.trie b [] s
  obtain ⟨n, hn, hstay, hidle⟩ := h.shelves.there (imprint_nil _ b (vacant []))
  cases hn
  refine ⟨h.nests, ⟨m', nested', hb⟩, h.run, hstay, hidle, fun {s} hs => ?_, fun {s label} hs => ?_⟩
  · exact (hfollow s).symm.trans (h.shelves.absent ((himprint s).1 hs))
  · obtain ⟨c, hc, hface⟩ := (himprint s).2 label hs
    obtain ⟨z, hz, -, haction⟩ := h.shelves.there hface
    exact ⟨z, c, (hfollow s).symm.trans hz, haction, hc⟩

/-- A symbol leads from here as it does from the body of a run. -/
def StateGraph.Opens (g : StateGraph) (b n : NodeId) : Prop :=
  n = b ∨ g.trie.edges n = [] ∧ (g.behaviour n).fallback = .reroute b

namespace Automaton.Hub

variable {a : Automaton} {place : NodeId → Locus} {labels : Labels} {m : GreedyMatcher Grammar}
  {nested : Option RunId} {b n : NodeId}

/-- A symbol leads to an end of the run or to the body. -/
theorem resolve (h : a.Hub place labels m nested b) (hn : a.Opens b n) (s : Symbol) :
    a.resolve n s = .node ((a.trie.child? b s).getD b) := by
  have hbody (hops : Nat) : a.resolveWithin hops b s = .node ((a.trie.child? b s).getD b) := by
    rw [StateGraph.resolveWithin, h.stay]
    cases a.trie.child? b s <;> rfl
  rcases hn with rfl | ⟨hedges, hback⟩
  · exact hbody _
  · obtain ⟨z, -, hz, -⟩ := h.ends (s := .endOfInput) rfl
    obtain ⟨hops, hsize⟩ := Nat.exists_eq_succ_of_ne_zero
      (Nat.ne_of_gt (Nat.zero_lt_of_lt (Trie.lt_size_of_child? hz)))
    rw [StateGraph.resolve, hsize, StateGraph.resolveWithin, Trie.child?, hedges, Edges.find?_nil,
      hback]
    exact hbody hops

/-- The nested run of a body, if there is one. -/
theorem exists_interior (h : a.Hub place labels m nested b) {id : RunId} (hid : nested = some id) :
    ∃ i spec, m.subGrammar = some i ∧ a.runs[id]? = some spec ∧
      i.compile.result = .ok spec.automaton ∧
      spec.openerLength = byteLength m.startsWith.toList := by
  have hnests := h.nests
  rw [hid] at hnests
  obtain ⟨c, automaton, _, hc, hresult, -, hspec⟩ := hnests
  rw [subGrammar_compileMatcher] at hc
  obtain ⟨i, hi, rfl⟩ := Option.map_eq_some_iff.1 hc
  exact ⟨i, _, hi, hspec, hresult, by rw [startsWith_compileMatcher]⟩

theorem subGrammar_eq_none (h : a.Hub place labels m none b) : m.subGrammar = none := by
  have hnests : (compileMatcher m).subGrammar = none := h.nests
  rwa [subGrammar_compileMatcher, Option.map_eq_none_iff] at hnests

end Automaton.Hub

/-! ### Scanning such a run -/

namespace Reading

variable {lexicon : Lexicon} {matchers : List (GreedyMatcher Compilation)} {a : Automaton}
  {place : NodeId → Locus} {labels : Labels} {m : GreedyMatcher Grammar} {nested : Option RunId}
  {b : NodeId} {r r₁ r₂ r' : Reading} {u : List Char} {s : Symbol} {label : Label}
  {inner : InnerScan} {ls : List Lexeme}

/-- A run is given out in the parts of what is pending. -/
theorem giveOut_parts {pending opener interior terminator : List Char}
    {idle : Array (Option Progress)} {run : NestedScan Progress} {c : Close}
    (hs : giveOut inner pending idle run c = .ok (r', ls))
    (hpending : pending = opener ++ interior ++ terminator)
    (hterminator : byteLength terminator = c.terminatorLength)
    (hopener : byteLength opener = run.interior) :
    r'.toCursor = {} ∧ r'.run = none ∧
      ∃ tokens, ls = [.nested opener interior terminator c tokens] := by
  obtain ⟨opener', interior', terminator', tokens, idle', hpending', hopener', hterminator', rfl,
    rfl⟩ := exists_of_giveOut hs
  obtain ⟨rfl, rfl, rfl⟩ := Text.append_append_inj_of_byteLength (hpending.symm.trans hpending')
    (hopener.trans hopener'.symm) (hterminator.trans hterminator'.symm)
  exact ⟨rfl, rfl, _, rfl⟩

/-- A scan inside a run, with the opener and an interior pending. -/
structure Dwells (a : Automaton) (place : NodeId → Locus) (m : GreedyMatcher Grammar) (b : NodeId)
    (u : List Char) (r : Reading) : Prop where
  sound : r.Sound a place 0
  fed : r.Fed a.inner
  node : a.Opens b r.node
  pending : r.pending = m.startsWith.toList ++ u

variable (hchart : Charted lexicon matchers a place) {clean : Prop} (hlawful : Lawful clean a)
  (hhub : a.Hub place labels m nested b)

include hchart hlawful hhub

/-- A symbol leads to an end of the run or to the body, and joins the interior. -/
theorem Dwells.exists_landed (hr : r.Dwells a place m b u) (s : Symbol) : ∃ r₁ : Reading,
    (r.advance a a.inner s = do
      let (r, out) ← r₁.act a a.inner
      let r ← r.feed a.inner
      return (r, out)) ∧
    r₁.node = (a.trie.child? b s).getD b ∧ r₁.pending = m.startsWith.toList ++ u ++ s.text ∧
    r₁.Poised a place (byteLength s.text) ∧ r₁.Fed a.inner := by
  have hmove : a.move r.toCursor s =
      .ok (⟨(a.trie.child? b s).getD b, r.pending ++ s.text⟩, []) := by
    rw [StateGraph.move, hhub.resolve hr.node]
  have hsafe : Safe True (Reading.enter a { r with
      toCursor := ⟨(a.trie.child? b s).getD b, r.pending ++ s.text⟩ }) := safe_enter hchart
  obtain ⟨r₁, henter⟩ := hsafe.exists trivial
  have hcursor := enter_toCursor henter
  refine ⟨r₁, ?_, congrArg Cursor.node hcursor, ?_, hr.sound.enter hchart hmove henter,
    hr.fed.landed (fun id spec hs => hlawful.takes hs) hr.sound hchart hmove henter⟩
  · rw [Reading.advance, hmove, ok_bind]
    dsimp only
    rw [henter]
    rfl
  · rw [hcursor, ← hr.pending]

variable (hsafe : ∀ id, nested = some id → a.inner.IsSafe True id)

include hsafe

/-- Where nothing is given out, the run goes on from its body. -/
theorem Dwells.advance_of_act (hr : r.Dwells a place m b u)
    (hadvance : r.advance a a.inner s = (do
      let (r, out) ← r₁.act a a.inner
      let r ← r.feed a.inner
      return (r, out)))
    (hpoised : r₁.Poised a place (byteLength s.text)) (hfed : r₁.Fed a.inner)
    (hact : r₁.act a a.inner = .ok (r₂, [])) (hnode : r₂.node = b)
    (hpending : r₂.pending = m.startsWith.toList ++ u ++ s.text) : ∃ r',
    r.advance a a.inner s = .ok (r', []) ∧ r'.Dwells a place m b (u ++ s.text) := by
  have htakes (id : RunId) (spec : NestedRun Automaton) (hs : a.runs[id]? = some spec) :
      a.inner.Takes id := hlawful.takes hs
  have hsound := hpoised.act hchart hact
  have hfed₂ := (hpoised.scanned_act htakes hfed hchart hact).1
  have hfeed : Safe True (r₂.feed a.inner) := by
    cases hrun : r₂.run with
    | none =>
      rw [Reading.feed, hrun]
      exact safe_of_eq_ok ⟨_, rfl⟩
    | some run =>
      have hw := hsound.run hrun
      obtain ⟨b', m', path, hregion⟩ := hw.region
      obtain ⟨m'', nested', hbody⟩ := hhub.body
      rw [hnode, hbody] at hregion
      obtain rfl : nested = some run.id := by
        rw [← hhub.run, (hchart.body hbody).2.1]
        injection hregion with horigin
        injection horigin
      obtain ⟨i, spec, -, hspec, -, hlength⟩ := hhub.exists_interior rfl
      obtain ⟨spec', hspec', hinterior, -⟩ := hw.spec
      cases hspec.symm.trans hspec'
      refine safe_feed_run hw hrun (hfed₂ run hrun) (htakes _ _ hspec) (hsafe _ rfl) fun _ =>
        ⟨m.startsWith.toList, ?_, (hinterior.trans hlength).symm⟩
      rw [hpending, List.append_assoc]
      exact List.prefix_append _ _
  obtain ⟨r', hfeed⟩ := hfeed.exists trivial
  rw [hact, ok_bind] at hadvance
  dsimp only at hadvance
  rw [hfeed] at hadvance
  have hcursor := feed_toCursor hfeed
  exact ⟨r', hadvance, hr.sound.advance hchart hadvance,
    (hr.sound.advance_scanned htakes hr.fed hchart hadvance).1,
    .inl ((congrArg Cursor.node hcursor).trans hnode),
    ((congrArg Cursor.pending hcursor).trans hpending).trans (List.append_assoc _ _ _)⟩

/-- A symbol that is no end of the run goes on inside it. -/
theorem Dwells.advance_inside (hr : r.Dwells a place m b u) (hs : m.exit labels s = none) : ∃ r',
    r.advance a a.inner s = .ok (r', []) ∧ r'.Dwells a place m b (u ++ s.text) := by
  obtain ⟨r₁, hadvance, hnode, hpending, hpoised, hfed⟩ := hr.exists_landed hchart hlawful hhub s
  rw [hhub.inside hs] at hnode
  refine hr.advance_of_act hchart hlawful hhub hsafe hadvance hpoised hfed ?_ hnode hpending
  rw [act, hnode, Option.getD_none, hhub.idle]
  dsimp only
  rw [settle, hnode, Option.getD_none, hhub.idle]

/-- So does an end that is escaped. -/
theorem Dwells.advance_escaped (hr : r.Dwells a place m b u) (hs : m.exit labels s = some label)
    (hstop : s ≠ .endOfInput) (hescaped : ¬m.Unescaped u) : ∃ r',
    r.advance a a.inner s = .ok (r', []) ∧ r'.Dwells a place m b (u ++ s.text) := by
  obtain ⟨r₁, hadvance, hnode, hpending, hpoised, hfed⟩ := hr.exists_landed hchart hlawful hhub s
  obtain ⟨z, c, hz, haction, hc⟩ := hhub.ends hs
  obtain ⟨escaped, hisEscaped, hiff⟩ := hc.isEscaped_iff u
  obtain rfl : escaped = true := by
    rw [← Bool.not_eq_false, hiff]
    exact not_or.2 ⟨hstop, hescaped⟩
  rw [hz, Option.getD_some] at hnode
  refine hr.advance_of_act hchart hlawful hhub hsafe hadvance hpoised hfed
    (?_ : r₁.act a a.inner = .ok ({ r₁ with node := c.body }, [])) hc.body hpending
  rw [act, hnode, haction]
  dsimp only
  rw [settle, hnode, haction]
  dsimp only
  rw [Reading.close, hpending, hisEscaped]
  rfl

omit hlawful hsafe in
/-- A run without a nested run is given out as one lexeme. -/
theorem Poised.exists_whole {slack : Nat} {c : Close} (hr : r.Poised a place slack)
    (hc : c.Exits m label b nested s) (hclose : (a.behaviour r.node).action = .close c)
    (hpending : r.pending = m.startsWith.toList ++ u ++ s.text) (hopener : m.startsWith ≠ "")
    (hescaped : c.isEscaped r.pending = .ok false) (hnested : nested = none) : ∃ r' l,
    r.close a a.inner c = .ok (r', [l]) ∧ r'.toCursor = {} ∧ r'.run = none ∧
      ∀ position, m.Runs label (String.ofList u) (String.ofList s.text) position
        (l.tokens position) := by
  subst hnested
  have hrun : r.run = none := by
    cases hrun : r.run with
    | none => rfl
    | some run => cases hc.nested.symm.trans (hr.nested_of_run hchart hrun hclose).1
  have hne : r.pending ≠ [] := by
    rw [hpending, List.append_assoc]
    exact List.append_ne_nil_of_left_ne_nil (mt String.toList_eq_nil_iff.1 hopener) _
  refine ⟨{ run := r.run, idle := r.idle }, .whole r.pending c, ?_, rfl, hrun, fun position => ?_⟩
  · rw [Reading.close, hescaped, ok_bind, hc.nested]
    rfl
  · rw [listing_whole position hne, hc.label, hpending, String.ofList_append, String.ofList_append,
      String.ofList_toList]
    exact .whole hhub.subGrammar_eq_none

/-- A nested run is given out with the tokens of its interior. -/
theorem Poised.exists_nested {slack : Nat} {c : Close} (hr : r.Poised a place slack)
    (hfed : r.Fed a.inner) (hc : c.Exits m label b nested s)
    (hclose : (a.behaviour r.node).action = .close c)
    (hpending : r.pending = m.startsWith.toList ++ u ++ s.text) (hopener : m.startsWith ≠ "")
    (hescaped : c.isEscaped r.pending = .ok false) {id : RunId} (hnested : nested = some id) :
    ∃ r' l, r.close a a.inner c = .ok (r', [l]) ∧ r'.toCursor = {} ∧ r'.run = none ∧
      ∀ position, m.Runs label (String.ofList u) (String.ofList s.text) position
        (l.tokens position) := by
  have htakes (id : RunId) (spec : NestedRun Automaton) (hs : a.runs[id]? = some spec) :
      a.inner.Takes id := hlawful.takes hs
  have hid : c.nested = some id := hc.nested.trans hnested
  obtain ⟨i, spec, hi, hspec, hresult, hlength⟩ := hhub.exists_interior hnested
  have hcurrent : ∃ x, r.current a id = .ok x := by
    rw [Reading.current]
    split
    · exact ⟨_, rfl⟩
    · exact Automaton.exists_wake hspec _ _
  obtain ⟨⟨run, idle⟩, hcurrent⟩ := hcurrent
  obtain ⟨hinterior, -, hfed', hfront⟩ := hr.current hchart hclose hid hcurrent
  have hopens : byteLength m.startsWith.toList = run.interior :=
    hc.openerLength.symm.trans hinterior.symm
  have hrun : run.Fed a.inner r.pending ∧ run.id = id := by
    rw [Reading.current] at hcurrent
    split at hcurrent
    · next hsome =>
      cases hcurrent
      exact ⟨hfed run hsome,
        Option.some.inj ((hr.nested_of_run hchart hsome hclose).1.symm.trans hid)⟩
    · exact NestedScan.fed_of_wake htakes hcurrent r.pending
  obtain ⟨hrun, rfl⟩ := hrun
  obtain ⟨⟨r', ls⟩, hgiveOut⟩ := (safe_giveOut hrun (htakes _ _ hspec)
    (hsafe _ hnested) hinterior hfed' hfront fun _ => ⟨_, u, s.text, hpending,
      hc.openerLength.symm, hc.terminatorLength.symm⟩).exists trivial
  have hall : r.close a a.inner c = .ok (r', ls) := by
    rw [Reading.close, hescaped, ok_bind, hid]
    dsimp only
    rw [if_neg Bool.false_ne_true, hcurrent]
    exact hgiveOut
  obtain ⟨hcursor, hnone, tokens, rfl⟩ :=
    giveOut_parts hgiveOut hpending hc.terminatorLength.symm hopens
  obtain ⟨-, hscanned⟩ := hr.scanned_close htakes hfed hchart hclose hall
  obtain ⟨id', spec', hid', hspec', htokens⟩ :=
    Lexeme.Scanned.tokenize hlawful (hscanned _ List.mem_cons_self)
  cases hid.symm.trans hid'
  cases hspec.symm.trans hspec'
  refine ⟨r', _, hall, hcursor, hnone, fun position => ?_⟩
  have hruns : m.Runs label (String.ofList u) (String.ofList s.text) position _ :=
    .nested hi hresult htokens
  rw [Lexeme.tokens, hc.label, tokenAt, if_neg (by simpa using hopener), String.ofList_toList,
    ← Text.utf8ByteSize_eq]
  rw [String.toList_ofList, Text.utf8ByteSize_eq (_ ++ _), String.toList_append,
    String.toList_ofList] at hruns
  exact hruns

/-- An end that is not escaped ends the run. -/
theorem Dwells.advance_close (hr : r.Dwells a place m b u) (hopener : m.startsWith ≠ "")
    (hs : m.exit labels s = some label) (hends : s = .endOfInput ∨ m.Unescaped u) : ∃ r' l,
    r.advance a a.inner s = .ok (r', [l]) ∧ r'.toCursor = {} ∧
      ∀ position, m.Runs label (String.ofList u) (String.ofList s.text) position
        (l.tokens position) := by
  obtain ⟨r₁, hadvance, hnode, hpending, hpoised, hfed⟩ := hr.exists_landed hchart hlawful hhub s
  obtain ⟨z, c, hz, haction, hc⟩ := hhub.ends hs
  obtain ⟨escaped, hescaped, hiff⟩ := hc.isEscaped_iff u
  obtain rfl := hiff.2 hends
  rw [← hpending] at hescaped
  rw [hz, Option.getD_some] at hnode
  have hclose : (a.behaviour r₁.node).action = .close c := by rw [hnode, haction]
  have hact : r₁.act a a.inner = r₁.close a a.inner c := by
    rw [act, hclose]
    dsimp only
    rw [settle, hclose]
  suffices hgiven : ∃ r' l, r₁.close a a.inner c = .ok (r', [l]) ∧ r'.toCursor = {} ∧
      r'.run = none ∧ ∀ position, m.Runs label (String.ofList u) (String.ofList s.text) position
        (l.tokens position) by
    obtain ⟨r', l, hall, hcursor, hrun, hruns⟩ := hgiven
    refine ⟨r', l, ?_, hcursor, hruns⟩
    rw [hadvance, hact, hall, ok_bind]
    dsimp only
    rw [Reading.feed, hrun]
    rfl
  cases hnested : nested with
  | none =>
    exact hpoised.exists_whole hchart hhub hc hclose hpending hopener hescaped hnested
  | some id =>
    exact hpoised.exists_nested hchart hlawful hhub hsafe hfed hc hclose hpending hopener hescaped
      hnested

/-- A text goes on inside the run, as long as no character of it ends the run. -/
theorem Dwells.read (hr : r.Dwells a place m b u) {x : List Char}
    (hx : ∀ v c w l, x = v ++ c :: w → ¬m.EndsAfter labels (u ++ v) c l) : ∃ r',
    r.read a a.inner x = .ok (r', []) ∧ r'.Dwells a place m b (u ++ x) := by
  induction x generalizing r u with
  | nil => exact ⟨r, rfl, by rwa [List.append_nil]⟩
  | cons c x ih =>
    have hfirst : ∃ r', r.advance a a.inner (.char c) = .ok (r', []) ∧
        r'.Dwells a place m b (u ++ [c]) := by
      cases hs : m.exit labels (.char c) with
      | none => exact hr.advance_inside hchart hlawful hhub hsafe hs
      | some label =>
        refine hr.advance_escaped hchart hlawful hhub hsafe hs nofun fun hu => ?_
        exact hx [] c x label rfl ⟨hs, by rwa [List.append_nil]⟩
    obtain ⟨r₁, hadvance, hr₁⟩ := hfirst
    obtain ⟨r', hread, hr'⟩ := ih hr₁ fun v d w l hvw => by
      rw [List.append_assoc]
      exact hx (c :: v) d w l (by rw [hvw]; rfl)
    refine ⟨r', ?_, by rwa [List.append_assoc] at hr'⟩
    rw [Reading.read, hadvance, ok_bind]
    dsimp only
    rw [hread]
    rfl

/-- The end of input halts the run. -/
theorem Dwells.finish (hr : r.Dwells a place m b u) (hopener : m.startsWith ≠ "") : ∃ r' l,
    r.finish a a.inner = .ok (r', [l, .plain [] none]) ∧ r'.toCursor = {} ∧
      ∀ position, m.Runs (labels.halted m.kind) (String.ofList u) "" position
        (l.tokens position) := by
  obtain ⟨r₁, l, hadvance, hcursor, hruns⟩ := hr.advance_close hchart hlawful hhub hsafe hopener
    (s := .endOfInput) rfl (.inl rfl)
  refine ⟨r₁.park, l, ?_, ?_, hruns⟩
  · rw [Reading.finish, hadvance, ok_bind]
    dsimp only
    rw [hcursor]
    rfl
  · rw [park]
    split <;> rfl

end Reading

/-! ### Scanners inside such a run -/

namespace Grammar

variable {g : Grammar} {a : Automaton} {m : GreedyMatcher Grammar} {n b : NodeId}

/-- The inner scan of a run never fails if the points of its interior are lone. -/
theorem isSafe_of_hub {place : NodeId → Locus} {nested : Option RunId}
    (hhub : a.Hub place g.labels m nested b)
    (hinterior : ∀ i, m.subGrammar = some i → i.LonePoint) {id : RunId} (hid : nested = some id) :
    a.inner.IsSafe True id := by
  obtain ⟨i, spec, hi, hspec, hresult, -⟩ := hhub.exists_interior hid
  have hlawful : Lawful True spec.automaton :=
    i.lawful_compile (fun _ => hinterior i hi) hresult
  exact Automaton.isSafe_inner hspec hlawful.safe_scan

/-- A scanner inside such a run, with the opener pending. -/
structure Dwells (g : Grammar) (m : GreedyMatcher Grammar) (place : NodeId → Locus)
    (nested : Option RunId) (b : NodeId) (r : Reading) (s : Scanner) : Prop where
  chart : Charted g.toLexicon (compileMatchers g.greedyMatchers) s.automaton place
  lawful : Lawful False s.automaton
  hub : s.automaton.Hub place g.labels m nested b
  safe (id : RunId) (hid : nested = some id) : s.automaton.inner.IsSafe True id
  reaches : s.Reaches place r s.position
  dwells : r.Dwells s.automaton place m b []
  opener : m.startsWith ≠ ""

section

variable {τ υ : Type} {s : Scanner} {place : NodeId → Locus} {nested : Option RunId} {r : Reading}

/-- A scanner that stands on the opener of such a run is inside it, if nothing else has taken the
opener and no edge leaves it. -/
theorem exists_dwells (h : g.compile.result = .ok a) (hm : (m, n, b) ∈ g.openings)
    (hkept : (a.behaviour n).fallback = .reroute b) (hbare : a.trie.edges n = [])
    (hbrief : m.Brief) (hinterior : ∀ i, m.subGrammar = some i → i.LonePoint) {sink : Sink τ}
    {calls : List Call} {out out' : τ}
    (hs : (Scanner.ofAutomaton a).performAll sink out calls = .ok (s, out'))
    (hn : s.progress.node = n) (hpending : s.pending = m.startsWith) :
    ∃ place nested r, g.Dwells m place nested b r s := by
  obtain ⟨place, r, hstands⟩ := exists_stands h hm hs hn hpending
  obtain ⟨m', nested', hb⟩ := hstands.body
  obtain ⟨_, _, nested, hends⟩ := hstands.ends
  have hhub := hub_of_ends hb hends hbrief
  obtain rfl : a = s.automaton := hstands.automaton.symm
  have hnode := hstands.node
  exact ⟨place, nested, r, hstands.chart, g.lawful_compile False.elim h, hhub,
    fun id hid => isSafe_of_hub hhub hinterior hid, hstands.reaches,
    ⟨hstands.reaches.sound, Reading.fed_of_run_eq_none hstands.run,
      .inr ⟨hnode ▸ hbare, hnode ▸ hkept⟩, by rw [hstands.pending, List.append_nil]⟩,
    hstands.opener⟩

/-- A scanner that has given everything out is at the root. -/
theorem atRoot_of_reaches {position : Nat} (hs : s.Reaches place r position)
    (hcursor : r.toCursor = {}) : s.progress.node = .root ∧ s.pending = "" := by
  rw [hs.pending_eq, hs.progress]
  exact ⟨congrArg Cursor.node hcursor, congrArg String.ofList (congrArg Cursor.pending hcursor)⟩

/-- The first character that ends the run gives it out. -/
theorem Dwells.ends (h : g.Dwells m place nested b r s) (sink : Sink υ) (tokens : υ)
    {front : String} {c : Char} {label : Label} (hc : m.EndsAfter g.labels front.toList c label)
    (hfront : m.GoesOn g.labels front.toList) :
    ∃ s' run, m.Runs label front (.singleton c) s.position run ∧
      s'.progress.node = .root ∧ s'.pending = "" ∧
      s.consume sink tokens (front ++ .singleton c) = .ok (s', run.foldl sink tokens) := by
  obtain ⟨r₁, hread, hr₁⟩ := h.dwells.read h.chart h.lawful h.hub h.safe fun u d v other hx =>
    hfront u d v other hx
  obtain ⟨r₂, l, hadvance, hcursor, hruns⟩ :=
    hr₁.advance_close h.chart h.lawful h.hub h.safe h.opener hc.1 (.inr hc.2)
  have htake : r.take s.automaton s.automaton.inner (.chunk (front ++ .singleton c)) =
      .ok (r₂, [l]) := by
    rw [Reading.take, String.toList_append, String.toList_singleton]
    exact Reading.read_concat _ hread hadvance
  obtain ⟨s', hconsume, -, hs'⟩ := h.reaches.handle_of_take h.chart sink tokens _ htake
  have hruns := hruns s.position
  rw [List.nil_append, String.ofList_toList] at hruns
  rw [listing_cons, listing_nil, List.append_nil] at hconsume
  obtain ⟨hroot, hempty⟩ := atRoot_of_reaches hs' hcursor
  exact ⟨s', _, hruns, hroot, hempty, hconsume⟩

/-- A text that no character of ends the run is pending until the end of input, which halts it. -/
theorem Dwells.goes_on (h : g.Dwells m place nested b r s) (sink : Sink υ) (tokens : υ) {x : String}
    (hx : m.GoesOn g.labels x.toList) :
    ∃ s' s'' run, m.Runs (g.labels.halted m.kind) x "" s.position run ∧
      s''.progress.node = .root ∧ s''.pending = "" ∧
      s.consume sink tokens x = .ok (s', tokens) ∧
      s'.flush sink tokens = .ok (s'', run.foldl sink tokens) := by
  obtain ⟨r₁, hread, hr₁⟩ := h.dwells.read h.chart h.lawful h.hub h.safe fun u d v other hx' =>
    hx u d v other hx'
  obtain ⟨r₂, l, hfinish, hcursor, hruns⟩ :=
    hr₁.finish h.chart h.lawful h.hub h.safe h.opener
  obtain ⟨s₁, hconsume, ha₁, hs₁⟩ :=
    h.reaches.handle_of_take h.chart sink tokens (.chunk x) hread
  have hchart := h.chart
  rw [← ha₁] at hchart hfinish
  obtain ⟨s₂, hflush, -, hs₂⟩ := hs₁.handle_of_take hchart sink tokens .done hfinish
  have hruns := hruns s.position
  rw [List.nil_append, String.ofList_toList] at hruns
  rw [spelled_nil, Text.byteLength_nil, Nat.add_zero, listing_cons, listing_cons, listing_nil,
    List.append_nil, Lexeme.tokens, tokenAt, List.append_nil] at hflush
  obtain ⟨hroot, hempty⟩ := atRoot_of_reaches hs₂ hcursor
  exact ⟨s₁, s₂, _, hruns, hroot, hempty, hconsume, hflush⟩

end

/-- A greedy run whose ends are single characters, with or without an escape. Where a scanner stands
on its opener with nothing else pending, nothing else has taken the opener and no edge leaves it,
the run ends at the first end before which the interior ends with an even number of escapes, and at
the end of input it is halted if there is none. The interior may have a grammar of its own, in which
points have to be lone for its scan not to fail. -/
theorem escaping (h : g.compile.result = .ok a) (hm : (m, n, b) ∈ g.openings)
    (hkept : (a.behaviour n).fallback = .reroute b) (hbare : a.trie.edges n = [])
    (hbrief : m.Brief) (hinterior : ∀ i, m.subGrammar = some i → i.LonePoint) {τ : Type}
    {sink : Sink τ} {calls : List Call} {s : Scanner} {out out' : τ}
    (hs : (Scanner.ofAutomaton a).performAll sink out calls = .ok (s, out'))
    (hn : s.progress.node = n) (hpending : s.pending = m.startsWith) {υ : Type} (sink : Sink υ)
    (tokens : υ) :
    (∀ (front back : String) (c : Char) (label : Label),
      m.GoesOn g.labels front.toList → m.EndsAfter g.labels front.toList c label →
      ∃ s' run, m.Runs label front (.singleton c) s.position run ∧
        s'.progress.node = .root ∧ s'.pending = "" ∧
        s.consume sink tokens (front ++ .singleton c) = .ok (s', run.foldl sink tokens) ∧
        ∀ chunks : List String, String.join chunks = front ++ .singleton c ++ back →
          s.performAll sink tokens (chunks.map .consume ++ [.flush]) =
            s'.performAll sink (run.foldl sink tokens) [.consume back, .flush]) ∧
    ∀ chunks : List String, m.GoesOn g.labels (String.join chunks).toList →
      ∃ s' s'' run, m.Runs (g.labels.halted m.kind) (String.join chunks) "" s.position run ∧
        s''.progress.node = .root ∧ s''.pending = "" ∧
        s.performAll sink tokens (chunks.map .consume) = .ok (s', tokens) ∧
        s'.flush sink tokens = .ok (s'', run.foldl sink tokens) := by
  obtain ⟨place, nested, r, hdwells⟩ :=
    exists_dwells h hm hkept hbare hbrief hinterior hs hn hpending
  have hchunks (chunks : List String) : s.performAll sink tokens (chunks.map .consume) =
      s.consume sink tokens (String.join chunks) :=
    hdwells.reaches.performAll_consume hdwells.chart tokens chunks
  refine ⟨fun front back c label hfront hc => ?_, fun chunks hx => ?_⟩
  · obtain ⟨s', run, hruns, hroot, hempty, hconsume⟩ := hdwells.ends sink tokens hc hfront
    refine ⟨s', run, hruns, hroot, hempty, hconsume, fun chunks hjoin => ?_⟩
    rw [Scanner.performAll_append, hchunks, hjoin, hdwells.reaches.consume_append hdwells.chart,
      hconsume]
    rfl
  · obtain ⟨s', s'', run, hruns, hroot, hempty, hconsume, hflush⟩ :=
      hdwells.goes_on sink tokens hx
    exact ⟨s', s'', run, hruns, hroot, hempty, (hchunks chunks).trans hconsume, hflush⟩

/-- The run of the grammar with angle brackets. -/
def angled : GreedyMatcher Grammar :=
  ⟨"bracketed", "<", some ">", none, some "\\", some { punctuation := [.bare "+"] }⟩

theorem brief_angled : angled.Brief := ⟨⟨'>', rfl⟩, nofun, by decide⟩

/-- A run whose interior has a grammar goes on after an end that is escaped, and ends at the next
one. -/
theorem escaping_bracketed : ∃ a s tokens, bracketed.compile.result = .ok a ∧
    (Scanner.ofAutomaton a).performAll .collect #[] [.consume "a;<"] = .ok (s, tokens) ∧
    ∃ (s' : Scanner) (run : List Token), angled.Runs "bracketed" "+\\>" ">" 2 run ∧
      s.performAll .collect tokens (["+\\", ">>x"].map .consume ++ [.flush]) =
        s'.performAll .collect (run.foldl Sink.collect tokens) [.consume "x", .flush] := by
  have hrun : (bracketed.compile.result.toOption.bind fun a =>
      ((Scanner.ofAutomaton a).performAll .collect #[] [.consume "a;<"]).toOption.bind fun z =>
      if (a.behaviour 13).fallback = .reroute 14 ∧ a.trie.edges 13 = [] ∧
        z.1.progress.node = 13 ∧ z.1.pending = "<" ∧ z.1.position = 2
      then some z else none).isSome := by
    decide +kernel
  have hopeners : ((bracketed.toLexicon.build
      (compileMatchers bracketed.greedyMatchers)).run.run .start).2.openers = [(13, 14)] := by
    decide +kernel
  have hopening : (angled, 13, 14) ∈ bracketed.openings := by
    rw [openings, hopeners]
    exact List.mem_cons_self
  have hinterior (i : Grammar) (hi : angled.subGrammar = some i) : i.LonePoint :=
    lonePoint_bracketed.interior List.mem_cons_self hi
  obtain ⟨z, hz⟩ := Option.isSome_iff_exists.1 hrun
  obtain ⟨a, ha, hz⟩ := Option.bind_eq_some_iff.1 hz
  obtain ⟨⟨s, tokens⟩, hs, hz⟩ := Option.bind_eq_some_iff.1 hz
  obtain ⟨hkept, hbare, hnode, hpending, hposition⟩ := (Option.ite_none_right_eq_some.1 hz).1
  have ha := eq_ok_of_toOption ha
  have hs := eq_ok_of_toOption hs
  obtain ⟨s', run, hruns, -, -, -, hchunks⟩ := (escaping ha hopening hkept hbare brief_angled
    hinterior hs hnode hpending .collect tokens).1 "+\\>" "x" '>' "bracketed" (by decide)
    (by decide)
  exact ⟨a, s, tokens, ha, hs, s', run, hposition ▸ hruns, hchunks _ (by decide)⟩

/-- A run whose interior has a delimiter that goes on after a point. -/
def stumbling : GreedyMatcher Grammar :=
  ⟨"X", "<", some ">", none, none, some { delimiters := [.bare ".é"] }⟩

/-- A grammar with such runs. -/
def faulty : Grammar where
  greedyMatchers := [stumbling]

/-- The only end in the text is not escaped, but the scan of the interior fails before the run can
be given out: the point begins a number as well, and the text is cut the delimiter's three bytes
before its end, inside the first `é`. -/
theorem escaping_faulty : ∃ a n b s, faulty.compile.result = .ok a ∧
    (stumbling, n, b) ∈ faulty.openings ∧ stumbling.Brief ∧
    (a.behaviour n).fallback = .reroute b ∧ a.trie.edges n = [] ∧
    (Scanner.ofAutomaton a).performAll .collect #[] [.consume "<"] = .ok (s, #[]) ∧
    s.progress.node = n ∧ s.pending = stumbling.startsWith ∧
    stumbling.GoesOn faulty.labels ".éé".toList ∧
    stumbling.EndsAfter faulty.labels ".éé".toList '>' "X" ∧
    s.performAll .collect #[] ([".é", "é>"].map .consume ++ [.flush]) = .error .misplacedCut := by
  have hrun : (faulty.compile.result.toOption.bind fun a =>
      ((Scanner.ofAutomaton a).performAll .collect #[] [.consume "<"]).toOption.bind fun z =>
      match z.1.performAll .collect #[] ([".é", "é>"].map .consume ++ [.flush]) with
      | .ok _ => none
      | .error e =>
        if (a.behaviour 9).fallback = .reroute 10 ∧ a.trie.edges 9 = [] ∧
          z.1.progress.node = 9 ∧ z.1.pending = "<" ∧ z.2 = #[] ∧ e = .misplacedCut
        then some z else none).isSome := by
    decide +kernel
  have hopeners : ((faulty.toLexicon.build
      (compileMatchers faulty.greedyMatchers)).run.run .start).2.openers = [(9, 10)] := by
    decide +kernel
  have hopening : (stumbling, 9, 10) ∈ faulty.openings := by
    rw [openings, hopeners]
    exact List.mem_cons_self
  obtain ⟨z, hz⟩ := Option.isSome_iff_exists.1 hrun
  obtain ⟨a, ha, hz⟩ := Option.bind_eq_some_iff.1 hz
  obtain ⟨⟨s, tokens⟩, hs, hz⟩ := Option.bind_eq_some_iff.1 hz
  split at hz
  · cases hz
  · next e he =>
    obtain ⟨hkept, hbare, hnode, hpending, rfl, rfl⟩ := (Option.ite_none_right_eq_some.1 hz).1
    exact ⟨a, 9, 10, s, eq_ok_of_toOption ha, hopening,
      ⟨⟨'>', rfl⟩, by rintro marker ⟨⟩, by decide⟩, hkept, hbare, eq_ok_of_toOption hs, hnode,
      hpending, by decide, by decide, he⟩

end Grammar

end TrieLexer
