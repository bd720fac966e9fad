import TrieLexer.Proofs.Endings
import TrieLexer.Proofs.Forgetting
import TrieLexer.Proofs.Lockstep
import TrieLexer.Proofs.Spelling

/-!
# Nested runs and flat runs

A grammar is flattened by taking away the grammars of its interiors. The automaton of the flat
grammar has the same nodes, and its walk is the same. So its scans give out the same lexemes, apart
from nested runs: the flat grammar gives out the whole run as one lexeme, where the other one gives
out the opener, the tokens of the interior and the terminator.

## Main definitions

* `Grammar.flat` — a grammar without the grammars of its interiors.
* `Lexeme.flat` — a run as one lexeme.
* `Lexeme.Unfolds` — a run and its three parts.

## Main results

* `Grammar.flat_compile` — a flat grammar compiles if the grammar does.
* `StateGraph.Mirrors.take` — scans of flat grammars give out runs as one lexeme.
* `Grammar.nesting` — the tokens of a grammar are those of the flat one, with nested runs unfolded.
-/

namespace TrieLexer

open Text (byteLength)

/-- A grammar without the grammars of its interiors. -/
def Grammar.flat (g : Grammar) : Grammar :=
  { g with greedyMatchers := g.greedyMatchers.map .flat }

/-! ### Flat grammars compile -/

theorem compileMatcher_flat (m : GreedyMatcher Grammar) :
    compileMatcher m.flat = (compileMatcher m).flat := by
  obtain ⟨kind, startsWith, endsWith, haltsWith, escapesWith, interior⟩ := m
  rfl

theorem compileMatchers_flat (ms : List (GreedyMatcher Grammar)) :
    compileMatchers (ms.map .flat) = (compileMatchers ms).map .flat := by
  rw [compileMatchers_eq, compileMatchers_eq, List.map_map, List.map_map]
  exact List.map_congr_left fun m _ => compileMatcher_flat m

theorem validateMatcher_flat {m : GreedyMatcher Grammar} (h : validateMatcher m = .ok ()) :
    validateMatcher m.flat = .ok () := by
  obtain ⟨kind, startsWith, endsWith, haltsWith, escapesWith, interior⟩ := m
  rw [validateMatcher] at h
  obtain ⟨⟨⟩, hm, -⟩ := bind_eq_ok.1 h
  change validateMatcher ⟨kind, startsWith, endsWith, haltsWith, escapesWith, none⟩ = _
  rw [validateMatcher, hm]
  rfl

theorem validateMatchers_flat {ms : List (GreedyMatcher Grammar)}
    (h : validateMatchers ms = .ok ()) : validateMatchers (ms.map .flat) = .ok () := by
  induction ms with
  | nil => exact h
  | cons m ms ih =>
    rw [validateMatchers] at h
    obtain ⟨⟨⟩, hm, hms⟩ := bind_eq_ok.1 h
    rw [List.map_cons, validateMatchers, validateMatcher_flat hm, ok_bind, ih hms]

/-- Without the grammars of interiors a grammar is as valid as before. -/
theorem Grammar.validate_flat {g : Grammar} (h : g.validate = .ok ()) :
    g.flat.validate = .ok () := by
  obtain ⟨lexicon, matchers⟩ := g
  rw [validate] at h
  obtain ⟨⟨⟩, hl, hm⟩ := bind_eq_ok.1 h
  change Grammar.validate ⟨lexicon, matchers.map .flat⟩ = _
  rw [validate, hl, ok_bind, validateMatchers_flat hm]

namespace Draft

variable {lexicon : Lexicon} {matchers : List (GreedyMatcher Compilation)} {pointed : Prop}
  {marked : String → Prop} {loose : NodeId → Prop} {d : Draft} {place : NodeId → Locus}
  {f : NodeId → NodeId}

theorem edges_rename_id (edges : Edges) : Edges.rename id edges = edges := List.map_id edges

theorem renames_id : Renames id := ⟨fun h => h, fun _ => rfl⟩

/-- Without matchers a node only leads to nodes that every draft has. -/
theorem Charted.fallback_rename (h : Charted lexicon [] pointed marked loose d place)
    (hf : Renames f) (n : NodeId) :
    (d.site n).behaviour.fallback.rename f = (d.site n).behaviour.fallback := by
  have hfit := h.fallback n
  cases hfallback : (d.site n).behaviour.fallback with
  | stay | dispatch | release => rfl
  | reroute target =>
    rw [hfallback] at hfit
    cases hfit with
    | unknown => exact congrArg Fallback.reroute hf.unknown
    | enter hb | back hb => exact absurd (h.body hb).2.2.1 List.not_mem_nil
  | classify test hit miss =>
    rw [hfallback] at hfit
    cases hfit with
    | identifier => rw [Fallback.rename, hf.identifier, hf.unknown]
    | digit => rw [Fallback.rename, hf.number, hf.unknown]
    | decimal => rw [Fallback.rename, hf.float, hf.unknown]

/-- Without matchers a node is its own image. -/
theorem Charted.site_mirrors_self (h : Charted lexicon [] pointed marked loose d place)
    (hf : Renames f) (n : NodeId) : (d.site n).Mirrors f (d.site n) := by
  refine ⟨⟨(h.fallback_rename hf n).symm, ?_, ?_⟩, rfl⟩
  · have hfit := h.action n
    cases haction : (d.site n).behaviour.action with
    | none => exact .none
    | literal label => exact .literal label
    | boundary label length => exact .boundary label length
    | close c =>
      rw [haction] at hfit
      cases hfit with
      | close hp hc => exact absurd (h.body hp).2.2.1 List.not_mem_nil
  · cases hrun : (d.site n).behaviour.run with
    | none => rfl
    | some id =>
      obtain ⟨m, hm⟩ := h.run hrun
      exact absurd (h.body hm).2.2.1 List.not_mem_nil

theorem Charted.openers_eq_nil (h : Charted lexicon [] pointed marked loose d place) :
    d.openers = [] := by
  refine List.eq_nil_iff_forall_not_mem.2 fun o ho => ?_
  obtain ⟨m, nested, hb, -⟩ := h.opener (n := o.1) (b := o.2) ho
  exact absurd (h.body hb).2.2.1 List.not_mem_nil

theorem Charted.runs_eq_empty (h : Charted lexicon [] pointed marked loose d place) :
    d.runs = #[] := by
  refine Array.eq_empty_of_size_eq_zero ?_
  by_contra hsize
  obtain ⟨run, hrun⟩ := Array.exists_mem_of_size_pos (Nat.pos_of_ne_zero hsize)
  obtain ⟨m, hm, -⟩ := h.runs hrun
  exact absurd hm List.not_mem_nil

theorem Charted.ne_root_of_child? (h : Charted lexicon matchers pointed marked loose d place)
    {n m : NodeId} {s : Symbol} (hc : d.trie.child? n s = some m) : m ≠ .root := by
  rintro rfl
  have hplace := (h.child hc).2
  rw [h.place_root] at hplace
  exact Locus.down_ne_root _ _ hplace.symm

/-- A draft without matchers is its own image. -/
theorem Charted.mirrors_self (h : Charted lexicon [] pointed marked loose d place) :
    d.Mirrors id (fun _ => False) d where
  trie :=
    { pos := Nat.lt_of_lt_of_le (by decide) h.size
      le := Nat.le_refl _
      size := fun _ => rfl
      sorted := h.sorted
      edges := fun _ => (edges_rename_id _).symm
      root := fun _ => by simp
      content := h.site_mirrors_self renames_id
      parent := h.ne_root_of_child? }
  tame := h.tame
  openers := by simp
  opener {o} ho := by
    rw [h.openers_eq_nil] at ho
    cases ho
  runs := h.runs_eq_empty

end Draft

/-- A flat grammar compiles if the grammar does, and its automaton has the same nodes. -/
theorem Grammar.flat_compile {g : Grammar} {a : Automaton} (h : g.compile.result = .ok a) :
    ∃ flat, g.flat.compile.result = .ok flat ∧
      flat.toStateGraph.Mirrors id (fun _ => False) a.toStateGraph := by
  obtain ⟨hvalid, hassemble⟩ := compile_eq_ok.1 h
  obtain ⟨e, hbuild, rfl⟩ := Lexicon.assemble_eq_ok.1 hassemble
  obtain ⟨⟨⟩, d₁, hcategories, hbuild⟩ := Assembly.yields_bind.1 hbuild
  obtain ⟨⟨⟩, d₂, hkeywords, hrest⟩ := Assembly.yields_bind.1 hbuild
  obtain ⟨place₁, h₁⟩ := (@Draft.charted_start g.toLexicon []).buildCategories hcategories
  obtain ⟨place₂, h₂⟩ := h₁.buildKeywords (by simp) hkeywords
  obtain ⟨d, hrest', hmirrors⟩ := Lexicon.mirrors_buildRest h₂.mirrors_self Draft.renames_id
    ⟨fun _ _ _ h => h, fun _ _ _ h => h, fun _ _ _ h => h, fun h => h⟩ hrest
  refine ⟨g.toLexicon.finish d, compile_eq_ok.2 ⟨validate_flat hvalid,
    Lexicon.assemble_eq_ok.2 ⟨d, ?_, rfl⟩⟩, hmirrors⟩
  rw [flat, compileMatchers_flat]
  exact Assembly.yields_bind.2 ⟨⟨⟩, d₁, hcategories, Assembly.yields_bind.2 ⟨⟨⟩, d₂, hkeywords,
    hrest'⟩⟩

/-! ### Runs as one lexeme -/

/-- A run as one lexeme. -/
def Lexeme.flat : Lexeme → Lexeme
  | plain text label => plain text label
  | whole text close => whole text { close with nested := none }
  | nested opener interior terminator close _ =>
    whole (opener ++ interior ++ terminator) { close with nested := none }

theorem Lexeme.map_flat {ls : List Lexeme} (h : ∀ l ∈ ls, l.flat = l) : ls.map .flat = ls :=
  (List.map_congr_left h).trans (List.map_id' ls)

namespace StateGraph.Mirrors

variable {lexicon lexicon' : Lexicon} {matchers matchers' : List (GreedyMatcher Compilation)}
  {a flat : Automaton} {place place' : NodeId → Locus}

/-- Both walks are the same. -/
theorem move_eq (h : flat.toStateGraph.Mirrors id (fun _ => False) a.toStateGraph)
    (ha : Charted lexicon matchers a place) (hflat : Charted lexicon' matchers' flat place')
    (c : Cursor) (s : Symbol) : a.move c s = flat.move c s := by
  have hresolve (n : NodeId) : a.resolve n s = flat.resolve n s := by
    have hn := h.resolve Draft.renames_id hflat ha (n := n) (s := s) fun _ hout => hout
    rw [id_eq] at hn
    rw [hn]
    cases flat.resolve n s <;> rfl
  rw [StateGraph.move, StateGraph.move, hresolve, hresolve]

theorem retake_eq (h : flat.toStateGraph.Mirrors id (fun _ => False) a.toStateGraph)
    (ha : Charted lexicon matchers a place) (hflat : Charted lexicon' matchers' flat place')
    (c : Cursor) (text : List Char) : a.retake c text = flat.retake c text := by
  induction text generalizing c with
  | nil => rfl
  | cons d text ih => simp only [StateGraph.retake, h.move_eq ha hflat, ih]

end StateGraph.Mirrors

namespace Reading

variable {a flat : Automaton} {inner : InnerScan} {r r' r₀ : Reading} {ls : List Lexeme}

/-- A scan without inner scans stands where another scan stands. -/
structure Flattens (r₀ r : Reading) : Prop where
  toCursor : r.toCursor = r₀.toCursor
  run : r₀.run = none

namespace Flattens

theorem pending (hf : r₀.Flattens r) : r.pending = r₀.pending := congrArg Cursor.pending hf.toCursor

theorem node (hf : r₀.Flattens r) : r.node = r₀.node := congrArg Cursor.node hf.toCursor

/-- A nested run is given out as one lexeme. -/
theorem giveOut {run : NestedScan Progress} {idle : Array (Option Progress)} {c : Close}
    {pending : List Char} (hs : Reading.giveOut inner pending idle run c = .ok (r', ls)) :
    ls.map Lexeme.flat = [Lexeme.whole pending { c with nested := none }] ∧
      r'.toCursor = {} := by
  obtain ⟨_, _, _, _, _, rfl, -, -, rfl, rfl⟩ := Reading.exists_of_giveOut hs
  exact ⟨rfl, rfl⟩

variable (inner₀ : InnerScan)

theorem close (hf : r₀.Flattens r) {c : Close} (hs : r.close a inner c = .ok (r', ls)) :
    ∃ r₀', r₀.close flat inner₀ { c with nested := none } = .ok (r₀', ls.map .flat) ∧
      r₀'.Flattens r' := by
  obtain ⟨escaped, hescaped, hs⟩ := bind_eq_ok.1 hs
  have hescaped' : Close.isEscaped { c with nested := none } r₀.pending = .ok escaped :=
    hf.pending ▸ hescaped
  simp only [Reading.close, hescaped', ok_bind]
  split at hs
  · next he =>
    cases hs
    rw [if_pos he]
    exact ⟨_, rfl, congrArg (Cursor.mk c.body) hf.pending, hf.run⟩
  · next he =>
    rw [if_neg he]
    refine ⟨{ run := r₀.run, idle := r₀.idle }, ?_⟩
    split at hs
    · cases hs
      rw [hf.pending]
      exact ⟨rfl, rfl, hf.run⟩
    · obtain ⟨⟨run, idle⟩, -, hs⟩ := bind_eq_ok.1 hs
      obtain ⟨hls, hcursor⟩ := giveOut hs
      rw [hls, hf.pending]
      exact ⟨rfl, hcursor, hf.run⟩

variable (h : flat.toStateGraph.Mirrors id (fun _ => False) a.toStateGraph)

include h

theorem settle (hf : r₀.Flattens r) (hs : r.settle a inner = .ok (r', ls)) :
    ∃ r₀', r₀.settle flat inner₀ = .ok (r₀', ls.map .flat) ∧ r₀'.Flattens r' := by
  have haction := (h.behaviour r₀.node).action
  rw [Reading.settle, hf.node] at hs
  rw [Reading.settle]
  rw [id_eq] at haction
  generalize (flat.behaviour r₀.node).action = action at haction ⊢
  generalize (a.behaviour r₀.node).action = action' at haction hs
  cases haction with
  | none | boundary =>
    cases hs
    exact ⟨r₀, rfl, hf⟩
  | literal label =>
    cases hs
    rw [h.unnamed, hf.pending]
    exact ⟨_, rfl, rfl, hf.run⟩
  | @close c c' hc =>
    obtain rfl : { c' with nested := none } = c := hc
    exact hf.close inner₀ hs

variable {lexicon lexicon' : Lexicon} {matchers matchers' : List (GreedyMatcher Compilation)}
  {place place' : NodeId → Locus} (ha : Charted lexicon matchers a place)
  (hflat : Charted lexicon' matchers' flat place')

include ha hflat

theorem act (hf : r₀.Flattens r) (hs : r.act a inner = .ok (r', ls)) :
    ∃ r₀', r₀.act flat inner₀ = .ok (r₀', ls.map .flat) ∧ r₀'.Flattens r' := by
  have haction := (h.behaviour r₀.node).action
  rw [id_eq] at haction
  cases hb : (flat.behaviour r₀.node).action with
  | boundary label length =>
    rw [hb] at haction
    generalize hb' : (a.behaviour r₀.node).action = action' at haction
    cases haction
    simp only [Reading.act, hf.node, hb', hf.pending] at hs
    obtain ⟨⟨before, terminator⟩, hcut, hs⟩ := bind_eq_ok.1 hs
    obtain ⟨⟨c, released⟩, hm, hs⟩ := bind_eq_ok.1 hs
    obtain ⟨⟨r₂, out⟩, hsettle, hs⟩ := bind_eq_ok.1 hs
    cases hs
    have hf' : Flattens { r₀ with toCursor := c } { r with toCursor := c } := ⟨rfl, hf.run⟩
    obtain ⟨r₀', hsettle', hf'⟩ := hf'.settle inner₀ h hsettle
    refine ⟨r₀', ?_, hf'⟩
    simp only [Reading.act, hb, hcut, ok_bind, ← h.retake_eq ha hflat, hm, hsettle']
    rw [List.map_append, List.map_cons,
      Lexeme.map_flat (StateGraph.forall_of_retake (fun _ _ _ _ => rfl) hm)]
    rfl
  | _ =>
    rw [hb] at haction
    have hs' : r.settle a inner = .ok (r', ls) := by
      generalize hb' : (a.behaviour r₀.node).action = action' at haction
      cases haction
      simpa only [Reading.act, hf.node, hb'] using hs
    simpa only [Reading.act, hb] using hf.settle inner₀ h hs'

theorem advance (hf : r₀.Flattens r) {s : Symbol} (hs : r.advance a inner s = .ok (r', ls)) :
    ∃ r₀', r₀.advance flat inner₀ s = .ok (r₀', ls.map .flat) ∧ r₀'.Flattens r' := by
  obtain ⟨⟨c, released⟩, hm, hs⟩ := bind_eq_ok.1 hs
  obtain ⟨r₁, he, hs⟩ := bind_eq_ok.1 hs
  obtain ⟨⟨r₂, out⟩, hact, hs⟩ := bind_eq_ok.1 hs
  obtain ⟨r₃, hfeed, hs⟩ := bind_eq_ok.1 hs
  cases hs
  have hcursor : r₁.toCursor = c := enter_toCursor he
  have hf₁ : Flattens { r₀ with toCursor := c } r₁ := ⟨hcursor, hf.run⟩
  obtain ⟨r₀', hact', hf₂⟩ := hf₁.act inner₀ h ha hflat hact
  have henter : Reading.enter flat { r₀ with toCursor := c } = .ok { r₀ with toCursor := c } := by
    rw [Reading.enter, (h.behaviour c.node).run]
    split
    · next hid => cases hid
    · rfl
  have hfeed' : r₀'.feed inner₀ = .ok r₀' := by rw [Reading.feed, hf₂.run]
  refine ⟨r₀', ?_, (feed_toCursor hfeed).trans hf₂.toCursor, hf₂.run⟩
  rw [Reading.advance, ← h.move_eq ha hflat, ← hf.toCursor, hm]
  simp only [ok_bind, henter, hact', hfeed']
  rw [List.map_append, Lexeme.map_flat (StateGraph.forall_of_move (fun _ _ _ _ => rfl) hm)]
  rfl

theorem read (hf : r₀.Flattens r) {text : List Char} (hs : r.read a inner text = .ok (r', ls)) :
    ∃ r₀', r₀.read flat inner₀ text = .ok (r₀', ls.map .flat) ∧ r₀'.Flattens r' := by
  induction text generalizing r r₀ ls with
  | nil =>
    cases hs
    exact ⟨r₀, rfl, hf⟩
  | cons c text ih =>
    obtain ⟨⟨r₁, out⟩, hadvance, hs⟩ := bind_eq_ok.1 hs
    obtain ⟨⟨r₂, outs⟩, hread, hs⟩ := bind_eq_ok.1 hs
    cases hs
    obtain ⟨r₁', hadvance', hf₁⟩ := hf.advance inner₀ h ha hflat hadvance
    obtain ⟨r₂', hread', hf₂⟩ := ih hf₁ hread
    refine ⟨r₂', ?_, hf₂⟩
    simp only [Reading.read, hadvance', hread', ok_bind, List.map_append]
    rfl

/-- A scan without inner scans gives out the same lexemes, with runs as one lexeme. -/
theorem take (hf : r₀.Flattens r) {input : Input} (hs : r.take a inner input = .ok (r', ls)) :
    ∃ r₀', r₀.take flat inner₀ input = .ok (r₀', ls.map .flat) ∧ r₀'.Flattens r' := by
  cases input with
  | chunk text => exact hf.read inner₀ h ha hflat hs
  | done =>
    obtain ⟨⟨r₁, out⟩, hadvance, hs⟩ := bind_eq_ok.1 hs
    cases hs
    obtain ⟨r₁', hadvance', hf₁⟩ := hf.advance inner₀ h ha hflat hadvance
    refine ⟨r₁'.park, ?_, ?_, ?_⟩
    · simp only [Reading.take, Reading.finish, hadvance', ok_bind, List.map_append, hf₁.pending]
      rfl
    · rw [park, park, hf₁.run]
      split <;> rfl
    · rw [park, hf₁.run]

end Flattens

end Reading

/-! ### Unfolding -/

/-- A run of a matcher whose interior has a grammar is unfolded into the opener, the tokens of the
interior alone and the end of the run. All other lexemes stay as they are. -/
inductive Lexeme.Unfolds (g : Grammar) (a : Automaton) : Lexeme → Lexeme → Prop
  | plain (text : List Char) (label : Option Label) :
      Unfolds g a (.plain text label) (.plain text label)
  | whole {m : GreedyMatcher Grammar} {c : Close} {t : String} (interior : List Char)
      (hm : m ∈ g.greedyMatchers) (hsub : m.subGrammar = none)
      (hrun : (a.behaviour c.body).run = none)
      (hc : c.Ends g.labels c.body (compileMatcher m) none t) :
      Unfolds g a (.whole (m.startsWith.toList ++ interior ++ t.toList) c)
        (.whole (m.startsWith.toList ++ interior ++ t.toList) c)
  | nested {m : GreedyMatcher Grammar} {s : Grammar} {b : Automaton} {c : Close} {t : String}
      {id : RunId} {interior : List Char} {tokens : List Token}
      (hm : m ∈ g.greedyMatchers) (hsub : m.subGrammar = some s) (hopener : m.startsWith ≠ "")
      (hrun : (a.behaviour c.body).run = some id) (hb : s.compile.result = .ok b)
      (hc : c.Ends g.labels c.body (compileMatcher m) none t)
      (htokens : b.tokenize (String.ofList interior) = .ok tokens) :
      Unfolds g a (.whole (m.startsWith.toList ++ interior ++ t.toList) c)
        (.nested m.startsWith.toList interior t.toList { c with nested := some id } tokens)

/-- A run ends in the same way, whether or not its interior has a grammar. -/
theorem Close.Ends.flat {labels : Labels} {b : NodeId} {m : GreedyMatcher Compilation}
    {nested : Option RunId} {t : String} {c : Close} (h : c.Ends labels b m nested t) :
    Close.Ends labels b m none t { c with nested := none } :=
  ⟨h.body, rfl, h.openerLength, h.terminatorLength, h.way⟩

namespace Grammar

variable {g : Grammar} {a : Automaton} {place : NodeId → Locus}

/-- The matcher of a run. -/
theorem exists_matcher (hchart : Charted g.toLexicon (compileMatchers g.greedyMatchers) a place)
    {n b : NodeId} {m : GreedyMatcher Compilation} {nested : Option RunId} {path : List Symbol}
    (hp : place n = ⟨.body b m nested, path⟩) : ∃ m' ∈ g.greedyMatchers, compileMatcher m' = m := by
  have hm := (hchart.body hp).2.2.1
  rw [compileMatchers_eq] at hm
  exact List.mem_map.1 hm

/-- A lexeme that is given out unfolds the lexeme of the flat grammar. -/
theorem unfolds_flat (h : g.compile.result = .ok a)
    (hchart : Charted g.toLexicon (compileMatchers g.greedyMatchers) a place) {l : Lexeme}
    (hformed : l.Formed g.toLexicon place) (hscanned : l.Scanned a.inner) :
    l.flat.Unfolds g a l := by
  have hlawful : Lawful False a := lawful_compile g False.elim h
  cases l with
  | plain text label => exact .plain text label
  | whole text c =>
    obtain ⟨m, nested, t, interior, hp, hc, rfl⟩ := hformed
    obtain rfl : none = nested := hscanned.symm.trans hc.nested
    obtain ⟨-, hrun, -, hsub⟩ := hchart.body hp
    obtain ⟨m, hm, rfl⟩ := exists_matcher hchart hp
    have hsub : (compileMatcher m).subGrammar = none := hsub
    rw [subGrammar_compileMatcher, Option.map_eq_none_iff] at hsub
    have hclose : { c with nested := none } = c := by rw [← hc.nested]
    rw [Lexeme.flat, hclose, startsWith_compileMatcher]
    exact .whole interior hm hsub hrun hc
  | nested opener interior terminator c tokens =>
    obtain ⟨m, nested, t, hp, hc, rfl, rfl⟩ := hformed
    obtain ⟨id, spec, hid, hspec, htokens⟩ := Lexeme.Scanned.tokenize hlawful hscanned
    obtain rfl : some id = nested := hid.symm.trans hc.nested
    obtain ⟨-, hrun, -, compilation, b, terminator, hsub, hresult, -, hnest⟩ := hchart.body hp
    obtain ⟨m, hm, rfl⟩ := exists_matcher hchart hp
    rw [subGrammar_compileMatcher] at hsub
    obtain ⟨s, hs, rfl⟩ := Option.map_eq_some_iff.1 hsub
    cases hspec.symm.trans hnest
    have hclose : { c with nested := some id } = c := by rw [← hid]
    have hopener := (proper_compile h).opener (by
      rw [compileMatchers_eq]
      exact List.mem_map_of_mem hm)
    rw [startsWith_compileMatcher] at hopener
    rw [startsWith_compileMatcher]
    have hunfolds := Lexeme.Unfolds.nested (c := { c with nested := none }) hm hs hopener hrun
      hresult hc.flat htokens
    rwa [hclose] at hunfolds

/-- The lexemes of a grammar unfold those of the flat grammar. -/
theorem unfolds_lexemes (h : g.compile.result = .ok a) (hlone : g.toLexicon.LonePoint)
    {flat : Automaton} (hflat : g.flat.compile.result = .ok flat)
    (hmirrors : flat.toStateGraph.Mirrors id (fun _ => False) a.toStateGraph) {x : String}
    {ls : List Lexeme} (hls : a.lexemes x = .ok ls) :
    flat.lexemes x = .ok (ls.map .flat) ∧ ∀ l ∈ ls, l.flat.Unfolds g a l := by
  obtain ⟨place, hchart⟩ := charted_compile h
  obtain ⟨placeFlat, hchartFlat⟩ := charted_compile hflat
  have htakes (id : RunId) (spec : NestedRun Automaton) (hs : a.runs[id]? = some spec) :
      a.inner.Takes id := (lawful_compile g False.elim h).takes hs
  obtain ⟨⟨r₁, ls₁⟩, hread, hls⟩ := bind_eq_ok.1 hls
  obtain ⟨⟨r₂, ls₂⟩, hfinish, hls⟩ := bind_eq_ok.1 hls
  cases hls
  have hsound := Reading.sound_root hchart 0 (Array.replicate a.runs.length none)
  have hspelled := Reading.spelled_root hchart none (Array.replicate a.runs.length none)
  obtain ⟨hfed₁, hscanned₁⟩ :=
    hsound.take_scanned htakes (Reading.fed_of_run_eq_none rfl) hchart hread
  obtain ⟨hspelled₁, hformed₁⟩ := hspelled.take hsound hchart hlone hread
  have hsound₁ := hsound.take hchart hread
  obtain ⟨-, hscanned₂⟩ := hsound₁.take_scanned htakes hfed₁ hchart hfinish
  obtain ⟨-, hformed₂⟩ := hspelled₁.take hsound₁ hchart hlone hfinish
  have hroot : Reading.Flattens { idle := Array.replicate flat.runs.length none }
      { idle := Array.replicate a.runs.length none } := ⟨rfl, rfl⟩
  obtain ⟨r₁', hread', hflattens⟩ :=
    hroot.take flat.inner hmirrors hchart hchartFlat hread
  obtain ⟨r₂', hfinish', -⟩ :=
    hflattens.take flat.inner hmirrors hchart hchartFlat hfinish
  refine ⟨?_, List.forall_mem_append.2 ⟨fun l hl => ?_, fun l hl => ?_⟩⟩
  · simp only [Automaton.lexemes, hread', hfinish', ok_bind, List.map_append]
    rfl
  · exact unfolds_flat h hchart (hformed₁ l hl) (hscanned₁ l hl)
  · exact unfolds_flat h hchart (hformed₂ l hl) (hscanned₂ l hl)

end Grammar

/-- Chunks and the end of input give the tokens of the lexemes of the whole input. -/
theorem Grammar.performAll_lexemes {g : Grammar} {a : Automaton} (h : g.compile.result = .ok a)
    (chunks : List String) : Prod.snd <$>
      (Scanner.ofAutomaton a).performAll .collect #[] (chunks.map .consume ++ [.flush]) =
        (fun ls => (listing 0 ls).toArray) <$> a.lexemes (String.join chunks) := by
  obtain ⟨place, hchart⟩ := charted_compile h
  have hempty : (Scanner.ofAutomaton a).performAll .collect #[] [] =
      .ok (Scanner.ofAutomaton a, #[]) := rfl
  rw [(chunking h hempty .collect #[]).2.2 chunks, hchart.tokenize_eq]
  cases a.lexemes (String.join chunks) <;> rfl

/-- If points are lone, the flat grammar compiles as well, and on all chunks that a grammar can scan
the tokens are those of the flat grammar, except that each run whose interior has a grammar is
unfolded into the opener, the tokens of the interior alone and the end of the run. -/
theorem Grammar.nesting {g : Grammar} {a : Automaton} (h : g.compile.result = .ok a)
    (hlone : g.toLexicon.LonePoint) : ∃ flat, g.flat.compile.result = .ok flat ∧
    ∀ (chunks : List String) (s : Scanner) (tokens : Array Token),
      (Scanner.ofAutomaton a).performAll .collect #[] (chunks.map .consume ++ [.flush]) =
        .ok (s, tokens) →
      ∃ s₀ ls₀ ls, (Scanner.ofAutomaton flat).performAll .collect #[]
          (chunks.map .consume ++ [.flush]) = .ok (s₀, (listing 0 ls₀).toArray) ∧
        flat.lexemes (String.join chunks) = .ok ls₀ ∧ tokens = (listing 0 ls).toArray ∧
        List.Forall₂ (Lexeme.Unfolds g a) ls₀ ls := by
  obtain ⟨flat, hflat, hmirrors⟩ := flat_compile h
  refine ⟨flat, hflat, fun chunks s tokens hs => ?_⟩
  have hlexemes := performAll_lexemes h chunks
  rw [hs] at hlexemes
  cases hls : a.lexemes (String.join chunks) with
  | error e =>
    rw [hls] at hlexemes
    cases hlexemes
  | ok ls =>
    rw [hls] at hlexemes
    obtain ⟨hls₀, hunfolds⟩ := unfolds_lexemes h hlone hflat hmirrors hls
    have hlexemes₀ := performAll_lexemes hflat chunks
    rw [hls₀] at hlexemes₀
    cases hrun : (Scanner.ofAutomaton flat).performAll .collect #[]
      (chunks.map .consume ++ [.flush]) with
    | error e =>
      rw [hrun] at hlexemes₀
      cases hlexemes₀
    | ok z =>
      obtain ⟨s₀, tokens₀⟩ := z
      rw [hrun] at hlexemes₀
      cases hlexemes₀
      refine ⟨s₀, ls.map .flat, ls, rfl, hls₀, Except.ok.inj hlexemes, ?_⟩
      rw [List.forall₂_map_left_iff, List.forall₂_same]
      exact hunfolds

/-- Two chunks that meet inside a run. -/
theorem Grammar.nesting_bracketed : ∃ a s tokens flat s₀ ls₀ ls,
    bracketed.compile.result = .ok a ∧ bracketed.flat.compile.result = .ok flat ∧
    (Scanner.ofAutomaton a).performAll .collect #[]
      (["a<é+", "b\\>>;"].map .consume ++ [.flush]) = .ok (s, tokens) ∧
    (Scanner.ofAutomaton flat).performAll .collect #[]
      (["a<é+", "b\\>>;"].map .consume ++ [.flush]) = .ok (s₀, (listing 0 ls₀).toArray) ∧
    tokens = (listing 0 ls).toArray ∧ List.Forall₂ (Lexeme.Unfolds bracketed a) ls₀ ls := by
  obtain ⟨a, s, tokens, ha, hs⟩ := bracketed.exists_run
    (["a<é+", "b\\>>;"].map .consume ++ [.flush]) (by decide +kernel)
  obtain ⟨flat, hflat, hall⟩ := nesting ha (by decide)
  obtain ⟨s₀, ls₀, ls, hs₀, -, htokens, hunfolds⟩ := hall _ s tokens hs
  exact ⟨a, s, tokens, flat, s₀, ls₀, ls, ha, hflat, hs, hs₀, htokens, hunfolds⟩

/-- A grammar with a delimiter that begins with a point and goes on as a run does. -/
def Grammar.overlapping : Grammar where
  delimiters := [.bare ".>e"]
  greedyMatchers := [{
    kind := "X", startsWith := ">", endsWith := some "e", subGrammar := some {} }]

/-- The point also begins a number, which the delimiter is to end. When one more character comes
after the delimiter, the text is cut the delimiter's three bytes before its end, and the run that
ends there is given out with a character after its terminator. So it is not an opener, an interior
and a terminator, and is not unfolded into them. -/
theorem Grammar.tokenize_overlapping : ∃ a flat,
    overlapping.compile.result = .ok a ∧ overlapping.flat.compile.result = .ok flat ∧
    flat.tokenize ".>e." = .ok [⟨".", "NUMBER", 0⟩, ⟨">e.", "X", 1⟩] ∧
    (∀ w : String, ">e." ≠ ">" ++ w ++ "e") ∧
    a.tokenize ".>e." =
      .ok [⟨".", "NUMBER", 0⟩, ⟨">", "X", 1⟩, ⟨"e", "IDENTIFIER", 2⟩, ⟨".", "X", 3⟩] := by
  have h : (overlapping.compile.result.toOption.bind fun a => (a.tokenize ".>e.").toOption) =
      some [⟨".", "NUMBER", 0⟩, ⟨">", "X", 1⟩, ⟨"e", "IDENTIFIER", 2⟩, ⟨".", "X", 3⟩] := by
    decide +kernel
  have hFlat : (overlapping.flat.compile.result.toOption.bind fun a =>
      (a.tokenize ".>e.").toOption) = some [⟨".", "NUMBER", 0⟩, ⟨">e.", "X", 1⟩] := by
    decide +kernel
  obtain ⟨a, ha, htokens⟩ := exists_tokens h
  obtain ⟨flat, hflat, htokensFlat⟩ := exists_tokens hFlat
  refine ⟨a, flat, ha, hflat, htokensFlat, fun w hw => ?_, htokens⟩
  have hlast := congrArg (fun t : String => t.toList.getLast?) hw
  simp [List.getLast?_cons] at hlast

end TrieLexer
