import TrieLexer.Proofs.Concord
import TrieLexer.Proofs.Muting

/-!
# Grammars with and without unnamed delimiters

Whether unnamed delimiters become tokens is asked when an automaton is finished, and nowhere else in
its making. So a grammar that includes them and the same grammar that leaves them out have automata
that differ in a label, and in their interiors if these differ as well.

## Main definitions

* `Grammar.including` — a grammar with or without unnamed delimiters, its interiors too if asked.
* `Grammar.Emits` — a label under which some scan gives a token out.
* `Compilation.Mutes` — two outcomes of compiling of which the second leaves out some tokens.

## Main results

* `Assembly.congruence_mutes` — building does not look at the automata of interiors.
* `Grammar.mutes_compile` — compiling with unnamed delimiters and without them.
* `Grammar.not_emits` — a label that nothing in a grammar has is not that of a token.
* `Grammar.muting` — including unnamed delimiters adds tokens under their label, and changes nothing
  else.
-/

namespace TrieLexer

/-- The lexicon with or without unnamed delimiters among the tokens. -/
def Lexicon.including (lexicon : Lexicon) (included : Bool) : Lexicon :=
  { lexicon with includeUnnamedDelimiters := included }

mutual

/-- The grammar with or without unnamed delimiters among the tokens, and the grammars of its
interiors too if `deep` is set. -/
def Grammar.including (included deep : Bool) : Grammar → Grammar
  | ⟨lexicon, matchers⟩ => ⟨lexicon.including included,
      if deep then includingMatchers included matchers else matchers⟩

/-- Greedy matchers with or without unnamed delimiters in their interiors. -/
def includingMatchers (included : Bool) :
    List (GreedyMatcher Grammar) → List (GreedyMatcher Grammar)
  | [] => []
  | m :: ms => includingMatcher included m :: includingMatchers included ms

/-- A greedy matcher with or without unnamed delimiters in its interior. -/
def includingMatcher (included : Bool) : GreedyMatcher Grammar → GreedyMatcher Grammar
  | ⟨kind, startsWith, endsWith, haltsWith, escapesWith, interior⟩ =>
    ⟨kind, startsWith, endsWith, haltsWith, escapesWith, includingInterior included interior⟩

/-- An interior with or without unnamed delimiters. -/
def includingInterior (included : Bool) : Option Grammar → Option Grammar
  | none => none
  | some grammar => some (grammar.including included true)

end

theorem includingMatchers_eq (included : Bool) (ms : List (GreedyMatcher Grammar)) :
    includingMatchers included ms =
      ms.map fun m => { m with subGrammar := m.subGrammar.map (·.including included true) } := by
  induction ms with
  | nil => rw [includingMatchers, List.map_nil]
  | cons m ms ih =>
    obtain ⟨kind, startsWith, endsWith, haltsWith, escapesWith, interior⟩ := m
    rw [includingMatchers, ih, List.map_cons]
    cases interior <;> rw [includingMatcher, includingInterior] <;> rfl

/-- The rules for grammars do not ask for unnamed delimiters. -/
theorem Grammar.validate_including (included deep : Bool) (g : Grammar) :
    (g.including included deep).validate = g.validate := by
  induction g using Grammar.induct generalizing deep with
  | step g ih =>
    obtain ⟨lexicon, matchers⟩ := g
    rw [including, validate, validate]
    cases deep with
    | false => rfl
    | true =>
      have hmatcher : ∀ m ∈ matchers, validateMatcher
          { m with subGrammar := m.subGrammar.map (·.including included true) } =
            validateMatcher m := by
        rintro ⟨kind, startsWith, endsWith, haltsWith, escapesWith, interior⟩ hm
        cases interior with
        | none => rfl
        | some s =>
          change validateMatcher ⟨kind, startsWith, endsWith, haltsWith, escapesWith,
            some (s.including included true)⟩ = _
          rw [validateMatcher, validateMatcher, validateInterior, validateInterior,
            ih _ hm s rfl true]
      have hmatchers : validateMatchers (includingMatchers included matchers) =
          validateMatchers matchers := by
        rw [includingMatchers_eq]
        clear ih
        induction matchers with
        | nil => rfl
        | cons m ms ihms =>
          rw [List.forall_mem_cons] at hmatcher
          rw [List.map_cons, validateMatchers, validateMatchers, hmatcher.1, ihms hmatcher.2]
      rw [if_pos rfl, hmatchers]
      rfl

/-! ### Building -/

variable {label : Label} {named : Label → Prop}

/-- Two outcomes of compiling: the same error, or automata of which the second leaves out some
tokens. The same warnings are raised. -/
structure Compilation.Mutes (label : Label) (named : Label → Prop) (c c' : Compilation) : Prop where
  result : Agrees (Automaton.Mutes label named) c.result c'.result
  warnings : c'.warnings = c.warnings

/-- Drafts that differ in their nested runs alone. -/
inductive Draft.Mutes (label : Label) (named : Label → Prop) : Draft → Draft → Prop
  | mk {runs : Array (NestedRun Automaton)} {d : Draft}
      (h : List.Forall₂ (NestedRun.Mutes label named) d.runs.toList runs.toList) :
      Mutes label named d { d with runs }

namespace Draft.Mutes

variable {d d' : Draft}

theorem warnings_eq (h : Draft.Mutes label named d d') : d'.warnings = d.warnings := by
  cases h with
  | mk h => rfl

theorem withWarnings (h : Draft.Mutes label named d d') (ws : Array Warning) :
    Draft.Mutes label named { d with warnings := ws } { d' with warnings := ws } := by
  cases h with
  | mk h => exact .mk h

/-- A step that neither sees nor changes the runs does the same. -/
theorem aloof (h : Draft.Mutes label named d d') {α : Type} {f : Draft → α × Draft}
    (hf : Draft.Aloof f) : (f d').1 = (f d).1 ∧ Draft.Mutes label named (f d).2 (f d').2 := by
  cases h with
  | @mk runs d h =>
    have hsame : f { d with runs } = ((f d).1, { (f d).2 with runs }) := by
      have haside := hf d d.warnings runs
      rwa [show ({ (f d).2 with warnings := d.warnings, runs := runs } : Draft) =
        { (f d).2 with runs } by rw [← hf.blind.warnings d]] at haside
    rw [hsame]
    exact ⟨rfl, .mk (hf.runs d ▸ h)⟩

end Draft.Mutes

namespace Assembly

/-- Two building steps do the same to drafts that differ in their nested runs alone. -/
def Mutes (label : Label) (named : Label → Prop) (α : Type) (x y : Assembly α) : Prop :=
  ∀ d d', Draft.Mutes label named d d' → (y.run.run d').1 = (x.run.run d).1 ∧
    Draft.Mutes label named (x.run.run d).2 (y.run.run d').2

theorem congruence_mutes (label : Label) (named : Label → Prop) (policy : ConflictPolicy) :
    Congruence policy policy (Mutes label named) where
  aloof hf d d' hd := by
    obtain ⟨hresult, hdraft⟩ := hd.aloof hf
    exact ⟨congrArg Except.ok hresult, hdraft⟩
  contest {α e w f} _ hf d d' hd := by
    cases policy with
    | reject => exact ⟨rfl, hd⟩
    | lastWins =>
      obtain ⟨hresult, hdraft⟩ := hd.aloof hf
      rw [run_contest_lastWins hf.blind, run_contest_lastWins hf.blind, hd.warnings_eq]
      exact ⟨congrArg Except.ok hresult, hdraft.withWarnings _⟩
  look hf d d' hd := by
    have hsame := hd
    cases hd with
    | @mk runs d h => exact hf d d.warnings runs d { d with runs } hsame
  bind {α β x y f g} hx hf d d' hd := by
    obtain ⟨hresult, hdraft⟩ := hx d d' hd
    rw [run_bind, run_bind]
    generalize x.run.run d = z at hresult hdraft ⊢
    generalize y.run.run d' = z' at hresult hdraft ⊢
    obtain ⟨r, d₁⟩ := z
    obtain ⟨r', d₁'⟩ := z'
    obtain rfl : r' = r := hresult
    cases r' with
    | error e => exact ⟨rfl, hdraft⟩
    | ok a => exact hf a d₁ d₁' hdraft

theorem mutes_warn (ws : List Warning) :
    Mutes label named PUnit (modify fun d => ws.foldl Draft.warn d)
      (modify fun d => ws.foldl Draft.warn d) := by
  intro d d' hd
  refine ⟨rfl, ?_⟩
  change Draft.Mutes label named (ws.foldl Draft.warn d) (ws.foldl Draft.warn d')
  rw [Draft.foldl_warn, Draft.foldl_warn, hd.warnings_eq]
  exact hd.withWarnings _

/-- A nested run is put away in the same place. -/
theorem mutes_push {run run' : NestedRun Automaton} (h : run.Mutes label named run') :
    Mutes label named RunId
      (modifyGet fun d => (d.runs.size, { d with runs := d.runs.push run }))
      (modifyGet fun d => (d.runs.size, { d with runs := d.runs.push run' })) := by
  intro d d' hd
  cases hd with
  | @mk runs d hruns =>
    refine ⟨congrArg Except.ok ?_, .mk ?_⟩
    · simpa using hruns.length_eq.symm
    · change List.Forall₂ _ (d.runs.push run).toList (runs.push run').toList
      rw [Array.toList_push, Array.toList_push]
      exact List.rel_append hruns (.cons h .nil)

/-- The automata of interiors are put away without being looked at. -/
theorem pairs_mutes {m : GreedyMatcher Compilation} {interior : Option Compilation}
    (h : Option.Rel (Compilation.Mutes label named) m.subGrammar interior) :
    Congruence.Pairs (Mutes label named) m { m with subGrammar := interior } where
  eq := ⟨interior, rfl⟩
  escape _ _ hd := ⟨rfl, hd⟩
  nested terminator ht := by
    have hc := congruence_mutes label named .lastWins
    obtain ⟨kind, startsWith, endsWith, haltsWith, escapesWith, subGrammar⟩ := m
    cases h with
    | none => exact hc.done none
    | @some c c' h =>
      rw [Lexicon.addNestedRun, Lexicon.addNestedRun]
      dsimp only
      rw [h.warnings]
      refine hc.bind (mutes_warn c.warnings) fun _ => ?_
      have hresult := h.result
      generalize c.result = r at hresult ⊢
      generalize c'.result = r' at hresult ⊢
      cases hresult with
      | error e => exact fun _ _ hd => ⟨rfl, hd⟩
      | ok ha => exact hc.bind (mutes_push ⟨ha, rfl⟩) fun id => hc.done (some id)

end Assembly

/-- Two compiled matchers that differ in their interiors at most, which are related. -/
def GreedyMatcher.Mutes (label : Label) (m m' : GreedyMatcher Compilation) : Prop :=
  ∃ interior, m' = { m with subGrammar := interior } ∧
    Option.Rel (Compilation.Mutes label fun _ => True) m.subGrammar interior

namespace Lexicon

variable (lexicon : Lexicon)

/-- Finished with unnamed delimiters and without them, drafts give automata that differ in their
label. -/
theorem mutes_finish {d d' : Draft}
    (h : Draft.Mutes lexicon.labels.delimiter (fun _ => True) d d') :
    ((lexicon.including true).finish d).Mutes lexicon.labels.delimiter (fun _ => True)
      ((lexicon.including false).finish d') := by
  cases h with
  | @mk runs d h =>
    have hruns : ((lexicon.including true).finish d).runs = d.runs.toList :=
      congrArg Automaton.runs ((lexicon.including true).finish_aside d d.warnings d.runs)
    have hfinish := (lexicon.including false).finish_aside d d.warnings runs
    change (lexicon.including false).finish { d with runs } = _ at hfinish
    rw [hfinish]
    rw [← hruns] at h
    refine @Automaton.mutes_of_forall₂ _ _ ((lexicon.including true).finish d).toStateGraph none _ _
      ⟨fun _ => trivial, fun _ => trivial, fun _ => trivial, fun {n l} _ => ?_⟩ h
    cases l with
    | none => exact .drop
    | some kind => exact .some trivial

/-- Assembled with unnamed delimiters and without them, matchers whose interiors are related give
related automata. -/
theorem mutes_assemble {ms ms' : List (GreedyMatcher Compilation)}
    (hms : List.Forall₂ (GreedyMatcher.Mutes lexicon.labels.delimiter) ms ms') :
    Compilation.Mutes lexicon.labels.delimiter (fun _ => True)
      ((lexicon.including true).assemble ms) ((lexicon.including false).assemble ms') := by
  have hpairs : List.Forall₂ (Assembly.Congruence.Pairs
      (Assembly.Mutes lexicon.labels.delimiter fun _ => True)) ms ms' := by
    refine hms.imp ?_
    rintro m _ ⟨interior, rfl, hinterior⟩
    exact Assembly.pairs_mutes hinterior
  have hbuild : Assembly.Mutes lexicon.labels.delimiter (fun _ => True) _ (lexicon.build ms)
      (lexicon.build ms') := (Assembly.congruence_mutes _ _ lexicon.conflicts).build hpairs
  obtain ⟨hresult, hdraft⟩ := hbuild .start .start (.mk .nil)
  rw [assemble_eq, assemble_eq]
  change Compilation.Mutes _ _
    { result := ((lexicon.build ms).run.run .start).1.map fun _ =>
        (lexicon.including true).finish ((lexicon.build ms).run.run .start).2
      warnings := ((lexicon.build ms).run.run .start).2.warnings.toList }
    { result := ((lexicon.build ms').run.run .start).1.map fun _ =>
        (lexicon.including false).finish ((lexicon.build ms').run.run .start).2
      warnings := ((lexicon.build ms').run.run .start).2.warnings.toList }
  generalize (lexicon.build ms).run.run .start = z at hresult hdraft ⊢
  generalize (lexicon.build ms').run.run .start = z' at hresult hdraft ⊢
  obtain ⟨r, d⟩ := z
  obtain ⟨r', d'⟩ := z'
  obtain rfl : r' = r := hresult
  refine ⟨?_, congrArg Array.toList hdraft.warnings_eq⟩
  cases r' with
  | error e => exact .error e
  | ok u => exact .ok (lexicon.mutes_finish hdraft)

end Lexicon

/-! ### Compiling -/

namespace Grammar

/-- An automaton leaves out nothing of its own tokens. The labels under which it and its interiors
give text out are named if those of the grammar are. -/
theorem mutes_self (g : Grammar)
    (hnamed : ∀ s, g.Contains s → ∀ group, ∀ l ∈ s.labelsOf group, named l) {a : Automaton}
    (h : g.compile.result = .ok a) : a.Mutes label named a := by
  induction g using Grammar.induct generalizing a with
  | step g ih =>
    obtain ⟨hunnamed, place, hchart, htitled⟩ := titled_compile h
    have hown (group : LabelGroup) {l : Label} (hl : l ∈ g.labelsOf group) : named l :=
      hnamed g (.refl g) group l hl
    obtain ⟨graph, runs⟩ := a
    refine Automaton.mutes_of_forall₂ ⟨fun hr => ?_, fun hb => ?_, fun hc => ?_, fun {n l} hl => ?_⟩
      (List.forall₂_same.2 ?_)
    · exact hown .punctuation (htitled.punctuation_of_release hr)
    · exact (htitled.bears_of_boundary hb).elim (hown .category) (hown .keyword)
    · rcases htitled.ends_of_close hchart hc with ⟨-, hrun⟩ | ⟨-, _, -, -, hhalted⟩
      · exact hown .run hrun
      · exact hown .halted hhalted
    · exact .same fun kind hkind =>
        hown .delimiter (htitled.delimiter_of_literal hunnamed hl hkind)
    · intro run hrun
      obtain ⟨m, hm, s, hs, hinner⟩ := hchart.exists_of_mem hrun
      exact ⟨ih m hm s hs (fun t ht => hnamed t (.interior hm hs ht)) hinner, rfl⟩

/-- The compiled interior of a matcher leaves out nothing of its own tokens. -/
theorem mutes_compileMatcher (label : Label) (m : GreedyMatcher Grammar) :
    GreedyMatcher.Mutes label (compileMatcher m) (compileMatcher m) := by
  refine ⟨_, rfl, ?_⟩
  rw [subGrammar_compileMatcher]
  cases m.subGrammar with
  | none => exact .none
  | some s =>
    refine .some ⟨?_, rfl⟩
    cases ha : s.compile.result with
    | error e => exact .error e
    | ok a => exact .ok (s.mutes_self (fun _ _ _ _ _ => trivial) ha)

/-- Compiling with unnamed delimiters and without them ends alike. -/
theorem mutes_compile (g : Grammar) {deep : Bool} {label : Label}
    (hlabel : g.labels.delimiter = label)
    (hdeep : deep = true → ∀ s, g.Contains s → s.labels.delimiter = label) :
    Compilation.Mutes label (fun _ => True) (g.including true deep).compile
      (g.including false deep).compile := by
  induction g using Grammar.induct generalizing deep with
  | step g ih =>
    cases hvalid : g.validate with
    | error e =>
      rw [compile_of_invalid ((validate_including true deep g).trans hvalid),
        compile_of_invalid ((validate_including false deep g).trans hvalid)]
      exact ⟨.error e, rfl⟩
    | ok u =>
      rw [compile_of_valid ((validate_including true deep g).trans hvalid),
        compile_of_valid ((validate_including false deep g).trans hvalid)]
      obtain ⟨lexicon, matchers⟩ := g
      subst hlabel
      rw [including, including]
      refine lexicon.mutes_assemble ?_
      cases deep with
      | false =>
        change List.Forall₂ _ (compileMatchers matchers) (compileMatchers matchers)
        rw [compileMatchers_eq, List.forall₂_map_left_iff, List.forall₂_map_right_iff,
          List.forall₂_same]
        exact fun m _ => mutes_compileMatcher _ m
      | true =>
        change List.Forall₂ _ (compileMatchers (includingMatchers true matchers))
          (compileMatchers (includingMatchers false matchers))
        rw [compileMatchers_eq, compileMatchers_eq, includingMatchers_eq, includingMatchers_eq,
          List.map_map, List.map_map, List.forall₂_map_left_iff, List.forall₂_map_right_iff,
          List.forall₂_same]
        intro m hm
        have hinterior (s : Grammar) (hs : m.subGrammar = some s) :
            Compilation.Mutes lexicon.labels.delimiter (fun _ => True)
              (s.including true true).compile (s.including false true).compile :=
          ih m hm s hs (hdeep rfl s (.interior hm hs (.refl s))) fun _ t ht =>
            hdeep rfl t (.interior hm hs ht)
        obtain ⟨kind, startsWith, endsWith, haltsWith, escapesWith, interior⟩ := m
        refine ⟨_, rfl, ?_⟩
        rw [Function.comp_apply, subGrammar_compileMatcher]
        cases interior with
        | none => exact .none
        | some s => exact .some (hinterior s rfl)

/-! ### Scanning -/

/-- Some scan of the grammar gives a token out under the label. -/
def Emits (g : Grammar) (label : Label) : Prop :=
  ∃ a calls s tokens, g.compile.result = .ok a ∧
    (Scanner.ofAutomaton a).performAll .collect #[] calls = .ok (s, tokens) ∧
    ∃ t ∈ tokens.toList, t.kind = label

/-- A label that nothing in a grammar and in its interiors has is not that of a token. -/
theorem not_emits {g : Grammar} {label : Label}
    (h : ∀ s, g.Contains s → ∀ group, label ∉ s.labelsOf group) : ¬g.Emits label := by
  rintro ⟨a, calls, s, tokens, ha, hrun, t, ht, hkind⟩
  have hself : a.Mutes label (fun l => ∃ s, g.Contains s ∧ ∃ group, l ∈ s.labelsOf group) a :=
    g.mutes_self (fun s hs group l hl => ⟨s, hs, group, hl⟩) ha
  have hsame := hself.ofAutomaton.performAll calls
  rw [hrun] at hsame
  cases hsame with
  | ok hmutes =>
    obtain ⟨s, hs, group, hl⟩ := hmutes.tokens.named_of_mem ht
    exact h s hs group (hkind ▸ hl)

/-- Whether unnamed delimiters are included makes no difference to whether a grammar compiles, to
where its scanner stands after any calls or to the text that is pending then. If nothing else has
their label, the tokens without them are the tokens with them but for those under this label. If the
interiors include them or not together with the grammar, they have the same label there. -/
theorem muting (g : Grammar) (deep : Bool)
    (hdeep : deep = true → ∀ s, g.Contains s → s.labels.delimiter = g.labels.delimiter)
    (hother : ¬(g.including false deep).Emits g.labels.delimiter) :
    Agrees (fun a b => ∀ calls, Agrees
        (fun x y => y.2.toList = x.2.toList.filter (·.kind != g.labels.delimiter) ∧
          y.1.position = x.1.position ∧ y.1.pending = x.1.pending)
        ((Scanner.ofAutomaton a).performAll .collect #[] calls)
        ((Scanner.ofAutomaton b).performAll .collect #[] calls))
      (g.including true deep).compile.result (g.including false deep).compile.result := by
  have hcompile := (g.mutes_compile rfl hdeep).result
  generalize (g.including true deep).compile.result = x at hcompile ⊢
  generalize hy : (g.including false deep).compile.result = y at hcompile ⊢
  cases hcompile with
  | error e => exact .error e
  | @ok a b hmutes =>
    refine .ok fun calls => ?_
    have hcalls := hmutes.ofAutomaton.performAll calls
    generalize (Scanner.ofAutomaton a).performAll .collect #[] calls = u at hcalls ⊢
    generalize hv : (Scanner.ofAutomaton b).performAll .collect #[] calls = v at hcalls ⊢
    cases hcalls with
    | error e => exact .error e
    | @ok u v hout =>
      refine .ok ⟨?_, hout.position_eq, hout.pending_eq⟩
      rw [← hout.tokens.filter_eq, eq_comm, List.filter_eq_self]
      intro t ht
      rw [bne_iff_ne]
      exact fun hkind => hother ⟨b, calls, v.1, v.2, hy, hv, t, ht, hkind⟩

/-- What is contained in a grammar whose interiors have no matchers. -/
theorem Contains.eq_or_interior {g s : Grammar} (h : g.Contains s)
    (hflat : ∀ m ∈ g.greedyMatchers, ∀ t, m.subGrammar = some t → t.greedyMatchers = []) :
    s = g ∨ ∃ m ∈ g.greedyMatchers, m.subGrammar = some s := by
  cases h with
  | refl => exact .inl rfl
  | interior hm ht hs =>
    cases hs with
    | refl => exact .inr ⟨_, hm, ht⟩
    | interior hm' =>
      rw [hflat _ hm _ ht] at hm'
      cases hm'

/-- A grammar with unnamed delimiters here and in an interior. -/
def spaced : Grammar where
  delimiters := [.bare " "]
  greedyMatchers := [{
    kind := "list", startsWith := "[", endsWith := some "]"
    subGrammar := some { delimiters := [.bare ",", .named "stop" (.one ";")] } }]

/-- Delimiters are left out here and in an interior that the end of a chunk cuts. -/
theorem muting_spaced : ∃ a b s s' tokens tokens',
    (spaced.including true true).compile.result = .ok a ∧
    (spaced.including false true).compile.result = .ok b ∧
    (Scanner.ofAutomaton a).performAll .collect #[] [.consume "a [b,", .consume "c;] d"] =
      .ok (s, tokens) ∧
    (Scanner.ofAutomaton b).performAll .collect #[] [.consume "a [b,", .consume "c;] d"] =
      .ok (s', tokens') ∧
    tokens.toList.map (·.kind) = ["IDENTIFIER", "DELIMITER", "list", "IDENTIFIER", "DELIMITER",
      "IDENTIFIER", "stop", "list", "DELIMITER"] ∧
    tokens'.toList = tokens.toList.filter (·.kind != "DELIMITER") ∧
    s'.position = s.position ∧ s'.pending = s.pending := by
  have hdeep (s : Grammar) (hs : spaced.Contains s) : s.labels.delimiter = "DELIMITER" := by
    rcases hs.eq_or_interior (by simp [spaced]) with rfl | ⟨m, hm, hs⟩
    · rfl
    · obtain rfl := List.mem_singleton.1 hm
      cases hs
      rfl
  have hother : ¬(spaced.including false true).Emits "DELIMITER" := by
    refine not_emits fun s hs group => ?_
    rcases hs.eq_or_interior (by
      simp [spaced, including, includingMatchers, includingMatcher, includingInterior]) with
      rfl | ⟨m, hm, hs⟩
    · cases group <;> decide
    · obtain rfl := List.mem_singleton.1 hm
      cases hs
      cases group <;> decide
  have hkinds : ((spaced.including true true).compile.result.toOption.bind fun a =>
      ((Scanner.ofAutomaton a).performAll .collect #[]
        [.consume "a [b,", .consume "c;] d"]).toOption.map fun x => x.2.toList.map (·.kind)) =
      some ["IDENTIFIER", "DELIMITER", "list", "IDENTIFIER", "DELIMITER", "IDENTIFIER", "stop",
        "list", "DELIMITER"] := by decide +kernel
  obtain ⟨a, ha, hkinds⟩ := Option.bind_eq_some_iff.1 hkinds
  obtain ⟨⟨s, tokens⟩, hs, hkinds⟩ := Option.map_eq_some_iff.1 hkinds
  obtain ⟨b, s', tokens', hb, hs'⟩ := (spaced.including false true).exists_run
    [.consume "a [b,", .consume "c;] d"] (by decide +kernel)
  have hboth := spaced.muting true (fun _ => hdeep) hother
  rw [eq_ok_of_toOption ha, hb] at hboth
  cases hboth with
  | ok hcalls =>
    have hout := hcalls [.consume "a [b,", .consume "c;] d"]
    rw [eq_ok_of_toOption hs, hs'] at hout
    cases hout with
    | ok hout =>
      exact ⟨a, b, s, s', tokens, tokens', eq_ok_of_toOption ha, hb, eq_ok_of_toOption hs, hs',
        hkinds, hout⟩

end Grammar

end TrieLexer
