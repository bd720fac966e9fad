import TrieLexer.Proofs.Refusal

/-!
# Two policies side by side

A grammar that rejects conflicts and the same grammar that lets the last definition win are built in
step, up to the first conflict: there the one is refused, and the other raises a warning about the
same literal. The grammars of interiors keep their own policies, and their warnings are not counted.

## Main definitions

* `GreedyMatcher.hush`, `Grammar.ownWarnings` — the warnings of a grammar without those of
  interiors.
* `Blends` — warnings among which others stand.
* `Assembly.Concurs` — two building steps go on in step up to the first conflict.

## Main results

* `Lexicon.assemble_hush` — interiors that raise no warnings give the same automaton.
* `Assembly.congruence_concurs` — building goes on in step.
* `Grammar.concord` — what the outcome under one policy says about that under the other.
* `Grammar.tokenize_entwined` — two orders of the same keywords that give different tokens.
* `Grammar.tokenize_outbid` — a definition that has been replaced and still acts.
-/

namespace TrieLexer

/-! ### Own warnings -/

/-- A matcher whose interior raises no warnings. -/
def GreedyMatcher.hush (m : GreedyMatcher Compilation) : GreedyMatcher Compilation :=
  { m with subGrammar := m.subGrammar.map fun interior => { interior with warnings := [] } }

/-- The warnings that a grammar raises itself, without those of the grammars of its interiors. -/
def Grammar.ownWarnings (g : Grammar) : List Warning :=
  match g.validate with
  | .error _ => []
  | .ok () => (g.toLexicon.assemble ((compileMatchers g.greedyMatchers).map .hush)).warnings

/-- The warnings of a list in their order, with others in between. -/
inductive Blends (other : Warning → Prop) : List Warning → List Warning → Prop
  | nil : Blends other [] []
  | own {ws full : List Warning} (w : Warning) (h : Blends other ws full) :
      Blends other (w :: ws) (w :: full)
  | other {ws full : List Warning} {w : Warning} (hw : other w) (h : Blends other ws full) :
      Blends other ws (w :: full)

namespace Blends

variable {other : Warning → Prop} {ws ws' full full' : List Warning}

theorem append (h : Blends other ws full) (h' : Blends other ws' full') :
    Blends other (ws ++ ws') (full ++ full') := by
  induction h with
  | nil => exact h'
  | own w _ ih => exact .own w ih
  | other hw _ ih => exact .other hw ih

theorem others (h : ∀ w ∈ full, other w) : Blends other [] full := by
  induction full with
  | nil => exact .nil
  | cons w full ih =>
    rw [List.forall_mem_cons] at h
    exact .other h.1 (ih h.2)

end Blends

/-- Finishing a draft does not look at its warnings. -/
theorem Lexicon.finish_warnings (lexicon : Lexicon) (d : Draft) (ws : Array Warning) :
    lexicon.finish { d with warnings := ws } = lexicon.finish d :=
  (lexicon.finish_aside d ws d.runs).trans (lexicon.finish_aside d d.warnings d.runs).symm

namespace Assembly

/-- The second of two building steps does what the first one does, but for warnings that it leaves
out. -/
def Hushes (other : Warning → Prop) (α : Type) (x y : Assembly α) : Prop :=
  ∀ d ws, ∃ own full, Blends other own full ∧
    (x.run.run d).2.warnings = d.warnings ++ full.toArray ∧
    y.run.run { d with warnings := ws } =
      ((x.run.run d).1, { (x.run.run d).2 with warnings := ws ++ own.toArray })

theorem hushes_modifyGet (other : Warning → Prop) {α : Type} {f : Draft → α × Draft}
    (hf : Draft.Blind f) : Hushes other α (modifyGet f) (modifyGet f) := by
  intro d ws
  refine ⟨[], [], .nil, ?_, ?_⟩
  · rw [run_modifyGet, hf.warnings, Array.append_empty]
  · rw [run_modifyGet, run_modifyGet, hf d ws, Array.append_empty]

theorem congruence_hushes (other : Warning → Prop) (policy : ConflictPolicy) :
    Congruence policy policy (Hushes other) where
  aloof hf := hushes_modifyGet other hf.blind
  contest {α e w f} _ hf d ws := by
    cases policy with
    | reject => exact ⟨[], [], .nil, rfl, by rw [Array.append_empty]; rfl⟩
    | lastWins =>
      refine ⟨[w], [w], .own w .nil, ?_, ?_⟩
      · rw [run_contest_lastWins hf.blind]
        rfl
      · rw [run_contest_lastWins hf.blind, run_contest_lastWins hf.blind, hf.blind d ws]
        rfl
  look hf d ws := hf d ws d.runs d ws
  bind {α β x y f g} hx hf d ws := by
    obtain ⟨own, full, hblends, hfull, hown⟩ := hx d ws
    rw [run_bind, run_bind, hown]
    cases hrun : x.run.run d with
    | mk r d₁ =>
      rw [hrun] at hfull
      cases r with
      | error e => exact ⟨own, full, hblends, hfull, rfl⟩
      | ok a =>
        obtain ⟨own', full', hblends', hfull', hown'⟩ := hf a d₁ (ws ++ own.toArray)
        refine ⟨own ++ own', full ++ full', hblends.append hblends', ?_, ?_⟩
        · change d₁.warnings = d.warnings ++ full.toArray at hfull
          simp [hfull', hfull, Array.append_assoc]
        · simp [hown', Array.append_assoc]

/-- A matcher is hushed by leaving out the warnings of its interior. -/
theorem pairs_hush {other : Warning → Prop} {m : GreedyMatcher Compilation}
    (hother : m.terminator ≠ none → ∀ interior, m.subGrammar = some interior →
      ∀ w ∈ interior.warnings, other w) : Congruence.Pairs (Hushes other) m m.hush where
  eq := ⟨_, rfl⟩
  escape d ws := ⟨[], [], .nil, rfl, by rw [Array.append_empty]; rfl⟩
  nested terminator ht d ws := by
    have hc := congruence_hushes other .lastWins
    rw [Lexicon.addNestedRun, Lexicon.addNestedRun, GreedyMatcher.hush]
    cases hs : m.subGrammar with
    | none => exact hc.done none d ws
    | some interior =>
      have hwarn : Hushes other PUnit (modify fun d => interior.warnings.foldl Draft.warn d)
          (modify fun d => d) := fun d ws => by
        refine ⟨[], interior.warnings, .others (hother (ht ▸ Option.some_ne_none _) _ hs), ?_, ?_⟩
        · change (interior.warnings.foldl Draft.warn d).warnings = _
          rw [Draft.foldl_warn]
        · change (Except.ok PUnit.unit, ({ d with warnings := ws } : Draft)) =
            (Except.ok PUnit.unit,
              { interior.warnings.foldl Draft.warn d with warnings := ws ++ #[] })
          rw [Draft.foldl_warn, Array.append_empty]
      refine hc.bind hwarn (fun _ => ?_) d ws
      cases interior.result with
      | error source => exact fun d ws =>
        ⟨[], [], .nil, by rw [Array.append_empty]; rfl, by rw [Array.append_empty]; rfl⟩
      | ok automaton => exact hushes_modifyGet other fun _ _ => rfl

end Assembly

/-- Interiors that raise no warnings give the same result, and the warnings without theirs. -/
theorem Lexicon.assemble_hush {lexicon : Lexicon} {ms : List (GreedyMatcher Compilation)}
    {other : Warning → Prop} (hother : ∀ m ∈ ms, m.terminator ≠ none →
      ∀ interior, m.subGrammar = some interior → ∀ w ∈ interior.warnings, other w) :
    (lexicon.assemble (ms.map .hush)).result = (lexicon.assemble ms).result ∧
      Blends other (lexicon.assemble (ms.map .hush)).warnings (lexicon.assemble ms).warnings := by
  have hms : List.Forall₂ (Assembly.Congruence.Pairs (Assembly.Hushes other)) ms
      (ms.map .hush) := by
    rw [List.forall₂_map_right_iff, List.forall₂_same]
    exact fun m hm => Assembly.pairs_hush (hother m hm)
  have hbuild : Assembly.Hushes other _ (lexicon.build ms) (lexicon.build (ms.map .hush)) :=
    (Assembly.congruence_hushes other lexicon.conflicts).build hms
  obtain ⟨own, full, hblends, hfull, hown⟩ := hbuild .start #[]
  change (lexicon.build (ms.map .hush)).run.run .start = _ at hown
  rw [assemble_eq, assemble_eq, hown]
  dsimp only
  rw [finish_warnings, hfull]
  refine ⟨rfl, ?_⟩
  simpa [show Draft.start.warnings = #[] from rfl] using hblends

/-! ### Invalid grammars -/

section

variable {literal : String} {existing : Option Role} {incoming : Role}

theorem refuseEmptyLiteral_ne_conflict (kind : LiteralKind) (definitions : List Definition) :
    refuseEmptyLiteral kind definitions ≠ .error (.conflict literal existing incoming) := by
  intro h
  rw [refuseEmptyLiteral] at h
  split at h <;> cases h

theorem GreedyMatcher.escape_ne_conflict {γ : Type} (m : GreedyMatcher γ) :
    m.escape ≠ .error (.conflict literal existing incoming) := by
  intro h
  rw [escape] at h
  split at h <;> cases h

theorem GreedyMatcher.validate_ne_conflict {γ : Type} (m : GreedyMatcher γ) :
    m.validate ≠ .error (.conflict literal existing incoming) := by
  intro h
  rw [validate] at h
  cases hopener : m.startsWith.isEmpty with
  | true =>
    rw [hopener] at h
    cases h
  | false =>
    cases hkind : m.kind.isEmpty with
    | true =>
      rw [hopener, hkind] at h
      cases h
    | false =>
      rw [hopener, hkind] at h
      cases hescape : m.escape with
      | ok c =>
        rw [hescape] at h
        cases h
      | error e =>
        rw [hescape] at h
        cases h
        exact m.escape_ne_conflict hescape

theorem validateMatcher_ne_conflict (m : GreedyMatcher Grammar) :
    validateMatcher m ≠ .error (.conflict literal existing incoming) := by
  obtain ⟨kind, startsWith, endsWith, haltsWith, escapesWith, interior⟩ := m
  rw [validateMatcher, ne_eq, seq_eq_error]
  rintro (h | ⟨-, h⟩)
  · exact GreedyMatcher.validate_ne_conflict _ h
  · cases hinterior : validateInterior interior with
    | error e =>
      rw [hinterior] at h
      cases h
    | ok u =>
      rw [hinterior] at h
      cases h

theorem validateMatchers_ne_conflict (ms : List (GreedyMatcher Grammar)) :
    validateMatchers ms ≠ .error (.conflict literal existing incoming) := by
  induction ms with
  | nil => nofun
  | cons m ms ih =>
    rw [validateMatchers, ne_eq, seq_eq_error]
    rintro (h | ⟨-, h⟩)
    · exact validateMatcher_ne_conflict m h
    · exact ih h

/-- No conflict makes a grammar invalid. -/
theorem Grammar.validate_ne_conflict (g : Grammar) :
    g.validate ≠ .error (.conflict literal existing incoming) := by
  obtain ⟨lexicon, matchers⟩ := g
  simp only [validate, Lexicon.validate, ne_eq, seq_eq_error]
  rintro ((h | ⟨-, h | ⟨-, h⟩⟩) | ⟨-, h⟩)
  · exact refuseEmptyLiteral_ne_conflict _ _ h
  · exact refuseEmptyLiteral_ne_conflict _ _ h
  · exact refuseEmptyLiteral_ne_conflict _ _ h
  · exact validateMatchers_ne_conflict _ h

end

/-! ### In step up to the first conflict -/

namespace Assembly

/-- Two building steps do the same and raise no warning, or the first one fails for a conflict and
the second one raises a warning about it. -/
def Concurs (α : Type) (x y : Assembly α) : Prop :=
  ∀ d, (x.run.run d).2.warnings = d.warnings ∧
    (y.run.run d = x.run.run d ∧
        (∀ literal existing incoming,
          (x.run.run d).1 ≠ .error (.conflict literal existing incoming)) ∨
      ∃ e w ws, (x.run.run d).1 = .error e ∧ w.Reports e ∧
        (y.run.run d).2.warnings = d.warnings.push w ++ ws)

/-- The second step keeps the warnings that there are. -/
theorem Concurs.grows {α : Type} {x y : Assembly α} (h : Concurs α x y) (d : Draft) :
    ∃ ws, (y.run.run d).2.warnings = d.warnings ++ ws := by
  obtain ⟨hkeep, ⟨hsame, -⟩ | ⟨e, w, ws, -, -, hws⟩⟩ := h d
  · exact ⟨#[], by rw [hsame, hkeep, Array.append_empty]⟩
  · exact ⟨#[w] ++ ws, by rw [hws, Array.push_eq_append, Array.append_assoc]⟩

theorem concurs_modifyGet {α : Type} {f : Draft → α × Draft} (hf : Draft.Blind f) :
    Concurs α (modifyGet f) (modifyGet f) :=
  fun d => ⟨hf.warnings d, .inl ⟨rfl, nofun⟩⟩

theorem congruence_concurs : Congruence .reject .lastWins Concurs where
  aloof hf := concurs_modifyGet hf.blind
  contest {α e w f} hw hf d := by
    refine ⟨rfl, .inr ⟨e, w, #[], rfl, hw, ?_⟩⟩
    rw [run_contest_lastWins hf.blind, Array.append_empty]
  look hf d := hf d d.warnings d.runs d
  bind {α β x y f g} hx hf d := by
    obtain ⟨hkeep, hcase⟩ := hx d
    rw [run_bind, run_bind]
    cases hrun : x.run.run d with
    | mk r d₁ =>
      rw [hrun] at hkeep hcase
      dsimp only at hkeep
      rcases hcase with ⟨hsame, hconflict⟩ | ⟨e, w, ws, herror, hw, hws⟩
      · rw [hsame]
        cases r with
        | error e =>
          refine ⟨hkeep, .inl ⟨rfl, fun literal existing incoming h => ?_⟩⟩
          cases h
          exact hconflict _ _ _ rfl
        | ok a =>
          rw [← hkeep]
          exact hf a d₁
      · dsimp only at herror
        subst herror
        refine ⟨hkeep, .inr ⟨e, w, ?_⟩⟩
        cases hrun' : y.run.run d with
        | mk r' d₂ =>
          rw [hrun'] at hws
          cases r' with
          | error e' => exact ⟨ws, rfl, hw, hws⟩
          | ok a =>
            obtain ⟨ws', hws'⟩ := (hf a).grows d₂
            refine ⟨ws ++ ws', rfl, hw, ?_⟩
            rw [hws', show d₂.warnings = _ from hws, Array.append_assoc]

/-- A step that goes on alone concurs with itself if it raises no warning and knows no conflict. -/
theorem concurs_self {α : Type} {x : Assembly α}
    (h : ∀ d, (x.run.run d).2.warnings = d.warnings ∧ ∀ literal existing incoming,
      (x.run.run d).1 ≠ .error (.conflict literal existing incoming)) : Concurs α x x :=
  fun d => ⟨(h d).1, .inl ⟨rfl, (h d).2⟩⟩

/-- Hushed matchers ask for no policy. -/
theorem pairs_concurs (m : GreedyMatcher Compilation) :
    Congruence.Pairs Concurs m.hush m.hush where
  eq := ⟨_, rfl⟩
  escape := concurs_self fun d => ⟨rfl, fun _ _ _ => m.hush.escape_ne_conflict⟩
  nested terminator _ := by
    rw [Lexicon.addNestedRun, GreedyMatcher.hush]
    cases m.subGrammar with
    | none => exact congruence_concurs.done none
    | some interior =>
      refine congruence_concurs.bind (congruence_concurs.alter fun _ _ _ => rfl) fun _ => ?_
      cases interior.result with
      | error source => exact concurs_self fun d => ⟨rfl, fun _ _ _ h => by cases h⟩
      | ok automaton => exact concurs_modifyGet fun _ _ => rfl

end Assembly

namespace Grammar

/-- The grammar under another policy of its own. -/
def under (g : Grammar) (policy : ConflictPolicy) : Grammar := { g with conflicts := policy }

theorem validate_under (g : Grammar) (policy : ConflictPolicy) :
    (g.under policy).validate = g.validate := by
  obtain ⟨lexicon, matchers⟩ := g
  rw [under, validate, validate]
  rfl

/-- The matchers of interiors in which warnings may have been raised. -/
theorem blends_assemble (g : Grammar) (lexicon : Lexicon) :
    (lexicon.assemble ((compileMatchers g.greedyMatchers).map .hush)).result =
        (lexicon.assemble (compileMatchers g.greedyMatchers)).result ∧
      Blends (fun w => ∃ m ∈ g.greedyMatchers, m.terminator ≠ none ∧
          ∃ s, m.subGrammar = some s ∧ w ∈ s.compile.warnings)
        (lexicon.assemble ((compileMatchers g.greedyMatchers).map .hush)).warnings
        (lexicon.assemble (compileMatchers g.greedyMatchers)).warnings := by
  refine Lexicon.assemble_hush fun m hm ht interior hs w hw => ?_
  obtain ⟨x, hx, -, -, hterminator, -, -, hsub⟩ := exists_of_mem_compileMatchers hm
  rw [hsub] at hs
  obtain ⟨s, hinterior, rfl⟩ := Option.map_eq_some_iff.1 hs
  exact ⟨x, hx, hterminator ▸ ht, s, hinterior, hw⟩

/-- All warnings of a grammar are its own, in their order, with those of interiors in between. -/
theorem blends_ownWarnings (g : Grammar) :
    Blends (fun w => ∃ m ∈ g.greedyMatchers, m.terminator ≠ none ∧
      ∃ s, m.subGrammar = some s ∧ w ∈ s.compile.warnings) g.ownWarnings g.compile.warnings := by
  rw [ownWarnings]
  cases hvalid : g.validate with
  | error e =>
    rw [compile_of_invalid hvalid]
    exact .nil
  | ok u =>
    rw [compile_of_valid hvalid]
    exact (g.blends_assemble _).2

/-- A grammar that rejects conflicts and the same grammar that lets the last definition win agree up
to the first conflict. The one compiles if and only if the other does without a warning of its own,
and then to the same automaton; where the one is refused for a conflict of its own, the first
warning of the other is about it; and whatever else the one is refused for, the other is refused
for. -/
theorem concord (g : Grammar) :
    Blends (fun w => ∃ m ∈ g.greedyMatchers, m.terminator ≠ none ∧
        ∃ s, m.subGrammar = some s ∧ w ∈ s.compile.warnings)
      (g.under .lastWins).ownWarnings (g.under .lastWins).compile.warnings ∧
    (∀ a, (g.under .reject).compile.result = .ok a ↔
      (g.under .lastWins).compile.result = .ok a ∧ (g.under .lastWins).ownWarnings = []) ∧
    (∀ literal existing incoming,
      (g.under .reject).compile.result = .error (.conflict literal existing incoming) →
      ∃ w ws, (g.under .lastWins).ownWarnings = w :: ws ∧
        w.Reports (.conflict literal existing incoming)) ∧
    ∀ e, (∀ literal existing incoming, e ≠ .conflict literal existing incoming) →
      (g.under .reject).compile.result = .error e →
        (g.under .lastWins).compile.result = .error e := by
  refine ⟨(g.under .lastWins).blends_ownWarnings, ?_⟩
  cases hvalid : g.validate with
  | error e =>
    have hresult (policy : ConflictPolicy) : (g.under policy).compile.result = .error e := by
      rw [compile_of_invalid ((g.validate_under policy).trans hvalid)]
    rw [hresult, hresult]
    refine ⟨fun a => ⟨nofun, fun h => nomatch h.1⟩, fun literal existing incoming h => ?_,
      fun _ _ h => h⟩
    cases h
    exact absurd hvalid g.validate_ne_conflict
  | ok u =>
    have hresult (policy : ConflictPolicy) : (g.under policy).compile.result =
        ((g.toLexicon.under policy).assemble
          ((compileMatchers g.greedyMatchers).map .hush)).result := by
      rw [compile_of_valid ((g.validate_under policy).trans hvalid)]
      exact (g.blends_assemble _).1.symm
    have hown : (g.under .lastWins).ownWarnings = ((g.toLexicon.under .lastWins).assemble
        ((compileMatchers g.greedyMatchers).map .hush)).warnings := by
      rw [ownWarnings, (g.validate_under .lastWins).trans hvalid]
      rfl
    rw [hresult, hresult, hown, Lexicon.assemble_eq, Lexicon.assemble_eq]
    have hms : List.Forall₂ (Assembly.Congruence.Pairs Assembly.Concurs)
        ((compileMatchers g.greedyMatchers).map .hush)
        ((compileMatchers g.greedyMatchers).map .hush) := by
      rw [List.forall₂_same, List.forall_mem_map]
      exact fun m _ => Assembly.pairs_concurs m
    obtain ⟨hkeep, hcase⟩ :=
      (Assembly.congruence_concurs.build hms :
        Assembly.Concurs _ (g.toLexicon.under .reject |>.build _)
          (g.toLexicon.under .lastWins |>.build _)) .start
    generalize ((g.toLexicon.under .reject).build _).run.run .start = strict at hkeep hcase ⊢
    generalize ((g.toLexicon.under .lastWins).build _).run.run .start = lenient at hcase ⊢
    obtain ⟨r, d⟩ := strict
    rcases hcase with ⟨rfl, hconflict⟩ | ⟨e, w, ws, herror, hw, hws⟩
    · have hnone : d.warnings.toList = [] := by rw [show d.warnings = _ from hkeep]; rfl
      refine ⟨fun a => ⟨fun h => ⟨h, hnone⟩, And.left⟩, fun literal existing incoming h => ?_,
        fun _ _ h => h⟩
      cases r with
      | ok u => cases h
      | error e =>
        cases h
        exact absurd rfl (hconflict _ _ _)
    · dsimp only at herror
      subst herror
      have hsome : lenient.2.warnings.toList = w :: ws.toList := by
        rw [hws]
        simp [show Draft.start.warnings = #[] from rfl]
      refine ⟨fun a => ⟨nofun, fun h => ?_⟩, fun literal existing incoming h => ?_,
        fun e' he' h => ?_⟩
      · rw [hsome] at h
        cases h.2
      · cases h
        exact ⟨w, ws.toList, hsome, hw⟩
      · cases h
        cases hw <;> exact absurd rfl (he' _ _ _)

/-- A grammar with a conflict of its own and an interior that raises a warning. -/
def crowded : Grammar where
  keywords := [.named "word" (.one "x"), .named "name" (.one "x")]
  greedyMatchers := [{
    kind := "block", startsWith := "[", endsWith := some "]"
    subGrammar := some { delimiters := [.bare "."] } }]

theorem concord_crowded :
    (crowded.under .reject).compile.result.map (fun _ => ()) =
      .error (.conflict "x" (some (.keyword "word")) (.keyword "name")) ∧
    (crowded.under .lastWins).ownWarnings ≠ (crowded.under .lastWins).compile.warnings ∧
    ∃ w ws, (crowded.under .lastWins).ownWarnings = w :: ws ∧
      w.Reports (.conflict "x" (some (.keyword "word")) (.keyword "name")) := by
  have hresult : (crowded.under .reject).compile.result.map (fun _ => ()) =
      .error (.conflict "x" (some (.keyword "word")) (.keyword "name")) := by decide +kernel
  refine ⟨hresult, by decide +kernel, (concord crowded).2.2.1 _ _ _ ?_⟩
  cases h : (crowded.under .reject).compile.result with
  | ok a =>
    rw [h] at hresult
    cases hresult
  | error e =>
    rw [h] at hresult
    cases hresult
    rfl

/-! ### What a policy does not see

A grammar that rejects conflicts may still depend on the order of its definitions: two roles that
are equal may write different things to one node, and a node that has no role goes on as the
definition wanted that came to it first. And where the last definition wins, an earlier one may have
ended itself along paths that others share, and these stay. -/

/-- A grammar with a keyword that goes on after another one as a delimiter begins. -/
def entwined : Grammar where
  keywords := [.bare "a", .bare "ab"]
  delimiters := [.bare "bc", .bare "c"]
  conflicts := .reject

/-- The path `abc` ends both keywords, the shorter one before `bc` and the longer one before `c`,
and the role of its end is the same for both. So no conflict is seen, and the keyword that is built
last says how many bytes are cut. -/
theorem tokenize_entwined : ∃ a b,
    entwined.conflicts = .reject ∧
    entwined.keywords.reverse.Perm entwined.keywords ∧
    entwined.compile.result = .ok a ∧
    ({ entwined with keywords := entwined.keywords.reverse } : Grammar).compile.result = .ok b ∧
    a.tokenize "abcx" = .ok [⟨"ab", "KEYWORD", 0⟩, ⟨"x", "IDENTIFIER", 3⟩] ∧
    b.tokenize "abcx" = .ok [⟨"a", "KEYWORD", 0⟩, ⟨"x", "IDENTIFIER", 3⟩] := by
  have hForth : (entwined.compile.result.toOption.bind fun a => (a.tokenize "abcx").toOption) =
      some [⟨"ab", "KEYWORD", 0⟩, ⟨"x", "IDENTIFIER", 3⟩] := by
    decide +kernel
  have hBack :
      (({ entwined with keywords := entwined.keywords.reverse } : Grammar)
        |>.compile.result.toOption.bind fun a => (a.tokenize "abcx").toOption) =
      some [⟨"a", "KEYWORD", 0⟩, ⟨"x", "IDENTIFIER", 3⟩] := by
    decide +kernel
  obtain ⟨a, ha, htokens⟩ := exists_tokens hForth
  obtain ⟨b, hb, htokensBack⟩ := exists_tokens hBack
  exact ⟨a, b, rfl, List.reverse_perm _, ha, hb, htokens, htokensBack⟩

/-- A grammar with a keyword that punctuation replaces, and with a longer one. -/
def outbid : Grammar where
  keywords := [.bare "a", .bare "abd"]
  delimiters := [.bare "bc"]
  punctuation := [.bare "a"]

/-- The keyword that is replaced has ended itself before `bc`, along a path that shares a node with
the longer keyword. The punctuation removes paths that only end open-ended tokens, and so leaves
this one. Without the keyword that is replaced the same text ends as an identifier. -/
theorem tokenize_outbid : ∃ a b,
    outbid.compile.warnings =
      [.replaced "a" (.keyword "KEYWORD") (.punctuation "PUNCTUATION")] ∧
    outbid.compile.result = .ok a ∧
    ({ outbid with keywords := [.bare "abd"] } : Grammar).compile.result = .ok b ∧
    a.tokenize "abc" = .ok [⟨"a", "KEYWORD", 0⟩] ∧
    b.tokenize "abc" = .ok [⟨"a", "IDENTIFIER", 0⟩] := by
  have hreplaced : (outbid.compile.result.toOption.bind fun a => (a.tokenize "abc").toOption) =
      some [⟨"a", "KEYWORD", 0⟩] := by
    decide +kernel
  have halone : (({ outbid with keywords := [.bare "abd"] } : Grammar).compile.result.toOption.bind
      fun a => (a.tokenize "abc").toOption) = some [⟨"a", "IDENTIFIER", 0⟩] := by
    decide +kernel
  obtain ⟨a, ha, htokens⟩ := exists_tokens hreplaced
  obtain ⟨b, hb, htokensAlone⟩ := exists_tokens halone
  exact ⟨a, b, by decide +kernel, ha, hb, htokens, htokensAlone⟩

end Grammar

end TrieLexer
