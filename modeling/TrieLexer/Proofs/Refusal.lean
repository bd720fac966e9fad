import TrieLexer.Proofs.Lockstep
import TrieLexer.Proofs.Naming
import TrieLexer.Proofs.Policies

/-!
# Refused grammars

A grammar is refused if it breaks one of the rules for grammars, here or in an interior. A grammar
that keeps them is refused only for a conflict, and only where the policy asks for that: its own, or
that of the interior grammar of a matcher with a terminator.

## Main definitions

* `Grammar.Contains` — a grammar and the grammars of its interiors, at every depth.
* `Grammar.Tidy` — the rules for a grammar, its interiors apart.
* `Grammar.Refuses` — the conflicts for which a grammar may be refused.
* `Assembly.FailsOnly` — the errors of a building step.

## Main results

* `Grammar.validate_iff` — a grammar is valid if everything that it contains is tidy.
* `Grammar.refuses_of_compile` — a valid grammar is refused for a conflict.
* `Grammar.refusal` — how compiling a grammar may end.
-/

namespace TrieLexer

/-! ### Valid grammars -/

theorem seq_eq_ok {ε : Type} {x y : Except ε Unit} :
    (x >>= fun _ => y) = .ok () ↔ x = .ok () ∧ y = .ok () := by
  rw [bind_eq_ok]
  exact ⟨fun ⟨_, hx, hy⟩ => ⟨hx, hy⟩, fun h => ⟨(), h⟩⟩

theorem seq_eq_error {ε : Type} {x y : Except ε Unit} {e : ε} :
    (x >>= fun _ => y) = .error e ↔ x = .error e ∨ x = .ok () ∧ y = .error e := by
  cases x with
  | error e' => exact ⟨fun h => .inl (by cases h; rfl), fun h => by
      rcases h with h | h
      · cases h
        rfl
      · cases h.1⟩
  | ok u => exact ⟨fun h => .inr ⟨rfl, h⟩, fun h => (h.resolve_left nofun).2⟩

theorem refuseEmptyLiteral_eq_ok {kind : LiteralKind} {definitions : List Definition} :
    refuseEmptyLiteral kind definitions = .ok () ↔ "" ∉ literalsOf definitions := by
  refine ⟨fun h hmem => ne_empty_of_refuse h hmem rfl, fun h => ?_⟩
  rw [refuseEmptyLiteral, if_neg]
  rw [List.any_eq_true]
  rintro ⟨t, ht, hempty⟩
  exact h (String.isEmpty_iff.1 hempty ▸ ht)

theorem GreedyMatcher.escape_eq_ok {γ : Type} {m : GreedyMatcher γ} :
    (∃ c, m.escape = .ok c) ↔ ∀ e, m.escapesWith = some e → e.length ≤ 1 := by
  rw [escape, escapeChars]
  cases m.escapesWith with
  | none => simp
  | some e =>
    simp only [Option.getD_some, Option.some.injEq, forall_eq', ← String.length_toList]
    rcases e.toList with _ | ⟨c, _ | ⟨c', cs⟩⟩ <;> simp

theorem GreedyMatcher.validate_eq_ok {γ : Type} {m : GreedyMatcher γ} :
    m.validate = .ok () ↔
      m.startsWith ≠ "" ∧ m.kind ≠ "" ∧ ∀ e, m.escapesWith = some e → e.length ≤ 1 := by
  rw [validate, ← escape_eq_ok, ← String.isEmpty_eq_false_iff, ← String.isEmpty_eq_false_iff]
  cases m.startsWith.isEmpty with
  | true => exact ⟨(fun h => by cases h), fun h => by cases h.1⟩
  | false =>
    cases m.kind.isEmpty with
    | true => exact ⟨(fun h => by cases h), fun h => by cases h.2.1⟩
    | false =>
      cases m.escape with
      | error e => exact ⟨(fun h => by cases h), fun h => by cases h.2.2.choose_spec⟩
      | ok c => exact ⟨fun _ => ⟨rfl, rfl, c, rfl⟩, fun _ => rfl⟩

namespace Grammar

/-- A grammar contains itself and what the grammars of its interiors contain. -/
inductive Contains : Grammar → Grammar → Prop
  | refl (g : Grammar) : g.Contains g
  | interior {g s t : Grammar} {m : GreedyMatcher Grammar} (hm : m ∈ g.greedyMatchers)
      (hs : m.subGrammar = some s) (ht : s.Contains t) : g.Contains t

/-- No literal, no opener and no matcher's type is empty, and an escape is one character at most. -/
structure Tidy (g : Grammar) : Prop where
  keyword : "" ∉ literalsOf g.keywords
  punctuation : "" ∉ literalsOf g.punctuation
  delimiter : "" ∉ literalsOf g.delimiters
  opener : ∀ m ∈ g.greedyMatchers, m.startsWith ≠ ""
  kind : ∀ m ∈ g.greedyMatchers, m.kind ≠ ""
  escape : ∀ m ∈ g.greedyMatchers, ∀ e, m.escapesWith = some e → e.length ≤ 1

/-- A grammar may be refused for a conflict if that is its policy, and for what the interior grammar
of a matcher with a terminator is refused for. -/
inductive Refuses : Grammar → GrammarError → Prop
  | conflict {g : Grammar} (hpolicy : g.conflicts = .reject) (literal : String)
      (existing : Option Role) (incoming : Role) : g.Refuses (.conflict literal existing incoming)
  | interior {g s : Grammar} {m : GreedyMatcher Grammar} {e : GrammarError}
      (hm : m ∈ g.greedyMatchers) (ht : m.terminator ≠ none) (hs : m.subGrammar = some s)
      (he : s.Refuses e) : g.Refuses (.subGrammar m.kind e)

end Grammar

theorem validateMatchers_eq_ok {ms : List (GreedyMatcher Grammar)} :
    validateMatchers ms = .ok () ↔ ∀ m ∈ ms, validateMatcher m = .ok () := by
  induction ms with
  | nil => exact ⟨fun _ => nofun, fun _ => rfl⟩
  | cons m ms ih =>
    rw [validateMatchers, List.forall_mem_cons, ← ih]
    exact seq_eq_ok

theorem validateMatcher_eq_ok {m : GreedyMatcher Grammar} :
    validateMatcher m = .ok () ↔ m.startsWith ≠ "" ∧ m.kind ≠ "" ∧
      (∀ e, m.escapesWith = some e → e.length ≤ 1) ∧
      ∀ s, m.subGrammar = some s → s.validate = .ok () := by
  obtain ⟨kind, startsWith, endsWith, haltsWith, escapesWith, interior⟩ := m
  have hinterior : (validateInterior interior).mapError (GrammarError.subGrammar kind) = .ok () ↔
      ∀ s, interior = some s → s.validate = .ok () := by
    cases interior with
    | none => exact ⟨fun _ => nofun, fun _ => rfl⟩
    | some s =>
      simp only [validateInterior, Option.some.injEq, forall_eq']
      cases s.validate with
      | error e => exact ⟨nofun, nofun⟩
      | ok u => exact ⟨fun _ => rfl, fun _ => rfl⟩
  rw [validateMatcher, seq_eq_ok, GreedyMatcher.validate_eq_ok, hinterior, and_assoc, and_assoc]

namespace Grammar

/-- A grammar is valid if it is tidy and the grammars of its interiors are valid. -/
theorem validate_eq_ok {g : Grammar} : g.validate = .ok () ↔
    g.Tidy ∧ ∀ m ∈ g.greedyMatchers, ∀ s, m.subGrammar = some s → s.validate = .ok () := by
  obtain ⟨lexicon, matchers⟩ := g
  have hlexicon : lexicon.validate = .ok () ↔ "" ∉ literalsOf lexicon.keywords ∧
      "" ∉ literalsOf lexicon.punctuation ∧ "" ∉ literalsOf lexicon.delimiters := by
    simp only [Lexicon.validate, seq_eq_ok, refuseEmptyLiteral_eq_ok]
  rw [validate, seq_eq_ok, hlexicon, validateMatchers_eq_ok]
  constructor
  · rintro ⟨⟨hkeyword, hpunctuation, hdelimiter⟩, hmatchers⟩
    have hm {m : GreedyMatcher Grammar} (hm : m ∈ matchers) :=
      validateMatcher_eq_ok.1 (hmatchers m hm)
    exact ⟨⟨hkeyword, hpunctuation, hdelimiter, fun m h => (hm h).1, fun m h => (hm h).2.1,
      fun m h => (hm h).2.2.1⟩, fun m h => (hm h).2.2.2⟩
  · rintro ⟨h, hinteriors⟩
    exact ⟨⟨h.keyword, h.punctuation, h.delimiter⟩, fun m hm => validateMatcher_eq_ok.2
      ⟨h.opener m hm, h.kind m hm, h.escape m hm, hinteriors m hm⟩⟩

/-- A grammar is valid if everything that it contains is tidy. -/
theorem validate_iff (g : Grammar) : g.validate = .ok () ↔ ∀ s, g.Contains s → s.Tidy := by
  induction g using Grammar.induct with
  | step g ih =>
    rw [validate_eq_ok]
    constructor
    · rintro ⟨htidy, hinteriors⟩ t ht
      cases ht with
      | refl => exact htidy
      | interior hm hs ht => exact (ih _ hm _ hs).1 (hinteriors _ hm _ hs) t ht
    · intro h
      exact ⟨h g (.refl g), fun m hm s hs => (ih m hm s hs).2 fun t ht => h t (.interior hm hs ht)⟩

end Grammar

/-! ### Building steps that fail -/

namespace Assembly

/-- The first of two building steps fails only with such errors. -/
def FailsOnly (E : GrammarError → Prop) (α : Type) (x _y : Assembly α) : Prop :=
  ∀ d e, (x.run.run d).1 = .error e → E e

/-- If a policy that rejects conflicts does so with such errors, building is a congruence. -/
theorem congruence_failsOnly {E : GrammarError → Prop} {policy : ConflictPolicy}
    (hE : policy = .reject → ∀ literal existing incoming, E (.conflict literal existing incoming)) :
    Congruence policy policy (FailsOnly E) where
  aloof _ _ _ h := nomatch h
  contest {α e w f} hw _ d e' h := by
    cases policy with
    | lastWins => cases h
    | reject =>
      cases h
      cases hw <;> exact hE rfl _ _ _
  look hf d e h := hf d d.warnings d.runs d e h
  bind {α β x y f g} hx hf d e h := by
    have hfirst := hx d
    rw [run_bind] at h
    cases hrun : x.run.run d with
    | mk r d₁ =>
      rw [hrun] at h hfirst
      cases r with
      | error e' =>
        cases h
        exact hfirst e rfl
      | ok a => exact hf a d₁ e h

end Assembly

namespace Grammar

theorem compile_of_valid {g : Grammar} (h : g.validate = .ok ()) :
    g.compile = g.toLexicon.assemble (compileMatchers g.greedyMatchers) := by
  obtain ⟨lexicon, matchers⟩ := g
  rw [compile, h]

theorem compile_of_invalid {g : Grammar} {e : GrammarError} (h : g.validate = .error e) :
    g.compile = { result := .error e, warnings := [] } := by
  obtain ⟨lexicon, matchers⟩ := g
  rw [compile, h]

/-- The matchers of a valid grammar fail only in their interiors. -/
theorem pairs_compileMatcher {g : Grammar} (hvalid : g.validate = .ok ())
    {m : GreedyMatcher Grammar} (hm : m ∈ g.greedyMatchers) {E : GrammarError → Prop}
    (hE : m.terminator ≠ none → ∀ s, m.subGrammar = some s → ∀ e, s.compile.result = .error e →
      E (.subGrammar m.kind e)) :
    Assembly.Congruence.Pairs (Assembly.FailsOnly E) (compileMatcher m) (compileMatcher m) where
  eq := ⟨_, rfl⟩
  escape d e h := by
    obtain ⟨c, hc⟩ := GreedyMatcher.escape_eq_ok.2 ((validate_eq_ok.1 hvalid).1.escape m hm)
    have hescape : (compileMatcher m).escape = m.escape := by cases m; rfl
    rw [hescape, hc] at h
    cases h
  nested terminator ht d e h := by
    have hkind : (compileMatcher m).kind = m.kind := by cases m; rfl
    have hterminator : (compileMatcher m).terminator = m.terminator := by cases m; rfl
    rw [Lexicon.addNestedRun, subGrammar_compileMatcher, hkind] at h
    cases hs : m.subGrammar with
    | none =>
      rw [hs] at h
      cases h
    | some s =>
      rw [hs, Option.map_some] at h
      dsimp only at h
      cases hresult : s.compile.result with
      | ok a =>
        rw [hresult] at h
        cases h
      | error e' =>
        rw [hresult] at h
        cases h
        exact hE (hterminator ▸ ht ▸ Option.some_ne_none _) s hs e' hresult

/-- A valid grammar that is refused is refused for a conflict. -/
theorem refuses_of_compile {g : Grammar} (hvalid : g.validate = .ok ()) {e : GrammarError}
    (h : g.compile.result = .error e) : g.Refuses e := by
  induction g using Grammar.induct generalizing e with
  | step g ih =>
    have hms : List.Forall₂ (Assembly.Congruence.Pairs (Assembly.FailsOnly g.Refuses))
        (compileMatchers g.greedyMatchers) (compileMatchers g.greedyMatchers) := by
      rw [List.forall₂_same, compileMatchers_eq]
      intro m hm
      obtain ⟨x, hx, rfl⟩ := List.mem_map.1 hm
      exact pairs_compileMatcher hvalid hx fun ht s hs e he =>
        .interior hx ht hs (ih x hx s hs ((validate_eq_ok.1 hvalid).2 x hx s hs) he)
    have hbuild : Assembly.FailsOnly g.Refuses _
        (g.toLexicon.build (compileMatchers g.greedyMatchers)) _ :=
      (Assembly.congruence_failsOnly fun hpolicy => .conflict hpolicy).build hms
    rw [compile_of_valid hvalid, Lexicon.assemble_eq] at h
    refine hbuild .start e ?_
    cases hrun : ((g.toLexicon.build (compileMatchers g.greedyMatchers)).run.run .start).1 with
    | error e' =>
      rw [hrun] at h
      cases h
      rfl
    | ok u =>
      rw [hrun] at h
      cases h

/-- Something in a refused grammar has the policy to reject conflicts. -/
theorem Refuses.exists_reject {g : Grammar} {e : GrammarError} (h : g.Refuses e) :
    ∃ s, g.Contains s ∧ s.conflicts = .reject := by
  induction h with
  | conflict hpolicy => exact ⟨_, .refl _, hpolicy⟩
  | interior hm _ hs _ ih =>
    obtain ⟨t, ht, hpolicy⟩ := ih
    exact ⟨t, .interior hm hs ht, hpolicy⟩

/-- A grammar that is not valid is refused for the first violation of the rules, which hold if all
that the grammar contains is tidy. A valid grammar is refused only for a conflict that a policy
rejects, here or in the interiors of matchers with a terminator. If no policy does, it compiles. -/
theorem refusal (g : Grammar) :
    (∀ e, g.validate = .error e → g.compile.result = .error e) ∧
    (g.validate = .ok () ↔ ∀ s, g.Contains s → s.Tidy) ∧
    (g.validate = .ok () → (∃ a, g.compile.result = .ok a) ∨
      ∃ e, g.compile.result = .error e ∧ g.Refuses e) ∧
    (g.validate = .ok () → (∀ s, g.Contains s → s.conflicts ≠ .reject) →
      ∃ a, g.compile.result = .ok a) := by
  have hcompile (hvalid : g.validate = .ok ()) : (∃ a, g.compile.result = .ok a) ∨
      ∃ e, g.compile.result = .error e ∧ g.Refuses e := by
    cases hresult : g.compile.result with
    | ok a => exact .inl ⟨a, rfl⟩
    | error e => exact .inr ⟨e, rfl, refuses_of_compile hvalid hresult⟩
  refine ⟨fun e he => by rw [compile_of_invalid he], validate_iff g, hcompile, fun hvalid h => ?_⟩
  refine (hcompile hvalid).resolve_right fun hrefused => ?_
  obtain ⟨e, -, hrefuses⟩ := hrefused
  obtain ⟨s, hs, hpolicy⟩ := hrefuses.exists_reject
  exact h s hs hpolicy

/-- A grammar with a conflict two interiors deep, in the only one that rejects conflicts. -/
def layered : Grammar where
  keywords := [.named "word" (.one "x"), .named "name" (.one "x")]
  greedyMatchers := [{
    kind := "outer", startsWith := "<", endsWith := some ">"
    subGrammar := some { greedyMatchers := [{
      kind := "inner", startsWith := "[", endsWith := some "]"
      subGrammar := some {
        keywords := [.named "word" (.one "x"), .named "name" (.one "x")]
        conflicts := .reject } }] } }]

theorem refusal_layered : layered.validate = .ok () ∧
    ∃ e, layered.compile.result = .error e ∧ layered.Refuses e ∧
      e = .subGrammar "outer" (.subGrammar "inner"
        (.conflict "x" (some (.keyword "word")) (.keyword "name"))) := by
  have hvalid : layered.validate = .ok () := by decide +kernel
  have hresult : layered.compile.result.map (fun _ => ()) = .error (.subGrammar "outer"
      (.subGrammar "inner" (.conflict "x" (some (.keyword "word")) (.keyword "name")))) := by
    decide +kernel
  obtain ⟨a, ha⟩ | ⟨e, he, hrefuses⟩ := (refusal layered).2.2.1 hvalid
  · rw [ha] at hresult
    cases hresult
  · rw [he] at hresult
    cases hresult
    exact ⟨hvalid, _, he, hrefuses, rfl⟩

end Grammar

end TrieLexer
