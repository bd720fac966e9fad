import Mathlib.Data.List.Forall2
import TrieLexer.Proofs.Yielding

/-!
# Building under two policies

Two steps of building ask for the policy: a claim on a node that another strong role holds, and the
decimal point at a root that goes on with a point already. All other steps but those of interiors
go well, and none sees the warnings that have been raised or the runs that have been added. So a
relation between building steps under two policies holds of the whole as soon as it holds of these
steps and is kept by sequences.

## Main definitions

* `Draft.Blind`, `Draft.Aloof` — a step on drafts neither sees nor changes the warnings, and the
  runs.
* `Warning.Reports` — a remark and an error are about the same conflict.
* `Assembly.contest` — what a policy makes of a conflict.
* `Assembly.Congruence` — a relation between building steps that is kept by sequences.
* `Assembly.Congruence.Pairs` — matchers whose interiors are related.

## Main results

* `Assembly.Congruence.build` — the relation holds of the whole.
-/

namespace TrieLexer

/-- A step on drafts neither sees nor changes the warnings. -/
def Draft.Blind {α : Type} (f : Draft → α × Draft) : Prop :=
  ∀ d ws, f { d with warnings := ws } = ((f d).1, { (f d).2 with warnings := ws })

/-- A step on drafts neither sees nor changes the warnings and the runs. -/
def Draft.Aloof {α : Type} (f : Draft → α × Draft) : Prop :=
  ∀ d ws rs, f { d with warnings := ws, runs := rs } =
    ((f d).1, { (f d).2 with warnings := ws, runs := rs })

/-- A remark and an error are about the same literal and its two roles. The remark on a leading
point does not name what the point is now. -/
inductive Warning.Reports : Warning → GrammarError → Prop
  | replaced (literal : String) (existing incoming : Role) :
      Reports (.replaced literal existing incoming) (.conflict literal (some existing) incoming)
  | leadingPoint (existing : Option Role) :
      Reports (.leadingPoint existing) (.conflict "." existing .decimalPoint)

/-- The lexicon under another policy. -/
def Lexicon.under (lexicon : Lexicon) (policy : ConflictPolicy) : Lexicon :=
  { lexicon with conflicts := policy }

/-- What comes of assembling is what comes of building from the start. -/
theorem Lexicon.assemble_eq (lexicon : Lexicon) (matchers : List (GreedyMatcher Compilation)) :
    lexicon.assemble matchers =
      { result := ((lexicon.build matchers).run.run .start).1.map fun _ =>
          lexicon.finish ((lexicon.build matchers).run.run .start).2
        warnings := ((lexicon.build matchers).run.run .start).2.warnings.toList } := rfl

namespace Draft

variable {α : Type} {d : Draft} {ws : Array Warning} {rs : Array (NestedRun Automaton)}

theorem Blind.warnings {f : Draft → α × Draft} (hf : Blind f) (d : Draft) :
    (f d).2.warnings = d.warnings :=
  congrArg (·.2.warnings) (hf d d.warnings)

theorem Aloof.runs {f : Draft → α × Draft} (hf : Aloof f) (d : Draft) : (f d).2.runs = d.runs :=
  congrArg (·.2.runs) (hf d d.warnings d.runs)

theorem Aloof.blind {f : Draft → α × Draft} (hf : Aloof f) : Blind f := by
  intro d ws
  have hsame := hf d ws d.runs
  rwa [show ({ (f d).2 with warnings := ws, runs := d.runs } : Draft) =
    { (f d).2 with warnings := ws } by rw [← hf.runs d]] at hsame

@[simp] theorem claim?_aside (d : Draft) (ws : Array Warning) (rs : Array (NestedRun Automaton))
    (n : NodeId) :
    ({ d with warnings := ws, runs := rs } : Draft).claim? n = d.claim? n := rfl

theorem onlyBoundariesWithin_aside (depth : Nat) (n : NodeId) :
    ({ d with warnings := ws, runs := rs } : Draft).onlyBoundariesWithin depth n =
      d.onlyBoundariesWithin depth n := by
  induction depth generalizing n with
  | zero => rfl
  | succ depth ih =>
    simp only [onlyBoundariesWithin, ih]
    rfl

theorem pruneBoundary_aside (n : NodeId) (e : Symbol × NodeId) :
    ({ d with warnings := ws, runs := rs } : Draft).pruneBoundary n e =
      { d.pruneBoundary n e with warnings := ws, runs := rs } := by
  have honly : ({ d with warnings := ws, runs := rs } : Draft).onlyBoundariesWithin
    d.trie.size e.2 = d.onlyBoundariesWithin d.trie.size e.2 := onlyBoundariesWithin_aside ..
  rw [pruneBoundary, pruneBoundary, onlyBoundaries, onlyBoundaries]
  change (if onlyBoundariesWithin _ d.trie.size e.2 = true then _ else _) = _
  rw [honly]
  cases d.onlyBoundariesWithin d.trie.size e.2 <;> rfl

theorem foldl_pruneBoundary_aside (n : NodeId) (es : Edges) :
    es.foldl (·.pruneBoundary n) ({ d with warnings := ws, runs := rs } : Draft) =
      { es.foldl (·.pruneBoundary n) d with warnings := ws, runs := rs } := by
  induction es generalizing d with
  | nil => rfl
  | cons e es ih => rw [List.foldl_cons, pruneBoundary_aside, ih, List.foldl_cons]

theorem aloof_pruneBoundaries (n : NodeId) :
    Aloof fun d => ((⟨⟩ : PUnit), d.pruneBoundaries n) := fun d _ _ =>
  congrArg (Prod.mk PUnit.unit) (foldl_pruneBoundary_aside n (d.trie.edges n))

theorem settleOpener_aside (opener body : NodeId) :
    ({ d with warnings := ws, runs := rs } : Draft).settleOpener opener body =
      { d.settleOpener opener body with warnings := ws, runs := rs } := by
  rw [settleOpener, settleOpener]
  change (if (d.site opener).behaviour.fallback = .reroute body then _ else _) = _
  split <;> rfl

theorem foldl_settleOpener_aside (os : List (NodeId × NodeId)) :
    os.foldl (fun d o => d.settleOpener o.1 o.2) ({ d with warnings := ws, runs := rs } : Draft) =
      { os.foldl (fun d o => d.settleOpener o.1 o.2) d with warnings := ws, runs := rs } := by
  induction os generalizing d with
  | nil => rfl
  | cons o os ih => rw [List.foldl_cons, settleOpener_aside, ih, List.foldl_cons]

end Draft

/-- Finishing a draft does not look at its warnings, and takes over its runs. -/
theorem Lexicon.finish_aside (lexicon : Lexicon) (d : Draft) (ws : Array Warning)
    (rs : Array (NestedRun Automaton)) :
    lexicon.finish { d with warnings := ws, runs := rs } =
      { lexicon.finish d with runs := rs.toList } := by
  rw [finish, finish, Draft.foldl_settleOpener_aside]
  rfl

namespace Assembly

theorem run_modifyGet {α : Type} (f : Draft → α × Draft) (d : Draft) :
    (modifyGet f : Assembly α).run.run d = (.ok (f d).1, (f d).2) := rfl

/-- What a policy makes of a conflict. -/
def contest {α : Type} (policy : ConflictPolicy) (e : GrammarError) (w : Warning)
    (f : Draft → α × Draft) : Assembly α :=
  match policy with
  | .reject => throw e
  | .lastWins => modifyGet fun d => f (d.warn w)

/-- Where the last definition wins, a conflict is gone over with a warning. -/
theorem run_contest_lastWins {α : Type} {f : Draft → α × Draft} (hf : Draft.Blind f)
    (e : GrammarError) (w : Warning) (d : Draft) : (contest .lastWins e w f).run.run d =
      (.ok (f d).1, { (f d).2 with warnings := d.warnings.push w }) := by
  change (Except.ok (f (d.warn w)).1, (f (d.warn w)).2) = _
  rw [Draft.warn, hf]

/-- A relation between building steps under two policies holds of steps that cannot fail and of
what the policies make of a conflict, and is kept by sequences. -/
structure Congruence (p q : ConflictPolicy)
    (R : (α : Type) → Assembly α → Assembly α → Prop) : Prop where
  aloof {α : Type} {f : Draft → α × Draft} (hf : Draft.Aloof f) : R α (modifyGet f) (modifyGet f)
  contest {α : Type} {e : GrammarError} {w : Warning} {f : Draft → α × Draft} (hw : w.Reports e)
    (hf : Draft.Aloof f) : R α (contest p e w f) (contest q e w f)
  look {α : Type} {f g : Draft → Assembly α}
    (hf : ∀ d ws rs, R α (f d) (g { d with warnings := ws, runs := rs })) :
    R α (get >>= f) (get >>= g)
  bind {α β : Type} {x y : Assembly α} {f g : α → Assembly β} (hx : R α x y)
    (hf : ∀ a, R β (f a) (g a)) : R β (x >>= f) (y >>= g)

namespace Congruence

variable {p q : ConflictPolicy} {R : (α : Type) → Assembly α → Assembly α → Prop}
  (h : Congruence p q R) {α : Type}

include h

theorem done (a : α) : R α (pure a) (pure a) := h.aloof (f := fun d => (a, d)) fun _ _ _ => rfl

theorem alter {f : Draft → Draft} (hf : Draft.Aloof fun d => ((⟨⟩ : PUnit), f d)) :
    R PUnit (modify f) (modify f) :=
  h.aloof hf

omit h in
theorem branch {c : Prop} [Decidable c] {x x' y y' : Assembly α} (hx : R α x x') (hy : R α y y') :
    R α (if c then x else y) (if c then x' else y') := by
  split
  · exact hx
  · exact hy

theorem forM {β : Type} {f g : β → Assembly PUnit} (hf : ∀ b, R PUnit (f b) (g b))
    (xs : List β) : R PUnit (xs.forM f) (xs.forM g) := by
  induction xs with
  | nil => exact h.done _
  | cons x xs ih => exact h.bind (hf x) fun _ => ih

/-! ### Single steps -/

theorem claim (n : NodeId) (literal : String) (role : Role) :
    R Bool (Assembly.claim p n literal role) (Assembly.claim q n literal role) := by
  refine h.look fun d ws rs => ?_
  rw [d.claim?_aside ws rs]
  have hrecord : Draft.Aloof fun d => ((⟨⟩ : PUnit), d.recordClaim n role) := fun _ _ _ => rfl
  cases d.claim? n with
  | none => exact h.bind (h.alter hrecord) fun _ => h.done _
  | some existing =>
    refine branch (h.done _) (branch (h.bind (h.alter hrecord) fun _ => h.done _)
      (branch (h.done _) ?_))
    have hcontest := h.contest (f := fun d => (true, d.recordClaim n role))
      (.replaced literal existing role) fun _ _ _ => rfl
    cases p <;> cases q <;> exact hcontest

theorem behave (n : NodeId) (f : Behaviour → Behaviour) :
    R Unit (Assembly.modifyBehaviour n f) (Assembly.modifyBehaviour n f) :=
  h.alter fun _ _ _ => rfl

theorem prune (n : NodeId) : R Unit (Assembly.pruneBoundaries n) (Assembly.pruneBoundaries n) :=
  h.alter (Draft.aloof_pruneBoundaries n)

theorem path (n : NodeId) (literal : List Char) :
    R _ (Assembly.path n literal) (Assembly.path n literal) :=
  h.aloof fun _ _ _ => rfl

/-- A claim, and what is done if it is carried out. -/
theorem whenClaimed (n : NodeId) (literal : String) (role : Role) {x y : Assembly PUnit}
    (hx : R _ x y) :
    R _ (Assembly.claim p n literal role >>= fun ok => if ok then x else pure ⟨⟩)
      (Assembly.claim q n literal role >>= fun ok => if ok then y else pure ⟨⟩) :=
  h.bind (h.claim n literal role) fun _ => branch hx (h.done _)

/-! ### Parts of grammars -/

variable {lexicon : Lexicon}

theorem rerouteCreated (steps : List Trie.Step) (target : NodeId) :
    R _ (Lexicon.rerouteCreated steps target) (Lexicon.rerouteCreated steps target) :=
  h.forM (fun _ => branch (h.behave _ _) (h.done _)) _

theorem endBefore (n : NodeId) (label : Label) (weak : Bool) (terminator : String) :
    R _ ((lexicon.under p).endBefore n label weak terminator)
      ((lexicon.under q).endBefore n label weak terminator) := by
  refine h.bind (h.path _ _) fun steps => h.bind (h.rerouteCreated _ _) fun _ => ?_
  cases steps.getLast? with
  | none => exact h.done _
  | some last => exact h.whenClaimed _ _ _ (h.behave _ _)

theorem endBeforeTerminators (n : NodeId) (label : Label) (weak : Bool) :
    R _ ((lexicon.under p).endBeforeTerminators n label weak)
      ((lexicon.under q).endBeforeTerminators n label weak) :=
  h.forM (h.endBefore n label weak) _

theorem buildCategories :
    R _ (lexicon.under p).buildCategories (lexicon.under q).buildCategories :=
  h.bind (h.behave _ _) fun _ => h.bind (h.behave _ _) fun _ =>
    h.bind (h.endBeforeTerminators _ _ _) fun _ => h.bind (h.endBeforeTerminators _ _ _) fun _ =>
    h.bind (h.endBeforeTerminators _ _ _) fun _ =>
    h.whenClaimed _ _ _ (h.bind (h.behave _ _) fun _ => h.endBeforeTerminators _ _ _)

theorem buildPrefix (n : NodeId) (text : String) :
    R _ ((lexicon.under p).buildPrefix n text) ((lexicon.under q).buildPrefix n text) := by
  refine h.look fun d ws rs => ?_
  rw [d.claim?_aside ws rs]
  exact branch (h.done _) (h.whenClaimed _ _ _
    (h.bind (h.behave _ _) fun _ => h.endBeforeTerminators _ _ _))

theorem buildKeyword (label : Label) (literal : String) :
    R _ ((lexicon.under p).buildKeyword label literal)
      ((lexicon.under q).buildKeyword label literal) := by
  refine h.bind (h.path _ _) fun steps => h.bind (h.forM (fun _ => h.buildPrefix _ _) _) fun _ => ?_
  cases steps.getLast? with
  | none => exact h.done _
  | some last =>
    exact h.whenClaimed _ _ _ (h.bind (h.behave _ _) fun _ => h.endBeforeTerminators _ _ _)

/-- All literals of definitions. -/
theorem literals {f g : Definition → String → Assembly PUnit}
    (hf : ∀ definition literal, R _ (f definition literal) (g definition literal))
    (definitions : List Definition) :
    R _ (definitions.forM fun definition => definition.literals.forM (f definition))
      (definitions.forM fun definition => definition.literals.forM (g definition)) :=
  h.forM (fun definition => h.forM (hf definition) _) _

theorem rootPath (literal : String) :
    R _ ((lexicon.under p).rootPath literal) ((lexicon.under q).rootPath literal) := by
  refine h.bind (h.path _ _) fun steps => h.bind (h.forM (fun x => ?_) _) fun _ => h.done _
  exact branch (h.done _) (branch (h.buildPrefix _ _) (h.behave _ _))

theorem endRun (terminator : String) (c : Close) :
    R _ ((lexicon.under p).endRun terminator c) ((lexicon.under q).endRun terminator c) := by
  refine h.bind (h.path _ _) fun steps => h.bind (h.rerouteCreated _ _) fun _ => ?_
  cases steps.getLast? with
  | none => exact h.done _
  | some last => exact h.whenClaimed _ _ _ (h.behave _ _)

omit h in
/-- Two matchers that differ in their compiled interiors at most, which are related when they are
added. -/
structure Pairs (R : (α : Type) → Assembly α → Assembly α → Prop)
    (m m' : GreedyMatcher Compilation) : Prop where
  eq : ∃ interior, m' = { m with subGrammar := interior }
  escape : R _ (ExceptT.mk (pure m.escape)) (ExceptT.mk (pure m.escape))
  nested (terminator : String) (ht : m.terminator = some terminator) :
    R _ (Lexicon.addNestedRun m terminator) (Lexicon.addNestedRun m' terminator)

theorem buildRun {m m' : GreedyMatcher Compilation} (hm : Pairs R m m') {terminator : String}
    (ht : m.terminator = some terminator) :
    R _ ((lexicon.under p).buildRun m terminator) ((lexicon.under q).buildRun m' terminator) := by
  have hnested := hm.nested terminator ht
  obtain ⟨interior, rfl⟩ := hm.eq
  refine h.bind (h.rootPath _) fun opener => h.bind (h.aloof fun _ _ _ => rfl) fun body =>
    h.bind hm.escape fun escape => h.bind hnested fun nested => h.bind (h.behave _ _) fun _ => ?_
  refine h.bind (h.claim _ _ _) fun ok => branch (h.bind (h.prune _) fun _ =>
    h.bind (h.behave _ _) fun _ => h.bind (h.alter fun _ _ _ => rfl) fun _ => ?_) ?_
  -- The ends are built whether the opener has been carried out or not.
  all_goals
    refine h.bind (h.endRun _ _) fun _ => h.bind (h.endRun _ _) fun _ => ?_
    rw [show ({ m with subGrammar := interior } : GreedyMatcher Compilation).haltMarker =
      m.haltMarker from rfl]
    cases m.haltMarker with
    | none => exact h.done _
    | some marker => exact h.endRun _ _

theorem buildMatchers {ms ms' : List (GreedyMatcher Compilation)}
    (hms : List.Forall₂ (Pairs R) ms ms') :
    R _ ((lexicon.under p).buildMatchers ms) ((lexicon.under q).buildMatchers ms') := by
  induction hms with
  | nil => exact h.done _
  | @cons m m' ms ms' hm _ ih =>
    refine h.bind ?_ fun _ => ih
    have hrun {terminator : String} (ht : m.terminator = some terminator) :
        R _ ((lexicon.under p).buildRun m terminator) ((lexicon.under q).buildRun m' terminator) :=
      h.buildRun hm ht
    obtain ⟨interior, rfl⟩ := hm.eq
    dsimp only
    rw [show ({ m with subGrammar := interior } : GreedyMatcher Compilation).terminator =
      m.terminator from rfl]
    cases ht : m.terminator with
    | none => exact h.buildKeyword _ _
    | some terminator => exact hrun ht

theorem buildDelimiters :
    R _ (lexicon.under p).buildDelimiters (lexicon.under q).buildDelimiters :=
  h.literals (fun _ _ => h.bind (h.rootPath _) fun _ => h.whenClaimed _ _ _ (h.behave _ _)) _

theorem buildPunctuation :
    R _ (lexicon.under p).buildPunctuation (lexicon.under q).buildPunctuation :=
  h.literals (fun _ _ => h.bind (h.rootPath _) fun _ =>
    h.whenClaimed _ _ _ (h.bind (h.prune _) fun _ => h.behave _ _)) _

theorem bindLeadingPoint :
    R _ (lexicon.under p).bindLeadingPoint (lexicon.under q).bindLeadingPoint := by
  refine branch (h.done _) (h.look fun d ws rs => ?_)
  have hbind : R PUnit
      (modify fun d => { d with trie := d.trie.setChild .root (.char '.') .float })
      (modify fun d => { d with trie := d.trie.setChild .root (.char '.') .float }) :=
    h.alter fun _ _ _ => rfl
  dsimp only
  cases d.trie.child? .root (.char '.') with
  | none => exact hbind
  | some child =>
    have hcontest := h.contest (f := fun d => ((⟨⟩ : PUnit), d)) (.leadingPoint (d.claim? child))
      fun _ _ _ => rfl
    cases p <;> cases q <;> exact h.bind hcontest fun _ => hbind

/-- The whole is related under two policies. -/
theorem build {ms ms' : List (GreedyMatcher Compilation)} (hms : List.Forall₂ (Pairs R) ms ms') :
    R _ ((lexicon.under p).build ms) ((lexicon.under q).build ms') :=
  h.bind h.buildCategories fun _ => h.bind (h.literals (fun _ _ => h.buildKeyword _ _) _) fun _ =>
    h.bind (h.buildMatchers hms) fun _ => h.bind h.buildDelimiters fun _ =>
    h.bind h.buildPunctuation fun _ => h.bindLeadingPoint

end Congruence

end Assembly

end TrieLexer
