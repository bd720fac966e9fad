import TrieLexer.Proofs.Completion

/-!
# Charts of compiled grammars

A grammar that compiles has a charted automaton. The draft that is built is charted; what remains
is to bind the decimal point at the root, to send the unclaimed nodes below each opener into its
run, and to let the root dispatch.

## Main definitions

* `Draft.Categories` — the stages in which the open-ended categories are built.
* `Draft.Stages` — the stages in which a grammar is built.
* `Draft.Pointed` — the decimal point is bound at the root, if the grammar asks for it.
* `Draft.Redirects` — some unclaimed nodes send symbols without a child elsewhere.
* `Draft.Finishes` — what is left of a draft in its automaton.
* `Grammar.LonePoint` — no mark goes on after a point at its beginning, at every depth.
* `Lawful` — an automaton that is charted at every depth.

## Main results

* `Lexicon.stages_build` — the drafts that are built are charted.
* `Draft.Finishes.charted` — so is the automaton of a charted draft.
* `Lexicon.stages_assemble` — an automaton that is assembled is a finished draft.
* `Grammar.lawful_compile` — a grammar that compiles has a lawful automaton.
-/

namespace TrieLexer

open Text (byteLength)

namespace Draft

open Assembly (yields_bind yields_pure yields_get yields_modify not_yields_throw)

variable {lexicon : Lexicon} {matchers : List (GreedyMatcher Compilation)}
  {pointed : Prop} {marked : String → Prop} {loose : NodeId → Prop} {d d' d₁ d₂ : Draft}
  {place place' : NodeId → Locus} {n k : NodeId}

/-! ### The beginning -/

/-- The places of the nodes that every draft has. -/
def startPlace : NodeId → Locus
  | 0 => ⟨.root, []⟩
  | 1 => ⟨.unknown, []⟩
  | 2 => ⟨.identifier, []⟩
  | 3 => ⟨.number, []⟩
  | 4 => ⟨.float, []⟩
  | _ => ⟨.unknown, []⟩

theorem edges_start (n : NodeId) :
    start.trie.edges n = if n = .number then [(.char '.', .float)] else [] := by
  match n with
  | 0 | 1 | 2 | 3 | 4 => rfl
  | n + 5 => exact Trie.edges_of_size_le _ _ (Nat.le_add_left ..)

theorem site_start (n : NodeId) : start.site n = {} := by
  match n with
  | 0 | 1 | 2 | 3 | 4 => rfl
  | n + 5 => exact site_of_size_le (Nat.le_add_left ..)

theorem isRest_startPlace {n : NodeId} (hroot : n ≠ .root) (hidentifier : n ≠ .identifier)
    (hnumber : n ≠ .number) (hfloat : n ≠ .float) : (startPlace n).IsRest := by
  match n with
  | 0 => exact absurd rfl hroot
  | 2 => exact absurd rfl hidentifier
  | 3 => exact absurd rfl hnumber
  | 4 => exact absurd rfl hfloat
  | 1 | n + 5 => exact Locus.isRest_unknown

theorem charted_start : Charted lexicon matchers False (fun _ => False)
    (fun k => k = .identifier ∨ k = .number ∨ k = .float) start startPlace where
  size := Nat.le_refl 5
  fresh {n} hn := by
    obtain ⟨n, rfl⟩ := Nat.exists_eq_add_of_le' hn
    rfl
  origin {o} ho := by
    cases o with
    | body b m nested => exact absurd ⟨b, m, nested, rfl⟩ ho
    | _ => rfl
  sorted n := by
    rw [edges_start]
    split
    · exact List.pairwise_singleton ..
    · exact .nil
  child {n m s} h := by
    rw [Trie.child?, edges_start] at h
    split at h
    · next hn =>
      subst hn
      rw [Edges.find?_cons] at h
      split at h
      · next hs =>
        cases h
        subst hs
        exact ⟨by decide, rfl⟩
      · cases h
    · cases h
  decimal h := by
    unfold startPlace at h
    split at h <;> cases h
    rfl
  float h := by
    unfold startPlace at h
    split at h <;> cases h
    rfl
  body h := by
    unfold startPlace at h
    split at h <;> cases h
  run h := by
    rw [site_start] at h
    cases h
  runs h := absurd h (Array.not_mem_empty _)
  opener h := by cases h
  fallback n := by
    rw [site_start]
    exact .stay
  action n := by
    rw [site_start]
    exact .none
  settled hn hroot _ _ _ := by
    obtain ⟨hidentifier, hnumber, hfloat⟩ := by simpa only [not_or] using hn
    exact isRest_startPlace hroot hidentifier hnumber hfloat
  claimed h := by
    rw [claim?, site_start] at h
    cases h
  marks h := h.elim
  point h := h.elim

/-! ### The parts -/

/-- Identifiers and whole numbers tell what text goes on as. -/
def beginCategories (d : Draft) : Draft :=
  (d.modifyBehaviour .identifier fun b => { b with fallback := Lexicon.identifierFallback })
    |>.modifyBehaviour .number fun b => { b with fallback := .classify .digit .number .unknown }

/-- So do numbers with a point. -/
def beginDecimals (d : Draft) : Draft :=
  d.modifyBehaviour .float fun b =>
    { b with action := .none, fallback := .classify .digit .float .unknown }

/-- The stages in which the open-ended categories are built, with a chart of each. -/
inductive Categories (lexicon : Lexicon) (matchers : List (GreedyMatcher Compilation)) (d : Draft)
    (place : NodeId → Locus) (d' : Draft) : Prop
  | mk {d₁ d₂ d₃ d₄ : Draft} {place₁ place₂ place₃ place' : NodeId → Locus}
    (chart : Charted lexicon matchers False (fun _ => False) (· = .float) d.beginCategories place)
    (unknown : (lexicon.endBeforeTerminators .unknown lexicon.labels.unknown false).Yields
      d.beginCategories ⟨⟩ d₁)
    (chart₁ : Charted lexicon matchers False (fun _ => False) (· = .float) d₁ place₁)
    (identifier : (lexicon.endBeforeTerminators .identifier lexicon.labels.identifier false).Yields
      d₁ ⟨⟩ d₂)
    (chart₂ : Charted lexicon matchers False (fun _ => False) (· = .float) d₂ place₂)
    (number : (lexicon.endBeforeTerminators .number lexicon.labels.number false).Yields d₂ ⟨⟩ d₃)
    (chart₃ : Charted lexicon matchers False (fun _ => False) (· = .float) d₃ place₃)
    (claim : (Assembly.claim lexicon.conflicts .float "." .decimalPoint).Yields d₃ true d₄)
    (chart₄ :
      Charted lexicon matchers True (fun _ => False) (fun _ => False) d₄.beginDecimals place₃)
    (float : (lexicon.endBeforeTerminators .float lexicon.labels.decimal false).Yields
      d₄.beginDecimals ⟨⟩ d')
    (chart' : Charted lexicon matchers True (fun _ => False) (fun _ => False) d' place')

/-- The node of a category is there. -/
theorem Charted.origin_lt_size (h : Charted lexicon matchers pointed marked loose d place)
    {o : Origin} (ho : ¬o.IsBody) : o.node < d.trie.size := by
  refine Nat.lt_of_lt_of_le ?_ h.size
  cases o with
  | body b m nested => exact absurd ⟨b, m, nested, rfl⟩ ho
  | _ => decide

/-- The ends of the tokens of a category. -/
theorem Charted.endCategory (h : Charted lexicon matchers pointed marked loose d place)
    (hmarked : ¬∃ t, marked t) {o : Origin} (ho : ¬o.IsBody) (hpoint : pointed → o ≠ .number)
    {label : Label}
    (hy : (lexicon.endBeforeTerminators o.node label false).Yields d ⟨⟩ d') :
    ∃ place', Charted lexicon matchers pointed marked loose d' place' := by
  have hp := h.origin ho
  obtain ⟨place', h', -⟩ := h.endBeforeTerminators (h.origin_lt_size ho) (hp ▸ ho) (.inr hmarked)
    (fun hpointed => by rw [hp]; exact hpoint hpointed) hy
  exact ⟨place', h'⟩

/-- The open-ended categories are built in stages. -/
theorem Charted.categories
    (h : Charted lexicon matchers False (fun _ => False)
      (fun k => k = .identifier ∨ k = .number ∨ k = .float) d place)
    (hy : lexicon.buildCategories.Yields d ⟨⟩ d') : Categories lexicon matchers d place d' := by
  have hmarked : ¬∃ t : String, (fun _ => False) t := fun ⟨_, h⟩ => h
  have hidentifier : ¬Origin.identifier.IsBody := Origin.not_isBody_of_mem (by simp)
  have hnumber : ¬Origin.number.IsBody := Origin.not_isBody_of_mem (by simp)
  have hfloat : ¬Origin.float.IsBody := Origin.not_isBody_of_mem (by simp)
  obtain ⟨⟨⟩, _, hmod, hy⟩ := yields_bind.1 hy
  obtain rfl := yields_modify.1 hmod
  have h₁ := h.reroute (h.origin_lt_size hidentifier) (f := Lexicon.identifierFallback) nofun (by
    rw [h.origin hidentifier]
    exact .identifier ⟨hidentifier, nofun⟩)
  obtain ⟨⟨⟩, _, hmod, hy⟩ := yields_bind.1 hy
  obtain rfl := yields_modify.1 hmod
  have h₂ : Charted lexicon matchers False (fun _ => False) (· = .float) d.beginCategories place :=
    (h₁.reroute (h₁.origin_lt_size hnumber) (f := .classify .digit .number .unknown) nofun
      (.digit (h₁.origin hnumber))).loosen fun k hk =>
        (hk.1.1.resolve_left hk.1.2).resolve_left hk.2
  obtain ⟨⟨⟩, d₃, hunknown, hy⟩ := yields_bind.1 hy
  obtain ⟨place₃, h₃⟩ := h₂.endCategory (o := .unknown) hmarked (Origin.not_isBody_of_mem (by simp))
    nofun hunknown
  obtain ⟨⟨⟩, d₄, hident, hy⟩ := yields_bind.1 hy
  obtain ⟨place₄, h₄⟩ := h₃.endCategory hmarked hidentifier nofun hident
  obtain ⟨⟨⟩, d₅, hnum, hy⟩ := yields_bind.1 hy
  obtain ⟨place₅, h₅⟩ := h₄.endCategory hmarked hnumber nofun hnum
  obtain ⟨ok, d₆, hclaim, hy⟩ := yields_bind.1 hy
  cases ok with
  | false => cases isWeak_of_yields hclaim
  | true =>
    obtain ⟨⟨⟩, d₇, hmod, hy⟩ := yields_bind.1 hy
    obtain rfl := yields_modify.1 hmod
    have h₆ := h₅.assign hclaim (.refl _ d₆) (h₅.origin_lt_size hfloat) (by simp [h₅.place_float])
      (fun b => { b with action := .none, fallback := .classify .digit .float .unknown })
      (fun _ => rfl) (.decimal (h₅.origin hfloat)) .none ⟨rfl, nofun⟩ (.inr (.inr hmarked)) nofun
    have h₇ : Charted lexicon matchers True (fun _ => False) (fun _ => False) d₆.beginDecimals
        place₅ :=
      { h₆.loosen fun _ hk => hk.2 hk.1 with
        point := fun _ => by
          rw [beginDecimals, claim?_modifyBehaviour]
          exact claim?_of_yields hclaim (h₅.origin_lt_size hfloat) }
    obtain ⟨place₈, h₈⟩ := h₇.endCategory hmarked hfloat (fun _ => nofun) hy
    exact ⟨h₂, hunknown, h₃, hident, h₄, hnum, h₅, hclaim, h₇, hy, h₈⟩

/-- The open-ended categories. -/
theorem Charted.buildCategories
    (h : Charted lexicon matchers False (fun _ => False)
      (fun k => k = .identifier ∨ k = .number ∨ k = .float) d place)
    (hy : lexicon.buildCategories.Yields d ⟨⟩ d') :
    ∃ place', Charted lexicon matchers True (fun _ => False) (fun _ => False) d' place' := by
  obtain ⟨-, -, -, -, -, -, -, -, -, -, h'⟩ := h.categories hy
  exact ⟨_, h'⟩

/-- All keywords. -/
theorem Charted.buildKeywords (h : Charted lexicon matchers pointed marked loose d place)
    (hmarked : ¬∃ t, marked t) (hy : lexicon.buildKeywords.Yields d ⟨⟩ d') :
    ∃ place', Charted lexicon matchers pointed marked loose d' place' := by
  refine hy.forM (fun _ d =>
    ∃ place, Charted lexicon matchers pointed marked loose d place) ?_ ⟨place, h⟩
  rintro definition _ d₁ d₂ ⟨place₁, h₁⟩ hy₁
  refine hy₁.forM (fun _ d =>
    ∃ place, Charted lexicon matchers pointed marked loose d place) ?_ ⟨place₁, h₁⟩
  rintro literal _ d₃ d₄ ⟨place₃, h₃⟩ hy₃
  obtain ⟨place₄, h₄, -⟩ := h₃.buildKeyword hmarked hy₃
  exact ⟨place₄, h₄⟩

/-- The decimal point is bound at the root, unless numbers have to begin with a digit. Where
conflicts are rejected, nothing else begins with it then. -/
structure Pointed (lexicon : Lexicon) (d d' : Draft) : Prop where
  runs : d'.runs = d.runs
  openers : d'.openers = d.openers
  trie : d'.trie = if lexicon.floatsHaveLeadingNumber then d.trie
    else d.trie.setChild .root (.char '.') .float
  free (h : lexicon.conflicts = .reject) (hleading : lexicon.floatsHaveLeadingNumber = false) :
    d.trie.child? .root (.char '.') = none

theorem pointed_of_yields (hy : lexicon.bindLeadingPoint.Yields d ⟨⟩ d') :
    Pointed lexicon d d' := by
  rw [Lexicon.bindLeadingPoint] at hy
  split at hy
  · next hleading =>
    obtain ⟨-, rfl⟩ := yields_pure.1 hy
    exact ⟨rfl, rfl, by rw [if_pos hleading], fun _ hnot => absurd hleading (by simp [hnot])⟩
  · next hleading =>
    obtain ⟨_, _, hget, hrest⟩ := yields_bind.1 hy
    obtain ⟨rfl, rfl⟩ := yields_get.1 hget
    split at hrest
    · next hnone =>
      obtain rfl := yields_modify.1 hrest
      exact ⟨rfl, rfl, by rw [if_neg hleading], fun _ _ => hnone⟩
    · split at hrest
      · obtain ⟨_, _, hthrow, -⟩ := yields_bind.1 hrest
        exact absurd hthrow not_yields_throw
      · next hpolicy =>
        obtain ⟨_, _, hwarn, hlast⟩ := yields_bind.1 hrest
        obtain rfl := yields_modify.1 hwarn
        obtain rfl := yields_modify.1 hlast
        exact ⟨rfl, rfl, by rw [if_neg hleading]; rfl,
          fun hreject => nomatch hpolicy.symm.trans hreject⟩

end Draft

/-! ### The whole -/

/-- The stages in which a grammar is built, with a chart of each. -/
inductive Draft.Stages (lexicon : Lexicon) (matchers : List (GreedyMatcher Compilation))
    (d' : Draft) : Prop
  | mk {d₁ d₂ d₃ d₄ d₅ : Draft} {place₁ place₂ place₃ place₄ place₅ : NodeId → Locus}
    (categories : lexicon.buildCategories.Yields .start ⟨⟩ d₁)
    (chart₁ : Draft.Charted lexicon matchers True (fun _ => False) (fun _ => False) d₁ place₁)
    (keywords : lexicon.buildKeywords.Yields d₁ ⟨⟩ d₂)
    (chart₂ : Draft.Charted lexicon matchers True (fun _ => False) (fun _ => False) d₂ place₂)
    (runs : (lexicon.buildMatchers matchers).Yields d₂ ⟨⟩ d₃)
    (chart₃ : Draft.Charted lexicon matchers True (fun _ => False) (fun _ => False) d₃ place₃)
    (delimiters : lexicon.buildDelimiters.Yields d₃ ⟨⟩ d₄)
    (chart₄ : Draft.Charted lexicon matchers True (fun t => t ∈ literalsOf lexicon.delimiters)
      (fun _ => False) d₄ place₄)
    (punctuation : lexicon.buildPunctuation.Yields d₄ ⟨⟩ d₅)
    (chart₅ : Draft.Charted lexicon matchers True
      (fun t => t ∈ literalsOf lexicon.delimiters ∨ t ∈ literalsOf lexicon.punctuation)
      (fun _ => False) d₅ place₅)
    (point : Draft.Pointed lexicon d₅ d')

/-- A grammar is built in stages. -/
theorem Lexicon.stages_build {lexicon : Lexicon} {matchers : List (GreedyMatcher Compilation)}
    {d' : Draft} (hy : (lexicon.build matchers).Yields .start ⟨⟩ d') :
    Draft.Stages lexicon matchers d' := by
  have hmarked : ¬∃ t : String, (fun _ => False) t := fun ⟨_, h⟩ => h
  obtain ⟨⟨⟩, d₁, hcategories, hy⟩ := Assembly.yields_bind.1 hy
  obtain ⟨place₁, h₁⟩ := Draft.charted_start.buildCategories hcategories
  obtain ⟨⟨⟩, d₂, hkeywords, hy⟩ := Assembly.yields_bind.1 hy
  obtain ⟨place₂, h₂⟩ := h₁.buildKeywords hmarked hkeywords
  obtain ⟨⟨⟩, d₃, hmatchers, hy⟩ := Assembly.yields_bind.1 hy
  obtain ⟨place₃, h₃⟩ := h₂.buildMatchers hmarked hmatchers
  obtain ⟨⟨⟩, d₄, hdelimiters, hy⟩ := Assembly.yields_bind.1 hy
  obtain ⟨place₄, h₄⟩ := h₃.forM_literals (fun _ _ {_ _ _ _} h hy => h.buildDelimiter hy)
    hdelimiters
  obtain ⟨⟨⟩, d₅, hpunctuation, hy⟩ := Assembly.yields_bind.1 hy
  obtain ⟨place₅, h₅⟩ := h₄.forM_literals (fun _ _ {_ _ _ _} h hy => h.buildMark hy) hpunctuation
  exact ⟨hcategories, h₁, hkeywords, h₂, hmatchers, h₃, hdelimiters,
    { h₄ with marks := fun ht => h₄.marks (.inr ht) }, hpunctuation,
    { h₅ with marks := fun ht => h₅.marks (ht.imp_left .inr) }, Draft.pointed_of_yields hy⟩

/-- The automaton that is assembled is a finished draft. -/
theorem Lexicon.yields_assemble {lexicon : Lexicon} {matchers : List (GreedyMatcher Compilation)}
    {a : Automaton} (h : (lexicon.assemble matchers).result = .ok a) :
    ∃ d, (lexicon.build matchers).Yields .start ⟨⟩ d ∧ a = lexicon.finish d := by
  rw [assemble] at h
  cases hrun : (lexicon.build matchers).run.run .start with
  | mk result d =>
    rw [hrun] at h
    cases result with
    | error e => cases h
    | ok u =>
      cases h
      exact ⟨d, hrun, rfl⟩

/-- The draft of the automaton that is assembled is built in stages. -/
theorem Lexicon.stages_assemble {lexicon : Lexicon} {matchers : List (GreedyMatcher Compilation)}
    {a : Automaton} (h : (lexicon.assemble matchers).result = .ok a) :
    ∃ d, Draft.Stages lexicon matchers d ∧ a = lexicon.finish d := by
  obtain ⟨d, hy, ha⟩ := yields_assemble h
  exact ⟨d, stages_build hy, ha⟩

/-! ### Openers -/

namespace Draft

variable {lexicon : Lexicon} {matchers : List (GreedyMatcher Compilation)}
  {pointed : Prop} {marked : String → Prop} {loose : NodeId → Prop} {d d' : Draft}
  {place : NodeId → Locus} {target : NodeId → Prop} {t t' t'' : Trie Site} {n : NodeId}

/-- Some unclaimed nodes send symbols without a child to one of the targets, into a run that they
are openers of. -/
structure Redirects (place : NodeId → Locus) (target : NodeId → Prop) (t t' : Trie Site) :
    Prop where
  size : t'.size = t.size
  edges (n : NodeId) : t'.edges n = t.edges n
  claim (n : NodeId) : (t'.content n).claim = (t.content n).claim
  behaviour (n : NodeId) : (t'.content n).behaviour = (t.content n).behaviour ∨
    (t.content n).claim = none ∧ ∃ b, target b ∧ (Fallback.reroute b).Fits place (place n) ∧
      (t'.content n).behaviour = { (t.content n).behaviour with fallback := .reroute b }

theorem Redirects.refl (place : NodeId → Locus) (target : NodeId → Prop) (t : Trie Site) :
    Redirects place target t t :=
  ⟨rfl, fun _ => rfl, fun _ => rfl, fun _ => .inl rfl⟩

theorem Redirects.trans (h : Redirects place target t t') (h' : Redirects place target t' t'') :
    Redirects place target t t'' := by
  refine ⟨h'.size.trans h.size, fun n => (h'.edges n).trans (h.edges n),
    fun n => (h'.claim n).trans (h.claim n), fun n => ?_⟩
  rcases h'.behaviour n with hsame | ⟨hclaim, b, hopen, hfit, hb⟩
  · exact hsame ▸ h.behaviour n
  · refine .inr ⟨(h.claim n).symm.trans hclaim, b, hopen, hfit, hb.trans ?_⟩
    rcases h.behaviour n with hsame | ⟨-, b', -, -, hb'⟩
    · rw [hsame]
    · rw [hb']

/-- An unclaimed node sends symbols without a child into a run. -/
theorem redirects_modifyContent {b : NodeId} (hclaim : (t.content n).claim = none)
    (hopen : target b) (hfit : (Fallback.reroute b).Fits place (place n)) :
    Redirects place target t (t.modifyContent n fun site =>
      { site with behaviour := { site.behaviour with fallback := .reroute b } }) := by
  refine ⟨Trie.size_modifyContent .., fun k => Trie.edges_modifyContent .., fun k => ?_,
    fun k => ?_⟩
  · rw [Trie.content_modifyContent]
    split <;> rfl
  · rw [Trie.content_modifyContent]
    split
    · next hk => exact hk.1 ▸ .inr ⟨hclaim, b, hopen, hfit, rfl⟩
    · exact .inl rfl

/-- The unclaimed nodes below an opener lead into its run. -/
theorem redirects_redirectWithin {b : NodeId} {m : GreedyMatcher Compilation}
    {nested : Option RunId} (hb : place b = ⟨.body b m nested, []⟩) (hopen : target b) (depth : Nat)
    (hsorted : ∀ n, (t.edges n).Sorted)
    (hchild : ∀ n s k, place n ≠ ⟨.root, []⟩ → t.child? n s = some k →
      place k = (place n).down s)
    {path : List Symbol} (hn : place n = ⟨.root, spelling m.startsWith.toList ++ path⟩) :
    Redirects place target t (redirectWithin b depth t n) := by
  induction depth generalizing t n path with
  | zero => exact .refl place target t
  | succ depth ih =>
    suffices ∀ (edges : Edges) (t' : Trie Site), (∀ e ∈ edges, e ∈ t.edges n) →
        Redirects place target t t' → Redirects place target t (edges.foldl (fun t e =>
          if (t.content e.2).claim.isSome then t
          else redirectWithin b depth (t.modifyContent e.2 fun site =>
            { site with behaviour := { site.behaviour with fallback := .reroute b } }) e.2) t') from
      this _ _ (fun _ he => he) (.refl place target t)
    intro edges
    induction edges with
    | nil => exact fun _ _ h => h
    | cons e edges ihe =>
      intro t' hmem h
      refine ihe _ (fun f hf => hmem f (List.mem_cons_of_mem _ hf)) ?_
      dsimp only
      split
      · exact h
      · next hclaim =>
        have hne : place n ≠ ⟨.root, []⟩ := by
          rw [hn]
          simp [spelling_ne_nil]
        have he : place e.2 = ⟨.root, spelling m.startsWith.toList ++ (path ++ [e.1])⟩ := by
          rw [hchild n e.1 e.2 hne ((hsorted n).find?_of_mem (hmem e List.mem_cons_self)), hn,
            Locus.down_of_origin_ne (by simp), List.append_assoc]
        have hstep := h.trans (redirects_modifyContent (b := b) (by simpa using hclaim)
          hopen (.enter hb he))
        refine hstep.trans (ih (fun k => hstep.edges k ▸ hsorted k) (fun k s j hk hj => ?_) he)
        refine hchild k s j hk ?_
        rwa [Trie.child?, hstep.edges] at hj

theorem Pointed.child? (hp : Pointed lexicon d d') (hroot : NodeId.root < d.trie.size)
    (n : NodeId) (s : Symbol) : d'.trie.child? n s =
      if lexicon.floatsHaveLeadingNumber = false ∧ n = .root ∧ s = .char '.' then some .float
      else d.trie.child? n s := by
  rw [hp.trie]
  cases lexicon.floatsHaveLeadingNumber with
  | true => rfl
  | false =>
    rw [if_neg Bool.false_ne_true, Trie.child?_setChild _ _ _ _ _ _ hroot]
    simp only [true_and]

theorem Pointed.site (hp : Pointed lexicon d d') (n : NodeId) : d'.site n = d.site n := by
  rw [Draft.site, hp.trie]
  split
  · rfl
  · exact Trie.content_setChild ..

/-- What the openers do to a draft. -/
theorem Charted.settle (h : Charted lexicon matchers pointed marked loose d place)
    (hp : Pointed lexicon d d') :
    ∃ t, Redirects place (fun b => ∃ k, (d.site k).behaviour.fallback = .reroute b) d'.trie t ∧
      d'.openers.foldl (fun d o => d.settleOpener o.1 o.2) d' = { d' with trie := t } := by
  have hsorted (n : NodeId) : (d'.trie.edges n).Sorted := by
    rw [hp.trie]
    split
    · exact h.sorted n
    · rw [Trie.edges_setChild]
      split
      · exact (h.sorted n).insert ..
      · exact h.sorted n
  have hchild {n k : NodeId} {s : Symbol} (hn : place n ≠ ⟨.root, []⟩)
      (hc : d'.trie.child? n s = some k) : place k = (place n).down s := by
    rw [hp.child? h.root_lt_size] at hc
    split at hc
    · next hroot => exact absurd (hroot.2.1 ▸ h.place_root) hn
    · exact (h.child hc).2
  let target (b : NodeId) : Prop := ∃ k, (d.site k).behaviour.fallback = .reroute b
  suffices ∀ (openers : List (NodeId × NodeId)) (t : Trie Site), (∀ o ∈ openers, o ∈ d.openers) →
      Redirects place target d'.trie t → ∃ t', Redirects place target d'.trie t' ∧
        openers.foldl (fun d o => d.settleOpener o.1 o.2) { d' with trie := t } =
          { d' with trie := t' } from
    this _ _ (fun o ho => hp.openers ▸ ho) (.refl place target d'.trie)
  intro openers
  induction openers with
  | nil => exact fun t _ ht => ⟨t, ht, rfl⟩
  | cons o openers ih =>
    intro t hmem ht
    rw [List.foldl_cons, settleOpener]
    split
    · next hopener =>
      obtain ⟨m, nested, hb, hn⟩ := h.opener (hmem o List.mem_cons_self)
      have htarget : target o.2 := by
        rcases ht.behaviour o.1 with hsame | ⟨-, b, hopen, -, hsame⟩
        · exact ⟨o.1, (congrArg (·.behaviour.fallback) (hp.site o.1)).symm.trans
            ((congrArg (·.fallback) hsame).symm.trans hopener)⟩
        · cases (congrArg (·.fallback) hsame).symm.trans hopener
          exact hopen
      refine ih _ (fun o' ho' => hmem o' (List.mem_cons_of_mem _ ho')) (ht.trans ?_)
      refine redirects_redirectWithin hb htarget _ (fun n => (ht.edges n).symm ▸ hsorted n)
        (fun n s k hk hc => hchild hk ?_) (hn.trans (by rw [List.append_nil]))
      rwa [Trie.child?, ht.edges] at hc
    · exact ih _ (fun o' ho' => hmem o' (List.mem_cons_of_mem _ ho')) ht

/-- What is left of a draft in its automaton. -/
structure Finishes (lexicon : Lexicon) (d : Draft) (place : NodeId → Locus) (a : Automaton) :
    Prop where
  runs : a.runs = d.runs.toList
  child? (n : NodeId) (s : Symbol) : a.trie.child? n s =
    if lexicon.floatsHaveLeadingNumber = false ∧ n = .root ∧ s = .char '.' then some .float
    else d.trie.child? n s
  action (n : NodeId) : (a.behaviour n).action = (d.site n).behaviour.action
  run (n : NodeId) : (a.behaviour n).run = (d.site n).behaviour.run
  root : (a.behaviour .root).fallback = .dispatch
  fallback {n : NodeId} (hn : n ≠ .root) :
    (a.behaviour n).fallback = (d.site n).behaviour.fallback ∨ d.claim? n = none ∧
      ∃ b, (∃ k, (d.site k).behaviour.fallback = .reroute b) ∧
        (Fallback.reroute b).Fits place (place n) ∧ (a.behaviour n).fallback = .reroute b

theorem Charted.finishes (h : Charted lexicon matchers pointed marked loose d place)
    (hp : Pointed lexicon d d') : Finishes lexicon d place (lexicon.finish d') := by
  obtain ⟨t, ht, hsettled⟩ := h.settle hp
  have hroot : NodeId.root < t.size := by
    rw [ht.size, hp.trie]
    split <;> simpa using h.root_lt_size
  have hdone (n : NodeId) : (lexicon.finish d').behaviour n =
      if NodeId.root = n then { (t.content n).behaviour with fallback := .dispatch }
      else (t.content n).behaviour := by
    rw [StateGraph.behaviour, Lexicon.finish, hsettled]
    refine (Trie.content_map _ _ Site.behaviour rfl).trans ?_
    rw [Draft.modifyBehaviour, Trie.content_modifyContent]
    by_cases hn : NodeId.root = n
    · rw [if_pos ⟨hn, hroot⟩, if_pos hn]
    · rw [if_neg fun h => hn h.1, if_neg hn]
  have hbehaviour (n : NodeId) : (d'.trie.content n).behaviour = (d.site n).behaviour :=
    congrArg Site.behaviour (hp.site n)
  have hsame (n : NodeId) : (t.content n).behaviour.action = (d.site n).behaviour.action ∧
      (t.content n).behaviour.run = (d.site n).behaviour.run := by
    rw [← hbehaviour]
    rcases ht.behaviour n with hsame | ⟨-, b, -, -, hb⟩
    · rw [hsame]
      exact ⟨rfl, rfl⟩
    · rw [hb]
      exact ⟨rfl, rfl⟩
  refine ⟨?runs, fun n s => ?child, fun n => ?action, fun n => ?run, ?root, fun {n} hn => ?fallback⟩
  case runs =>
    rw [Lexicon.finish, hsettled]
    exact congrArg Array.toList hp.runs
  case child =>
    rw [← hp.child? h.root_lt_size, Lexicon.finish, hsettled]
    simp only [Draft.modifyBehaviour, Trie.child?_map, Trie.child?_modifyContent]
    rw [Trie.child?, ht.edges, Trie.child?]
  case action =>
    rw [hdone]
    split <;> exact (hsame n).1
  case run =>
    rw [hdone]
    split <;> exact (hsame n).2
  case root => rw [hdone, if_pos rfl]
  case fallback =>
    rw [hdone, if_neg (Ne.symm hn), ← hbehaviour]
    rcases ht.behaviour n with hkept | ⟨hclaim, b, hopen, hfit, hb⟩
    · exact .inl (congrArg Behaviour.fallback hkept)
    · exact .inr ⟨(congrArg Site.claim (hp.site n)).symm.trans hclaim, b, hopen, hfit,
        congrArg Behaviour.fallback hb⟩

/-- Paths that do not begin at the root are kept. -/
theorem Finishes.follow? {a : Automaton} (hf : Finishes lexicon d place a)
    (h : Charted lexicon matchers pointed marked loose d place) {path : List Symbol}
    (hn : place n ≠ ⟨.root, []⟩) (hp : d.trie.follow? n path = some k) :
    a.trie.follow? n path = some k := by
  induction path generalizing n with
  | nil => exact hp
  | cons s path ih =>
    rw [Trie.follow?_cons] at hp ⊢
    obtain ⟨m, hm, hp⟩ := Option.bind_eq_some_iff.1 hp
    have hroot : n ≠ .root := by
      rintro rfl
      exact hn h.place_root
    refine Option.bind_eq_some_iff.2 ⟨m, ?_, ih ?_ hp⟩
    · rw [hf.child?, if_neg fun h => hroot h.2.1, hm]
    · rw [(h.child hm).2]
      exact Locus.down_ne_root _ s

/-- Nothing happens at the decimal point. -/
theorem Finishes.action_float {a : Automaton} (hf : Finishes lexicon d place a)
    (h : Charted lexicon matchers True marked loose d place) :
    (a.behaviour .float).action = .none := by
  rw [hf.action]
  exact (h.claimed (h.point trivial)).1

/-- A mark that is in place can be spelled from the root, unless it goes on after the decimal
point and that is bound there. -/
theorem Finishes.mark {a : Automaton} (hf : Finishes lexicon d place a)
    (h : Charted lexicon matchers True marked loose d place) {t : String} (ht : marked t)
    (hne : t ≠ "") (hpoint : lexicon.floatsHaveLeadingNumber = false →
      t.toList.head? = some '.' → t = ".") :
    ∃ n, a.trie.follow? .root (t.toList.map .char) = some n ∧ (a.behaviour n).action.EndsMark := by
  obtain ⟨n, role, hp, hc, hm⟩ := h.marks ht
  have hends : (a.behaviour n).action.EndsMark := by
    have hacts := h.claimed hc
    rw [hf.action]
    cases role with
    | delimiter label => exact .inr ⟨label, hacts⟩
    | punctuation label => exact .inl hacts.1
    | _ => exact hm.elim
  cases hlist : t.toList with
  | nil => exact absurd (String.toList_eq_nil_iff.1 hlist) hne
  | cons c cs =>
    rw [spelling, hlist, if_neg (by simp), List.map_cons, Trie.follow?_cons] at hp
    obtain ⟨k, hk, hp⟩ := Option.bind_eq_some_iff.1 hp
    by_cases hredirected : lexicon.floatsHaveLeadingNumber = false ∧ c = '.'
    · obtain rfl := hpoint hredirected.1 (by rw [hlist, hredirected.2]; rfl)
      cases hlist
      refine ⟨.float, ?_, .inl (hf.action_float h)⟩
      rw [List.map_cons, Trie.follow?_cons, hf.child?, if_pos ⟨hredirected.1, rfl, rfl⟩]
      rfl
    · refine ⟨n, ?_, hends⟩
      rw [List.map_cons, Trie.follow?_cons, hf.child?, if_neg ?_, hk]
      · refine hf.follow? h ?_ hp
        rw [(h.child hk).2]
        exact Locus.down_ne_root _ _
      · rintro ⟨hleading, -, hc⟩
        exact hredirected ⟨hleading, Symbol.char.inj hc⟩

/-- The automaton of a charted draft is charted. -/
theorem Finishes.charted {a : Automaton} (hf : Finishes lexicon d place a)
    (h : Charted lexicon matchers True
      (fun t => t ∈ literalsOf lexicon.delimiters ∨ t ∈ literalsOf lexicon.punctuation)
      (fun _ => False) d place) :
    TrieLexer.Charted lexicon matchers a place where
  origin := h.origin
  child {n k s} hc := by
    rw [hf.child?] at hc
    split at hc
    · next hpoint =>
      cases hc
      exact .inr ⟨hpoint.2.1 ▸ h.place_root, hpoint.2.2, h.place_float⟩
    · exact .inl (h.child hc).2
  body hp := by
    rw [hf.run, hf.runs]
    exact h.body hp
  run hr := h.run ((hf.run _).symm.trans hr)
  runs hr := h.runs (by rwa [hf.runs, Array.mem_toList_iff] at hr)
  fallback n := by
    by_cases hn : n = .root
    · rw [hn, hf.root]
      exact .dispatch h.place_root
    · rcases hf.fallback hn with hsame | ⟨-, b, -, hfit, hb⟩
      · exact hsame ▸ h.fallback n
      · exact hb ▸ hfit
  action n := hf.action n ▸ h.action n
  float hn := h.float hn ▸ hf.action_float h
  mark {t} ht hne hpoint := by
    refine hf.mark h ?_ hne fun _ => hpoint
    rw [Lexicon.terminators, List.mem_eraseDups, List.mem_append, List.mem_append,
      List.mem_singleton] at ht
    rcases ht with (ht | ht) | ht
    · exact .inl ht
    · exact absurd ht hne
    · exact .inr ht
  dispatch := hf.root
  settled {n} hstay hnone := by
    have hn : n ≠ .root := by
      rintro rfl
      cases hf.root.symm.trans hstay
    rw [hf.action] at hnone
    rcases hf.fallback hn with hsame | ⟨-, b, -, -, hb⟩
    · rw [hsame] at hstay
      cases hc : d.claim? n with
      | none => exact h.settled id hn hc hstay hnone
      | some role => exact absurd hnone ((h.claimed hc).busy hstay)
    · cases hb.symm.trans hstay

end Draft

/-- The automaton that is assembled is charted. -/
theorem Lexicon.charted_assemble {lexicon : Lexicon} {matchers : List (GreedyMatcher Compilation)}
    {a : Automaton} (h : (lexicon.assemble matchers).result = .ok a) :
    ∃ place, Charted lexicon matchers a place := by
  obtain ⟨d, ⟨-, -, -, -, -, -, -, -, -, chart, point⟩, rfl⟩ := stages_assemble h
  exact ⟨_, (chart.finishes point).charted chart⟩

/-- The lexicon and the matchers of a grammar that compiles are assembled. -/
theorem Grammar.assemble_of_compile {g : Grammar} {a : Automaton} (h : g.compile.result = .ok a) :
    (g.toLexicon.assemble (compileMatchers g.greedyMatchers)).result = .ok a := by
  obtain ⟨lexicon, matchers⟩ := g
  rw [compile] at h
  split at h
  · cases h
  · exact h

/-- The automaton of a grammar that compiles is charted. -/
theorem Grammar.charted_compile {g : Grammar} {a : Automaton} (h : g.compile.result = .ok a) :
    ∃ place, Charted g.toLexicon (compileMatchers g.greedyMatchers) a place :=
  Lexicon.charted_assemble (assemble_of_compile h)

/-! ### Nested grammars -/

mutual

/-- Induction on the grammars of interiors. -/
theorem Grammar.induct {P : Grammar → Prop}
    (step : ∀ g : Grammar, (∀ m ∈ g.greedyMatchers, ∀ s, m.subGrammar = some s → P s) → P g) :
    (g : Grammar) → P g
  | ⟨lexicon, matchers⟩ => step ⟨lexicon, matchers⟩ (Grammar.inductMatchers step matchers)

theorem Grammar.inductMatchers {P : Grammar → Prop}
    (step : ∀ g : Grammar, (∀ m ∈ g.greedyMatchers, ∀ s, m.subGrammar = some s → P s) → P g) :
    (ms : List (GreedyMatcher Grammar)) → ∀ m ∈ ms, ∀ s, m.subGrammar = some s → P s
  | [], _, hm => absurd hm List.not_mem_nil
  | x :: xs, m, hm => (List.mem_cons.1 hm).elim
    (fun hx s hs => Grammar.inductMatcher step x s (hx ▸ hs))
    (fun hxs => Grammar.inductMatchers step xs m hxs)

theorem Grammar.inductMatcher {P : Grammar → Prop}
    (step : ∀ g : Grammar, (∀ m ∈ g.greedyMatchers, ∀ s, m.subGrammar = some s → P s) → P g) :
    (m : GreedyMatcher Grammar) → ∀ s, m.subGrammar = some s → P s
  | ⟨_, _, _, _, _, some interior⟩, _, hs => Option.some.inj hs ▸ Grammar.induct step interior

end

theorem compileMatchers_eq (ms : List (GreedyMatcher Grammar)) :
    compileMatchers ms = ms.map compileMatcher := by
  induction ms with
  | nil => rw [compileMatchers, List.map_nil]
  | cons m ms ih => rw [compileMatchers, ih, List.map_cons]

theorem subGrammar_compileMatcher (m : GreedyMatcher Grammar) :
    (compileMatcher m).subGrammar = m.subGrammar.map Grammar.compile := by
  obtain ⟨kind, startsWith, endsWith, haltsWith, escapesWith, interior⟩ := m
  cases interior <;> rw [compileMatcher, compileInterior] <;> rfl

/-- No mark goes on after a point at its beginning, here and in the interiors. -/
inductive Grammar.LonePoint : Grammar → Prop
  | mk {g : Grammar} (h : g.toLexicon.LonePoint)
      (hm : ∀ m ∈ g.greedyMatchers, ∀ s, m.subGrammar = some s → s.LonePoint) : g.LonePoint

theorem Grammar.LonePoint.lexicon {g : Grammar} (h : g.LonePoint) : g.toLexicon.LonePoint := by
  cases h with
  | mk h hm => exact h

theorem Grammar.LonePoint.interior {g s : Grammar} (h : g.LonePoint) {m : GreedyMatcher Grammar}
    (hm : m ∈ g.greedyMatchers) (hs : m.subGrammar = some s) : s.LonePoint := by
  cases h with
  | mk h hinterior => exact hinterior m hm s hs

/-- An automaton that is charted at every depth. If `clean` holds, the points of its marks are
lone at every depth. -/
inductive Lawful (clean : Prop) : Automaton → Prop
  | mk {lexicon : Lexicon} {matchers : List (GreedyMatcher Compilation)} {a : Automaton}
      {place : NodeId → Locus} (h : Charted lexicon matchers a place)
      (hlone : clean → lexicon.LonePoint) (hruns : ∀ run ∈ a.runs, Lawful clean run.automaton) :
      Lawful clean a

/-- The run of an interior carries out the grammar of the interior. -/
theorem Charted.exists_of_mem {g : Grammar} {a : Automaton} {place : NodeId → Locus}
    (h : Charted g.toLexicon (compileMatchers g.greedyMatchers) a place)
    {run : NestedRun Automaton} (hrun : run ∈ a.runs) :
    ∃ m ∈ g.greedyMatchers, ∃ s, m.subGrammar = some s ∧ s.compile.result = .ok run.automaton := by
  obtain ⟨m, hm, c, hc, ha⟩ := h.runs hrun
  rw [compileMatchers_eq] at hm
  obtain ⟨x, hx, rfl⟩ := List.mem_map.1 hm
  rw [subGrammar_compileMatcher] at hc
  obtain ⟨s, hs, rfl⟩ := Option.map_eq_some_iff.1 hc
  exact ⟨x, hx, s, hs, ha⟩

/-- A grammar that compiles has a lawful automaton. -/
theorem Grammar.lawful_compile {clean : Prop} (g : Grammar) (hclean : clean → g.LonePoint)
    {a : Automaton} (h : g.compile.result = .ok a) : Lawful clean a := by
  induction g using Grammar.induct generalizing a with
  | step g ih =>
    obtain ⟨place, hchart⟩ := g.charted_compile h
    refine .mk hchart (fun hc => (hclean hc).lexicon) fun run hrun => ?_
    obtain ⟨m, hm, s, hs, ha⟩ := hchart.exists_of_mem hrun
    exact ih m hm s hs (fun hc => (hclean hc).interior hm hs) ha

/-- The automaton of a grammar without interiors. -/
theorem Grammar.lawful_of_flat {g : Grammar} {a : Automaton} (h : g.compile.result = .ok a)
    (hflat : ∀ m ∈ g.greedyMatchers, m.subGrammar = none) (hlone : g.toLexicon.LonePoint) :
    Lawful True a :=
  g.lawful_compile (fun _ => .mk hlone fun m hm s hs => by cases (hflat m hm).symm.trans hs) h

end TrieLexer
