import TrieLexer.Proofs.Construction

/-!
# Charts of whole drafts

The parts of a grammar, one after the other: open-ended categories, keywords, greedy runs,
delimiters and punctuation. When all of them are built, no node is loose, and every delimiter and
every punctuation literal is in place.

## Main results

* `Draft.Charted.buildRun` — a greedy run, whose interior may have a grammar.
* `Draft.Charted.buildDelimiter`, `Draft.Charted.buildMark` — literals that are put in place.
* `Draft.Charted.forM_literals` — the literals of all definitions are put in place.
-/

namespace TrieLexer

open Text (byteLength)

namespace Draft

open Assembly (yields_bind yields_pure yields_get yields_modify yields_modifyGet
  yields_pureExcept not_yields_throw)

variable {lexicon : Lexicon} {matchers : List (GreedyMatcher Compilation)}
  {pointed : Prop} {marked : String → Prop} {loose : NodeId → Prop} {d d' d₁ d₂ : Draft}
  {place place' : NodeId → Locus} {n k : NodeId} {literal terminator : String}
  {m : GreedyMatcher Compilation} {nested : Option RunId}

theorem Charted.float_lt_size (h : Charted lexicon matchers pointed marked loose d place) :
    NodeId.float < d.trie.size :=
  Nat.lt_of_lt_of_le (by decide) h.size

theorem Charted.ne_float (h : Charted lexicon matchers pointed marked loose d place)
    {path : List Symbol} (hp : place n = ⟨.root, path⟩) : n ≠ .float := by
  rintro rfl
  cases h.place_float.symm.trans hp

/-! ### Greedy runs -/

theorem foldl_warn (ws : List Warning) (d : Draft) :
    ws.foldl Draft.warn d = { d with warnings := d.warnings ++ ws.toArray } := by
  induction ws generalizing d with
  | nil => rw [List.foldl_nil, Array.append_empty]
  | cons w ws ih =>
    rw [List.foldl_cons, ih]
    simp [warn]

/-- The nested runs of matchers are kept when more runs are added. -/
theorem nests_append {runs more : List (NestedRun Automaton)} (h : m.Nests runs nested) :
    m.Nests (runs ++ more) nested := by
  cases nested with
  | none => exact h
  | some id =>
    obtain ⟨c, automaton, terminator, hc, ha, ht, hrun⟩ := h
    refine ⟨c, automaton, terminator, hc, ha, ht, ?_⟩
    rwa [List.getElem?_append_left (List.getElem?_eq_some_iff.1 hrun).1]

/-- The nested run of a matcher is added, if there is one. -/
theorem nests_of_yields (ht : m.terminator = some terminator)
    (hy : (Lexicon.addNestedRun m terminator).Yields d nested d') :
    ∃ more warnings, d' = { d with runs := d.runs ++ more, warnings } ∧
      m.Nests (d.runs ++ more).toList nested ∧
      ∀ run ∈ more, ∃ c, m.subGrammar = some c ∧ c.result = .ok run.automaton := by
  rw [Lexicon.addNestedRun] at hy
  split at hy
  · next hnone =>
    obtain ⟨rfl, rfl⟩ := yields_pure.1 hy
    exact ⟨#[], d.warnings, by rw [Array.append_empty], hnone, nofun⟩
  · next c hc =>
    obtain ⟨⟨⟩, d₁, hwarn, hy₁⟩ := yields_bind.1 hy
    obtain rfl := yields_modify.1 hwarn
    rw [foldl_warn] at hy₁
    split at hy₁
    · exact absurd hy₁ not_yields_throw
    · next automaton ha =>
      have hrun := yields_modifyGet.1 hy₁
      cases hrun
      refine ⟨#[_], _, rfl, ⟨c, automaton, terminator, hc, ha, ht, ?_⟩, fun run hrun => ?_⟩
      · rw [Array.toList_append]
        exact List.getElem?_concat_length
      · rw [Array.mem_singleton.1 hrun]
        exact ⟨c, hc, ha⟩

/-- A draft with a new node, which may be the body of a nested run. -/
def bindBody (d : Draft) (runs : Array (NestedRun Automaton)) (ws : Array Warning)
    (nested : Option RunId) : Draft :=
  ({ d with trie := d.trie.alloc.1, runs, warnings := ws } : Draft).modifyBehaviour d.trie.size
    fun b => { b with run := nested }

theorem site_bindBody (runs : Array (NestedRun Automaton)) (ws : Array Warning) (k : NodeId) :
    (d.bindBody runs ws nested).site k =
      if k = d.trie.size then { behaviour := { run := nested } } else d.site k := by
  rw [bindBody, site, modifyBehaviour, Trie.content_modifyContent]
  by_cases hk : k = d.trie.size
  · subst hk
    rw [if_pos ⟨rfl, by simp⟩, if_pos rfl, Trie.content_alloc,
      Trie.content_of_size_le _ _ (Nat.le_refl _)]
    rfl
  · rw [if_neg fun h => hk h.1.symm, if_neg hk, Trie.content_alloc]
    rfl

/-- The body of a run is created. -/
theorem Charted.addBody (h : Charted lexicon matchers pointed marked loose d place)
    (hm : m ∈ matchers) {more : Array (NestedRun Automaton)}
    (hnests : m.Nests (d.runs ++ more).toList nested)
    (hmore : ∀ run ∈ more, ∃ c, m.subGrammar = some c ∧ c.result = .ok run.automaton)
    (ws : Array Warning) :
    ∃ place',
      Charted lexicon matchers pointed marked loose (d.bindBody (d.runs ++ more) ws nested) place' ∧
      d.Grows place (d.bindBody (d.runs ++ more) ws nested) place' ∧
      place' d.trie.size = ⟨.body d.trie.size m nested, []⟩ := by
  let place' : NodeId → Locus := fun k =>
    if k = d.trie.size then ⟨.body d.trie.size m nested, []⟩ else place k
  have hnew : place' d.trie.size = ⟨.body d.trie.size m nested, []⟩ := if_pos rfl
  have hother {k : NodeId} (hk : k ≠ d.trie.size) : place' k = place k := if_neg hk
  have hold {k : NodeId} (hk : k < d.trie.size) : place' k = place k := hother (Nat.ne_of_lt hk)
  have hbody {b m nested} (hb : place b = ⟨.body b m nested, []⟩) : place' b = place b :=
    hold (h.lt_size_of_isBody (hb ▸ ⟨_, _, _, rfl⟩))
  have hsize : (d.bindBody (d.runs ++ more) ws nested).trie.size = d.trie.size + 1 := by
    simp [bindBody]
  have hedges (k : NodeId) : (d.bindBody (d.runs ++ more) ws nested).trie.edges k =
      d.trie.edges k := by
    simp [bindBody]
  have hchild (k : NodeId) (s : Symbol) :
      (d.bindBody (d.runs ++ more) ws nested).trie.child? k s = d.trie.child? k s := by
    rw [Trie.child?, hedges, Trie.child?]
  have hsite (k : NodeId) : (d.bindBody (d.runs ++ more) ws nested).site k =
      if k = d.trie.size then { behaviour := { run := nested } } else d.site k :=
    site_bindBody (d.runs ++ more) ws k
  have hsame {k : NodeId} (hk : k ≠ d.trie.size) :
      (d.bindBody (d.runs ++ more) ws nested).site k = d.site k := (hsite k).trans (if_neg hk)
  refine ⟨place',
    ⟨?size, ?fresh, ?origin, fun k => ?sorted, ?child, ?decimal, ?float, ?body, ?run, ?runs,
      ?opener, ?fallback, ?action, ?settled, ?claimed, ?marks, fun hp => ?point⟩,
    ⟨by omega, hold, fun hc => (hchild _ _).trans hc⟩, hnew⟩
  case size => exact hsize ▸ Nat.le_succ_of_le h.size
  case fresh =>
    intro k hk
    rw [hsize] at hk
    rw [hother (Nat.ne_of_gt hk)]
    exact h.fresh (Nat.le_of_lt hk)
  case origin =>
    intro o ho
    rw [hother, h.origin ho]
    intro heq
    have := h.origin ho
    rw [heq, h.fresh (Nat.le_refl _)] at this
    cases this
    exact absurd h.size (by rw [← heq]; decide)
  case sorted => exact hedges k ▸ h.sorted k
  case child =>
    intro k j s hk
    rw [hchild] at hk
    obtain ⟨hj, hp⟩ := h.child hk
    rw [hold hj, hold (Trie.lt_size_of_child? hk), hsize]
    exact ⟨Nat.lt_succ_of_lt hj, hp⟩
  case decimal =>
    intro k hk
    by_cases hks : k = d.trie.size
    · rw [hks, hnew] at hk
      cases hk
    · exact (hchild _ _).trans (h.decimal ((hother hks).symm.trans hk))
  case float =>
    intro k hk
    by_cases hks : k = d.trie.size
    · rw [hks, hnew] at hk
      cases hk
    · exact h.float ((hother hks).symm.trans hk)
  case body =>
    intro k b m' nested' path hk
    by_cases hks : k = d.trie.size
    · subst hks
      rw [hnew] at hk
      cases hk
      exact ⟨hnew, by rw [hsite, if_pos rfl], hm, hnests⟩
    · rw [hother hks] at hk
      obtain ⟨hb, hrun, hm', hnests'⟩ := h.body hk
      have hne : b ≠ d.trie.size := Nat.ne_of_lt (h.lt_size_of_isBody (hb ▸ ⟨_, _, _, rfl⟩))
      refine ⟨(hbody hb).trans hb, (hsame hne).symm ▸ hrun, hm', ?_⟩
      change m'.Nests (d.runs ++ more).toList nested'
      rw [Array.toList_append]
      exact nests_append hnests'
  case run =>
    intro k id hk
    by_cases hks : k = d.trie.size
    · subst hks
      rw [hsite, if_pos rfl] at hk
      cases hk
      exact ⟨m, hnew⟩
    · rw [hsame hks] at hk
      obtain ⟨m', hm'⟩ := h.run hk
      exact ⟨m', (hbody hm').trans hm'⟩
  case runs =>
    intro run hrun
    rcases Array.mem_append.1 hrun with hrun | hrun
    · exact h.runs hrun
    · exact ⟨m, hm, hmore run hrun⟩
  case opener =>
    intro k b hk
    obtain ⟨m', nested', hb, hp⟩ := h.opener hk
    refine ⟨m', nested', (hbody hb).trans hb, (hold (h.lt_size ?_)).trans hp⟩
    rw [hp]
    simp
  case fallback =>
    intro k
    by_cases hks : k = d.trie.size
    · rw [hsite, if_pos hks]
      exact .stay
    · rw [hsame hks, hother hks]
      exact fits_mono (h.fallback k) fun _ _ _ => hbody
  case action =>
    intro k
    by_cases hks : k = d.trie.size
    · rw [hsite, if_pos hks]
      exact .none
    · rw [hsame hks, hother hks]
      exact h.action k
  case settled =>
    intro k hk hroot hclaim hf ha
    by_cases hks : k = d.trie.size
    · rw [hks, hnew]
      exact Locus.isRest_body ..
    · rw [claim?, hsame hks] at hclaim
      rw [hsame hks] at hf ha
      rw [hother hks]
      exact h.settled hk hroot hclaim hf ha
  case claimed =>
    intro k role hk
    by_cases hks : k = d.trie.size
    · rw [claim?, hsite, if_pos hks] at hk
      cases hk
    · rw [claim?, hsame hks] at hk
      rw [hsame hks]
      exact h.claimed hk
  case marks =>
    intro t ht
    obtain ⟨k, role, hp, hc, hrole⟩ := h.marks ht
    refine ⟨k, role, (Trie.follow?_congr hchild _ _).trans hp, ?_, hrole⟩
    have hks : k ≠ d.trie.size := fun hks => by
      rw [claim?, hks, site_of_size_le (Nat.le_refl _)] at hc
      cases hc
    rw [claim?, hsame hks]
    exact hc
  case point =>
    rw [claim?, hsame (Nat.ne_of_lt h.float_lt_size)]
    exact h.point hp

/-- A greedy run ends at one of its ends. -/
theorem Charted.endRun (h : Charted lexicon matchers pointed marked loose d place)
    (hmarked : ¬∃ t, marked t) {close : Close}
    (hb : place close.body = ⟨.body close.body m nested, []⟩)
    (hends : close.Ends lexicon.labels close.body m nested terminator)
    (hy : (lexicon.endRun terminator close).Yields d ⟨⟩ d') :
    GrowsTo lexicon matchers pointed marked loose d place d' := by
  have hn : close.body < d.trie.size := h.lt_size_of_isBody (hb ▸ ⟨_, _, _, rfl⟩)
  have hwalk (path : List Symbol) :
      (place close.body).walk path = ⟨.body close.body m nested, path⟩ := by
    rw [hb, Locus.walk_of_origin_ne (by simp)]
    rfl
  obtain ⟨steps, d₁, hpath, hy₁⟩ := yields_bind.1 hy
  obtain ⟨⟨⟩, d₂, hre, hy₂⟩ := yields_bind.1 hy₁
  obtain ⟨last, place₂, hlast, h₂, hg₂, hsize, hp⟩ := h.spell hn (fun path s => by
    rw [hwalk, Locus.down_of_origin_ne (by simp)]
    exact .back hb rfl (by simp)) hpath hre
  rw [hlast] at hy₂
  obtain ⟨ok, d₃, hclaim, hy₃⟩ := yields_bind.1 hy₂
  cases ok with
  | false => cases isWeak_of_yields hclaim
  | true =>
    obtain rfl := yields_modify.1 hy₃
    have h₃ := h₂.assign hclaim (.refl _ d₃) hsize (by rw [hp, hwalk]; simp)
      (fun b => { b with fallback := .stay, action := .close close })
      (fun _ => rfl) .stay (.close (hp.trans (hwalk _)) hends) ⟨close, rfl, rfl⟩
      (.inr (.inr hmarked)) fun _ heq => by
        rw [heq, h₂.place_float, hwalk] at hp
        cases hp
    exact ⟨place₂, h₃.loosen fun k hk => hk.1.resolve_right hk.2,
      (hg₂.trans (.claim hclaim)).modifyBehaviour _⟩

/-- The edges of a charted draft are in order after a claim. -/
theorem Charted.sorted_of_yields (h : Charted lexicon matchers pointed marked loose d place)
    {policy : ConflictPolicy} {role : Role} {ok : Bool}
    (hy : (Assembly.claim policy n literal role).Yields d ok d₁) (k : NodeId) :
    (d₁.trie.edges k).Sorted := by
  rcases hy.claim with ⟨-, ⟨ws, rfl⟩, -⟩ | ⟨-, rfl, -⟩
  · exact (edges_recordClaim (d := d) role k).symm ▸ h.sorted k
  · exact h.sorted k

/-- An opener is claimed, loses the ends of what it was before, and leads into its run. -/
theorem Charted.assignOpener (h : Charted lexicon matchers pointed marked loose d place)
    {policy : ConflictPolicy} {role : Role}
    (hclaim : (Assembly.claim policy n literal role).Yields d true d₁)
    (hmarked : ¬∃ t, marked t) {b : NodeId} (hb : place b = ⟨.body b m nested, []⟩)
    (hn : place n = ⟨.root, spelling m.startsWith.toList⟩)
    (hacts : ∀ b' : Behaviour, role.Acts { b' with action := .none, fallback := .reroute b }) :
    Charted lexicon matchers pointed marked (fun k => loose k ∧ k ≠ n)
      ((d₁.pruneBoundaries n).modifyBehaviour n fun b' =>
        { b' with action := .none, fallback := .reroute b }) place :=
  h.assign hclaim (prunes_pruneBoundaries (h.sorted_of_yields hclaim n))
    (h.lt_size (by rw [hn]; simp)) (by rw [hn]; simp)
    (fun b' => { b' with action := .none, fallback := .reroute b })
    (fun _ => rfl) (.enter hb (hn.trans (by rw [List.append_nil]))) .none (hacts _)
    (.inr (.inr hmarked)) fun _ => h.ne_float hn

/-- Opener and body of a run are remembered. -/
theorem Charted.addOpener (h : Charted lexicon matchers pointed marked loose d place) {b : NodeId}
    (hb : place b = ⟨.body b m nested, []⟩)
    (hn : place n = ⟨.root, spelling m.startsWith.toList⟩) :
    Charted lexicon matchers pointed marked loose
      { d with openers := d.openers ++ [(n, b)] } place :=
  { h with
    opener := fun hmem => by
      rcases List.mem_append.1 hmem with hmem | hmem
      · exact h.opener hmem
      · cases List.mem_singleton.1 hmem
        exact ⟨m, nested, hb, hn⟩ }

/-- A greedy run with a terminator. -/
theorem Charted.buildRun (h : Charted lexicon matchers pointed marked loose d place)
    (hmarked : ¬∃ t, marked t) (hm : m ∈ matchers) (ht : m.terminator = some terminator)
    (hy : (lexicon.buildRun m terminator).Yields d ⟨⟩ d') :
    ∃ place', Charted lexicon matchers pointed marked loose d' place' := by
  obtain ⟨opener, d₁, hopener, hy⟩ := yields_bind.1 hy
  obtain ⟨body, d₂, hbody, hy⟩ := yields_bind.1 hy
  obtain ⟨escape, d₃, hescape, hy⟩ := yields_bind.1 hy
  obtain ⟨nested, d₄, hnested, hy⟩ := yields_bind.1 hy
  obtain ⟨⟨⟩, d₅, hrun, hy⟩ := yields_bind.1 hy
  obtain ⟨place₁, h₁, -, hsize₁, hp₁, -⟩ := h.rootPath hopener
  cases yields_modifyGet.1 hbody
  obtain ⟨hchar, rfl⟩ := yields_pureExcept.1 hescape
  obtain ⟨more, ws, rfl, hnests, hmore⟩ := nests_of_yields ht hnested
  obtain rfl := yields_modify.1 hrun
  obtain ⟨place₅, h₅, hg₅, hb₅⟩ := h₁.addBody hm hnests hmore ws
  have hp₅ := (hg₅.place hsize₁).trans hp₁
  have hsize₅ := Nat.lt_of_lt_of_le hsize₁ hg₅.size
  obtain ⟨ok, d₆, hclaim, hy⟩ := yields_bind.1 hy
  cases ok with
  | false => cases isWeak_of_yields hclaim
  | true =>
    obtain ⟨⟨⟩, d₇, hprune, hy⟩ := yields_bind.1 hy
    obtain rfl := yields_modify.1 hprune
    obtain ⟨⟨⟩, d₈, hmod, hy⟩ := yields_bind.1 hy
    obtain rfl := yields_modify.1 hmod
    obtain ⟨⟨⟩, d₉, hmod, hy⟩ := yields_bind.1 hy
    obtain rfl := yields_modify.1 hmod
    have h₈ := h₅.assignOpener hclaim hmarked hb₅ hp₅ fun _ => ⟨rfl, nofun⟩
    have h₉ := (h₈.loosen fun k hk => hk.1.resolve_right hk.2).addOpener hb₅ hp₅
    obtain ⟨⟨⟩, d₁₀, hend, hy⟩ := yields_bind.1 hy
    obtain ⟨place₁₀, h₁₀, hg₁₀⟩ := h₉.endRun hmarked hb₅
      ⟨rfl, rfl, rfl, rfl, .inl ⟨ht, rfl, rfl, hchar⟩⟩ hend
    have hb₁₀ := (hg₁₀.place (h₉.lt_size_of_isBody (hb₅ ▸ ⟨_, _, _, rfl⟩))).trans hb₅
    obtain ⟨⟨⟩, d₁₁, hend, hy⟩ := yields_bind.1 hy
    obtain ⟨place₁₁, h₁₁, hg₁₁⟩ := h₁₀.endRun hmarked hb₁₀
      ⟨rfl, rfl, rfl, rfl, .inr (.inl ⟨rfl, rfl, rfl, rfl⟩)⟩ hend
    have hb₁₁ := (hg₁₁.place (h₁₀.lt_size_of_isBody (hb₁₀ ▸ ⟨_, _, _, rfl⟩))).trans hb₁₀
    split at hy
    · obtain ⟨-, rfl⟩ := yields_pure.1 hy
      exact ⟨place₁₁, h₁₁⟩
    · next marker hmarker =>
      obtain ⟨place₁₂, h₁₂, -⟩ := h₁₁.endRun hmarked hb₁₁
        ⟨rfl, rfl, rfl, rfl, .inr (.inr ⟨hmarker, rfl, rfl, hchar⟩)⟩ hy
      exact ⟨place₁₂, h₁₂⟩

/-- All greedy matchers. -/
theorem Charted.buildMatchers (h : Charted lexicon matchers pointed marked loose d place)
    (hmarked : ¬∃ t, marked t) (hy : (lexicon.buildMatchers matchers).Yields d ⟨⟩ d') :
    ∃ place', Charted lexicon matchers pointed marked loose d' place' := by
  refine (hy.forM (fun ms d => (∀ m ∈ ms, m ∈ matchers) ∧
    ∃ place, Charted lexicon matchers pointed marked loose d place) ?_ ⟨fun _ hm => hm, place, h⟩).2
  intro m ms d₁ d₂ ⟨hms, place₁, h₁⟩ hy₁
  refine ⟨fun m' hm' => hms m' (List.mem_cons_of_mem _ hm'), ?_⟩
  split at hy₁
  · obtain ⟨place₂, h₂, -⟩ := h₁.buildKeyword hmarked hy₁
    exact ⟨place₂, h₂⟩
  · next terminator ht => exact h₁.buildRun hmarked (hms m List.mem_cons_self) ht hy₁

/-! ### Delimiters and punctuation -/

/-- A delimiter is put in place. -/
theorem Charted.buildDelimiter (h : Charted lexicon matchers pointed marked loose d place)
    {label : Option Label} (hy : (lexicon.buildDelimiter label literal).Yields d ⟨⟩ d') :
    ∃ place',
      Charted lexicon matchers pointed (fun t => marked t ∨ t = literal) loose d' place' := by
  obtain ⟨n, d₁, hpath, hy⟩ := yields_bind.1 hy
  obtain ⟨place₁, h₁, -, hsize, hp, hfollow⟩ := h.rootPath hpath
  obtain ⟨ok, d₂, hclaim, hy⟩ := yields_bind.1 hy
  cases ok with
  | false => cases isWeak_of_yields hclaim
  | true =>
    obtain rfl := yields_modify.1 hy
    have haction : Action.Fits lexicon (place₁ n) (.literal label) :=
      .literal (by rw [hp]) (by rw [hp]; exact spelling_ne_nil _) label
    have h₂ := h₁.assign hclaim (.refl _ d₂) hsize (by rw [hp]; simp)
      (fun b => { b with action := .literal label }) (fun _ => rfl) (h₁.fallback n) haction rfl
      (.inl trivial)
      fun _ => h₁.ne_float hp
    have hmark : Role.IsMark (.delimiter label) := trivial
    have hg₂ : d₁.Grows place₁ d₂ place₁ := .claim hclaim
    refine ⟨place₁, (h₂.loosen fun k hk => hk.1.resolve_right hk.2).mark (n := n) ?_ ?_
      hmark⟩
    · exact (hg₂.modifyBehaviour _).follow? hfollow
    · rw [claim?_modifyBehaviour]
      exact claim?_of_yields hclaim hsize

/-- A punctuation literal is put in place. -/
theorem Charted.buildMark (h : Charted lexicon matchers pointed marked loose d place)
    {label : Label} (hy : (lexicon.buildMark label literal).Yields d ⟨⟩ d') :
    ∃ place',
      Charted lexicon matchers pointed (fun t => marked t ∨ t = literal) loose d' place' := by
  obtain ⟨n, d₁, hpath, hy⟩ := yields_bind.1 hy
  obtain ⟨place₁, h₁, -, hsize, hp, hfollow⟩ := h.rootPath hpath
  obtain ⟨ok, d₂, hclaim, hy⟩ := yields_bind.1 hy
  cases ok with
  | false => cases isWeak_of_yields hclaim
  | true =>
    obtain ⟨⟨⟩, d₃, hprune, hy⟩ := yields_bind.1 hy
    obtain rfl := yields_modify.1 hprune
    obtain rfl := yields_modify.1 hy
    have hprunes := prunes_pruneBoundaries (h₁.sorted_of_yields hclaim n)
    have hclaimed := claim?_of_yields hclaim hsize
    have hfit : Fallback.Fits place₁ (place₁ n) (.release label) :=
      .release (by rw [hp]) (by rw [hp]; exact spelling_ne_nil _) label
    have h₂ := h₁.assign hclaim hprunes hsize (by rw [hp]; simp)
      (fun b => { b with action := .none, fallback := .release label })
      (fun _ => rfl) hfit .none ⟨rfl, nofun⟩ (.inl trivial) fun _ => h₁.ne_float hp
    have hmark : Role.IsMark (.punctuation label) := trivial
    have hg₂ : d₁.Grows place₁ d₂ place₁ := .claim hclaim
    refine ⟨place₁, (h₂.loosen fun k hk => hk.1.resolve_right hk.2).mark (n := n) ?_ ?_
      hmark⟩
    · rw [follow?_modifyBehaviour]
      exact hprunes.follow (hg₂.follow? hfollow) hclaimed rfl
    · rw [claim?_modifyBehaviour]
      exact hprunes.claim_of_isBoundary hclaimed rfl

/-- All literals of definitions are put in place. -/
theorem Charted.forM_literals {f : Definition → String → Assembly PUnit}
    {definitions : List Definition} (h : Charted lexicon matchers pointed marked loose d place)
    (hf : ∀ (definition : Definition) (literal : String) {marked : String → Prop} {d₁ d₂ : Draft}
      {place₁ : NodeId → Locus}, Charted lexicon matchers pointed marked loose d₁ place₁ →
      (f definition literal).Yields d₁ ⟨⟩ d₂ →
      ∃ place₂, Charted lexicon matchers pointed (fun t => marked t ∨ t = literal) loose d₂ place₂)
    (hy : (definitions.forM fun definition => definition.literals.forM (f definition)).Yields
      d ⟨⟩ d') :
    ∃ place', Charted lexicon matchers pointed (fun t => marked t ∨ t ∈ literalsOf definitions)
      loose d' place' := by
  refine hy.forM_definitions (fun marked d =>
    ∃ place, Charted lexicon matchers pointed marked loose d place) ?_ ?_ marked ⟨place, h⟩
  · rintro added fewer d hfewer ⟨place, h⟩
    exact ⟨place, { h with marks := fun ht => h.marks (hfewer _ ht) }⟩
  · rintro definition - literal - added d₁ d₂ ⟨place₁, h₁⟩ hy₁
    exact hf definition literal h₁ hy₁

end Draft

end TrieLexer
