import Mathlib.Logic.Relation
import TrieLexer.Proofs.Endings

/-!
# The steps of building

Everything that building a grammar does to a draft comes down to a few steps: nodes are added, a
new node on the way to a literal sends symbols without a child elsewhere, and a node is taken for a
role and gets the behaviour that goes with it. What all of these steps keep holds of every draft
that is built. A node at which open-ended text stands owes the ends of its tokens until they are
built.

## Main definitions

* `Lexicon.Words`, `Lexicon.Delimits`, `Lexicon.Punctuates` — the literals under their labels.
* `Lexicon.Signs` — the literals that are no words.
* `Locus.Bears` — the places at which open-ended text under a label stands.
* `Survey` — a draft, its chart and what is owed.
* `Survey.Takes`, `Survey.Clears` — what a node may be taken for.
* `Survey.Step`, `Builds` — a step and several steps.

## Main results

* `Draft.Charted.endBefore_builds`, `Draft.Charted.rootPath_builds`, … — the parts of a grammar
  are built in steps.
* `Draft.Stages.builds` — so is the whole.
-/

namespace TrieLexer

open Text (byteLength)

/-! ### Literals and labels -/

/-- The words of a grammar under their labels: the keywords, and the openers that stand alone. -/
inductive Lexicon.Words {γ : Type} (lexicon : Lexicon) (matchers : List (GreedyMatcher γ)) :
    Label → String → Prop
  | keyword {definition : Definition} {literal : String} (hd : definition ∈ lexicon.keywords)
      (hl : literal ∈ definition.literals) :
      Words lexicon matchers (definition.label.getD lexicon.labels.keyword) literal
  | opener {m : GreedyMatcher γ} (hm : m ∈ matchers) (ht : m.terminator = none) :
      Words lexicon matchers m.kind m.startsWith

/-- A delimiter under its label; an unnamed one has none. -/
def Lexicon.Delimits (lexicon : Lexicon) (label : Option Label) (literal : String) : Prop :=
  ∃ definition ∈ lexicon.delimiters, definition.label = label ∧ literal ∈ definition.literals

/-- A punctuation literal under its label. -/
def Lexicon.Punctuates (lexicon : Lexicon) (label : Label) (literal : String) : Prop :=
  ∃ definition ∈ lexicon.punctuation,
    definition.label.getD lexicon.labels.punctuation = label ∧ literal ∈ definition.literals

/-- The literals that are no words: the delimiters, the punctuation literals and the openers of
runs. -/
inductive Lexicon.Signs {γ : Type} (lexicon : Lexicon) (matchers : List (GreedyMatcher γ)) :
    String → Prop
  | delimiter {label : Option Label} {t : String} (h : lexicon.Delimits label t) :
      Signs lexicon matchers t
  | punctuation {label : Label} {t : String} (h : lexicon.Punctuates label t) :
      Signs lexicon matchers t
  | opener {m : GreedyMatcher γ} (hm : m ∈ matchers) (ht : m.terminator ≠ none) :
      Signs lexicon matchers m.startsWith

/-- At this place stands open-ended text that goes out under a label: that of a category, the
beginning of a word, which is an identifier so far, or a word. -/
inductive Locus.Bears (lexicon : Lexicon) (matchers : List (GreedyMatcher Compilation)) :
    Locus → Label → Prop
  | unknown : Bears lexicon matchers ⟨.unknown, []⟩ lexicon.labels.unknown
  | identifier : Bears lexicon matchers ⟨.identifier, []⟩ lexicon.labels.identifier
  | number : Bears lexicon matchers ⟨.number, []⟩ lexicon.labels.number
  | decimal : Bears lexicon matchers ⟨.float, []⟩ lexicon.labels.decimal
  | beginning {text : List Char} (hne : text ≠ [])
      (h : lexicon.isIdentifierShaped text = true ∨
        ∃ label literal, lexicon.Words matchers label literal ∧ text <+: literal.toList) :
      Bears lexicon matchers ⟨.root, text.map .char⟩ lexicon.labels.identifier
  | word {label : Label} {literal : String} (h : lexicon.Words matchers label literal) :
      Bears lexicon matchers ⟨.root, spelling literal.toList⟩ label

theorem Locus.Bears.not_isBody {lexicon : Lexicon} {matchers : List (GreedyMatcher Compilation)}
    {p : Locus} {label : Label} (h : p.Bears lexicon matchers label) : ¬p.origin.IsBody := by
  cases h <;> exact Origin.not_isBody_of_mem (by simp)

/-- Symbols without a child pass through this place: on the way to the end of an open-ended token,
to a literal that is no word and no identifier so far, or to the end of a run. -/
inductive Locus.Passes (lexicon : Lexicon) (matchers : List (GreedyMatcher Compilation))
    (p : Locus) : Prop
  | ends {q : Locus} {label : Label} {t : String} {path : List Symbol} {s : Symbol}
      (hq : q.Bears lexicon matchers label) (ht : t ∈ lexicon.terminators)
      (hpath : path ++ [s] <+: spelling t.toList) (hp : p = (q.walk path).down s)
  | sign {text : List Char} {literal : String} (hl : lexicon.Signs matchers literal)
      ( hprefix : text <+: literal.toList) (hshape : lexicon.isIdentifierShaped text = false)
      (hp : p = ⟨.root, text.map .char⟩)
  | run (hp : p.origin.IsBody)

/-! ### Steps -/

/-- Open-ended text stands at this node: it is the node of a category, or its text goes on as an
identifier. -/
def Draft.IsOpenEnded (d : Draft) (n : NodeId) : Prop :=
  n = .unknown ∨ n = .identifier ∨ n = .number ∨ n = .float ∨
    (d.site n).behaviour.fallback = Lexicon.identifierFallback

/-- A draft, its chart, and the terminators before which text at a node does not end yet. -/
structure Survey where
  draft : Draft
  place : NodeId → Locus
  owing : NodeId → String → Prop

namespace Survey

variable (lexicon : Lexicon) (matchers : List (GreedyMatcher Compilation))

/-- What a node may be taken for: its role, its behaviour from then on, and what is owed
afterwards. Text that stands at a node owes its ends, and each end pays for itself. -/
inductive Takes (s : Survey) (n : NodeId) :
    Role → (Behaviour → Behaviour) → (NodeId → String → Prop) → Prop
  | boundary {j : NodeId} {label : Label} {weak : Bool} {t : String}
      (ho : s.draft.IsOpenEnded j) (hj : (s.place j).Bears lexicon matchers label)
      (ht : t ∈ lexicon.terminators) (hp : s.draft.trie.follow? j (spelling t.toList) = some n)
      (hn : s.place n = (s.place j).walk (spelling t.toList)) :
      Takes s n (if weak then .weakBoundary label else .boundary label)
        (fun b => { b with action := .boundary label (byteLength t.toList), fallback := .stay })
        (fun k u => s.owing k u ∧ ¬(k = j ∧ u = t))
  | word {role : Role} {label : Label} (hrole : role = .identifierPrefix ∨ role = .keyword label)
      (hn : (s.place n).Bears lexicon matchers label) (hroot : (s.place n).origin = .root)
      (hp : s.draft.trie.follow? .root (s.place n).path = some n) :
      Takes s n role
        (fun b => { b with action := .none, fallback := Lexicon.identifierFallback })
        (fun k u => s.owing k u ∨ k = n)
  | decimal (hn : n = .float) :
      Takes s n .decimalPoint
        (fun b => { b with action := .none, fallback := .classify .digit .float .unknown })
        (fun k u => s.owing k u ∨ k = n)
  | delimiter {label : Option Label} {literal : String} (h : lexicon.Delimits label literal)
      (hn : s.place n = ⟨.root, spelling literal.toList⟩) :
      Takes s n (.delimiter label) (fun b => { b with action := .literal label }) s.owing
  | close {c : Close} {b : NodeId} {m : GreedyMatcher Compilation} {nested : Option RunId}
      {path : List Symbol} (ht : m.terminator ≠ none) (hn : s.place n = ⟨.body b m nested, path⟩) :
      Takes s n (.close c.label) (fun b => { b with fallback := .stay, action := .close c }) s.owing

/-- What a node may be taken for that loses the ends of what it was before. -/
inductive Clears (s : Survey) (n : NodeId) : Role → (Behaviour → Behaviour) → Prop
  | opener {m : GreedyMatcher Compilation} {b : NodeId} (hm : m ∈ matchers)
      (ht : m.terminator ≠ none) (hn : s.place n = ⟨.root, spelling m.startsWith.toList⟩) :
      Clears s n (.opener m.kind) (fun b' => { b' with action := .none, fallback := .reroute b })
  | punctuation {label : Label} {literal : String} (h : lexicon.Punctuates label literal)
      (hn : s.place n = ⟨.root, spelling literal.toList⟩) :
      Clears s n (.punctuation label)
        (fun b => { b with action := .none, fallback := .release label })

/-- A step of building. -/
inductive Step (s : Survey) : Survey → Prop
  | grow {d' : Draft} {place' : NodeId → Locus} (hg : s.draft.Grows s.place d' place')
      (hchild : ∀ {n m u}, d'.trie.child? n u = some m →
        m < d'.trie.size ∧ place' m = (place' n).down u)
      (hsite : ∀ k, (d'.site k).claim = (s.draft.site k).claim ∧
        (d'.site k).behaviour.action = (s.draft.site k).behaviour.action ∧
        (d'.site k).behaviour.fallback = (s.draft.site k).behaviour.fallback) :
      Step s ⟨d', place', s.owing⟩
  | through {n target : NodeId} (hn : n < s.draft.trie.size)
      (hp : (s.place n).Passes lexicon matchers) :
      Step s ⟨s.draft.modifyBehaviour n fun b => { b with fallback := .reroute target }, s.place,
        s.owing⟩
  | classify {o : Origin} {f : Fallback} (ho : o = .identifier ∨ o = .number)
      (hn : o.node < s.draft.trie.size) (hf : ∃ test hit, f = .classify test hit .unknown) :
      Step s ⟨s.draft.modifyBehaviour o.node fun b => { b with fallback := f }, s.place,
        fun k u => s.owing k u ∨ k = o.node⟩
  | take {n : NodeId} {role : Role} {f : Behaviour → Behaviour} {owing' : NodeId → String → Prop}
      {ws : Array Warning} (hn : n < s.draft.trie.size)
      (h : s.Takes lexicon matchers n role f owing') :
      Step s ⟨({ s.draft.recordClaim n role with warnings := ws } : Draft).modifyBehaviour n f,
        s.place, owing'⟩
  | clear {n : NodeId} {role : Role} {f : Behaviour → Behaviour} {d' : Draft}
      (hn : n < s.draft.trie.size) (hP : Draft.Prunes n (s.draft.recordClaim n role) d')
      (h : s.Clears lexicon matchers n role f) : Step s ⟨d'.modifyBehaviour n f, s.place, s.owing⟩
  /-- A node is already taken for a role that does not give way. -/
  | decline {j n : NodeId} {label : Label} {t : String} {role : Role}
      (ho : s.draft.IsOpenEnded j) (hj : (s.place j).Bears lexicon matchers label)
      (ht : t ∈ lexicon.terminators) (hp : s.draft.trie.follow? j (spelling t.toList) = some n)
      (hn : s.place n = (s.place j).walk (spelling t.toList))
      (hclaim : s.draft.claim? n = some role) (hrole : role.isWeak = false) :
      Step s ⟨s.draft, s.place, fun k u => s.owing k u ∧ ¬(k = j ∧ u = t)⟩
  | waive {owing' : NodeId → String → Prop}
      (h : ∀ k, ∀ u ∈ lexicon.terminators, s.owing k u → owing' k u) :
      Step s ⟨s.draft, s.place, owing'⟩

end Survey

/-- Several steps of building. -/
abbrev Builds (lexicon : Lexicon) (matchers : List (GreedyMatcher Compilation)) :
    Survey → Survey → Prop :=
  Relation.ReflTransGen (Survey.Step lexicon matchers)

namespace Draft

open Assembly (yields_bind yields_pure yields_get yields_modify yields_modifyGet
  yields_pureExcept)

variable {lexicon : Lexicon} {matchers : List (GreedyMatcher Compilation)}
  {pointed : Prop} {marked : String → Prop} {loose : NodeId → Prop} {d d' d₁ d₂ : Draft}
  {place place' : NodeId → Locus} {owing owing₁ owing' : NodeId → String → Prop} {n k : NodeId}
  {steps : List Trie.Step} {literal : String} {label : Label}

/-- Steps of building leave a charted draft behind and keep what was there. -/
def BuildsTo (lexicon : Lexicon) (matchers : List (GreedyMatcher Compilation))
    (pointed : Prop) (marked : String → Prop) (loose : NodeId → Prop) (d : Draft)
    (place : NodeId → Locus) (owing owing' : NodeId → String → Prop) (d' : Draft) : Prop :=
  ∃ place', Charted lexicon matchers pointed marked loose d' place' ∧
    d.Grows place d' place' ∧ Builds lexicon matchers ⟨d, place, owing⟩ ⟨d', place', owing'⟩

theorem BuildsTo.weaken (h : BuildsTo lexicon matchers pointed marked loose d place owing owing₁ d')
    {loose' : NodeId → Prop} (hl : ∀ k, loose k → loose' k)
    (ho : ∀ k, ∀ u ∈ lexicon.terminators, owing₁ k u → owing' k u) :
    BuildsTo lexicon matchers pointed marked loose' d place owing owing' d' := by
  obtain ⟨place', h', hg, hb⟩ := h
  exact ⟨place', h'.loosen hl, hg, hb.tail (.waive ho)⟩

theorem BuildsTo.after {place₁ : NodeId → Locus}
    (h : BuildsTo lexicon matchers pointed marked loose d₁ place₁ owing₁ owing' d')
    (hg : d.Grows place d₁ place₁)
    (hb : Builds lexicon matchers ⟨d, place, owing⟩ ⟨d₁, place₁, owing₁⟩) :
    BuildsTo lexicon matchers pointed marked loose d place owing owing' d' := by
  obtain ⟨place', h', hg', hb'⟩ := h
  exact ⟨place', h', hg.trans hg', hb.trans hb'⟩

/-- A loop whose rounds give behaviours to some nodes and pay some ends each. -/
theorem Charted.forM_builds {β : Type} {f : β → Assembly PUnit} {xs : List β}
    (h : Charted lexicon matchers pointed marked loose d place) (gone : β → NodeId → Prop)
    (pays : β → NodeId → String → Prop)
    (hf : ∀ x ∈ xs, ∀ (owing : NodeId → String → Prop) {loose : NodeId → Prop} {d₁ d₂ : Draft}
      {place₁ : NodeId → Locus},
      Charted lexicon matchers pointed marked loose d₁ place₁ → d.Grows place d₁ place₁ →
      (f x).Yields d₁ ⟨⟩ d₂ →
      BuildsTo lexicon matchers pointed marked (fun k => loose k ∧ ¬gone x k) d₁ place₁
        owing (fun k u => owing k u ∧ ¬pays x k u) d₂)
    (hy : (xs.forM f).Yields d ⟨⟩ d') :
    BuildsTo lexicon matchers pointed marked (fun k => loose k ∧ ∀ x ∈ xs, ¬gone x k)
      d place owing (fun k u => owing k u ∧ ∀ x ∈ xs, ¬pays x k u) d' := by
  induction xs generalizing d place loose owing with
  | nil =>
    obtain ⟨-, rfl⟩ := yields_pure.1 hy
    exact ⟨place, h.loosen fun k hk => ⟨hk, nofun⟩, .refl d place,
      .single (.waive fun k u _ hk => ⟨hk, nofun⟩)⟩
  | cons x xs ih =>
    obtain ⟨⟨⟩, d₁, hx, hxs⟩ := yields_bind.1 hy
    obtain ⟨place₁, h₁, hg₁, hb₁⟩ := hf x List.mem_cons_self owing h (.refl d place) hx
    refine ((ih h₁
      (fun y hy' owing _ _ _ _ h' hg' => hf y (List.mem_cons_of_mem _ hy') owing h' (hg₁.trans hg'))
      hxs).after hg₁ hb₁).weaken (fun k hk => ⟨hk.1.1, ?_⟩) fun k u _ hk => ⟨hk.1.1, ?_⟩
    · exact List.forall_mem_cons.2 ⟨hk.1.2, hk.2⟩
    · exact List.forall_mem_cons.2 ⟨hk.1.2, hk.2⟩

/-! ### Spelling literals -/

/-- Nodes are added. -/
theorem Charted.grow_builds (h' : Charted lexicon matchers pointed marked loose d' place')
    (owing : NodeId → String → Prop) (hg : d.Grows place d' place')
    (hsite : ∀ k, (d'.site k).claim = (d.site k).claim ∧
      (d'.site k).behaviour.action = (d.site k).behaviour.action ∧
      (d'.site k).behaviour.fallback = (d.site k).behaviour.fallback) :
    Builds lexicon matchers ⟨d, place, owing⟩ ⟨d', place', owing⟩ :=
  .single (.grow hg h'.child hsite)

/-- The nodes along a literal. -/
theorem Charted.path_builds (h : Charted lexicon matchers pointed marked loose d place)
    (owing : NodeId → String → Prop) (hn : n < d.trie.size)
    (hy : (Assembly.path n literal.toList).Yields d steps d') :
    ∃ place', Charted lexicon matchers pointed marked (fun k => loose k ∨ New steps k) d' place' ∧
      d.Grows place d' place' ∧ Builds lexicon matchers ⟨d, place, owing⟩ ⟨d', place', owing⟩ ∧
      d'.trie.Trail n (spelling literal.toList) steps := by
  obtain ⟨place', h', hg, htrail⟩ := h.path hn hy
  refine ⟨place', h', hg, h'.grow_builds owing hg fun k => ?_, htrail⟩
  rw [site_of_path hy]
  exact ⟨rfl, rfl, rfl⟩

/-- New nodes before the last one send symbols without a child elsewhere. -/
theorem Charted.rerouteCreated_builds
    (h : Charted lexicon matchers pointed marked loose d place) (owing : NodeId → String → Prop)
    {target : NodeId} (hsteps : ∀ step ∈ steps, step.node < d.trie.size ∧
      (Fallback.reroute target).Fits place (place step.node) ∧
      (place step.node).Passes lexicon matchers)
    (hy : (Lexicon.rerouteCreated steps target).Yields d ⟨⟩ d') :
    BuildsTo lexicon matchers pointed marked (fun k => loose k ∧ ¬New steps.dropLast k)
      d place owing owing d' := by
  refine (h.forM_builds (fun step k => step.created = true ∧ step.node = k) (fun _ _ _ => False)
    (fun step hstep => ?_) hy).weaken
      (fun k hk => ⟨hk.1, fun ⟨step, hstep, hnew⟩ => hk.2 step hstep hnew⟩) fun k u _ hk => hk.1
  obtain ⟨hsize, hfit, hpass⟩ := hsteps step (List.dropLast_subset _ hstep)
  intro owing₁ loose₁ d₁ d₂ place₁ h₁ hg₁ hy₁
  split at hy₁
  · obtain rfl := yields_modify.1 hy₁
    have hfit₁ := hg₁.fits h hfit
    rw [← hg₁.place hsize] at hfit₁ hpass
    have hsize₁ := Nat.lt_of_lt_of_le hsize hg₁.size
    have h₂ := h₁.reroute hsize₁ (f := .reroute target) nofun hfit₁
    refine BuildsTo.weaken ⟨place₁, h₂, (Grows.refl d₁ place₁).modifyBehaviour _,
      .single (.through hsize₁ hpass)⟩ (fun k hk => ⟨hk.1, fun hnew => hk.2 hnew.2.symm⟩)
      fun k u _ hk => ⟨hk, id⟩
  · next hcreated =>
    obtain ⟨-, rfl⟩ := yields_pure.1 hy₁
    exact BuildsTo.weaken ⟨place₁, h₁, .refl d₁ place₁, .refl⟩
      (fun k hk => ⟨hk, fun hnew => hcreated hnew.1⟩) fun k u _ hk => ⟨hk, id⟩

theorem site_modifyBehaviour (f : Behaviour → Behaviour) (hk : k ≠ n) :
    (d.modifyBehaviour n f).site k = d.site k := by
  rw [site, modifyBehaviour, Trie.content_modifyContent, if_neg fun h => hk h.1.symm]
  rfl

/-- Nodes that are not on the way stay as they are. -/
theorem site_rerouteCreated {target : NodeId} (hk : ∀ step ∈ steps, step.node ≠ k)
    (hy : (Lexicon.rerouteCreated steps target).Yields d ⟨⟩ d') : d'.site k = d.site k := by
  refine (hy.forM (fun left d₁ => (∀ step ∈ left, step.node ≠ k) ∧ d₁.site k = d.site k) ?_
    ⟨fun step hstep => hk step (List.dropLast_subset _ hstep), rfl⟩).2
  rintro step left d₁ d₂ ⟨hleft, hsite⟩ hy₁
  refine ⟨fun s hs => hleft s (List.mem_cons_of_mem _ hs), ?_⟩
  split at hy₁
  · obtain rfl := yields_modify.1 hy₁
    rw [site_modifyBehaviour _ (hleft step List.mem_cons_self).symm, hsite]
  · obtain ⟨-, rfl⟩ := yields_pure.1 hy₁
    exact hsite

/-- A literal is spelled; only its last node may be left loose. -/
theorem Charted.spell_builds (h : Charted lexicon matchers pointed marked loose d place)
    (owing : NodeId → String → Prop) (hn : n < d.trie.size) {target : NodeId}
    (hfit : ∀ path s, (Fallback.reroute target).Fits place (((place n).walk path).down s))
    (hpass : ∀ path s, path ++ [s] <+: spelling literal.toList →
      (((place n).walk path).down s).Passes lexicon matchers)
    (hpath : (Assembly.path n literal.toList).Yields d steps d₁)
    (hy : (Lexicon.rerouteCreated steps target).Yields d₁ ⟨⟩ d') :
    ∃ last place', steps.getLast? = some last ∧
      Charted lexicon matchers pointed marked (fun k => loose k ∨ k = last.node) d' place' ∧
      d.Grows place d' place' ∧ Builds lexicon matchers ⟨d, place, owing⟩ ⟨d', place', owing⟩ ∧
      last.node < d'.trie.size ∧ place' last.node = (place n).walk (spelling literal.toList) ∧
      d'.trie.follow? n (spelling literal.toList) = some last.node ∧ d'.site n = d.site n := by
  obtain ⟨place₁, h₁, hg₁, hb₁, htrail⟩ := h.path_builds owing hn hpath
  have hn₁ := Nat.lt_of_lt_of_le hn hg₁.size
  obtain ⟨place₂, h₂, hg₂, hb₂⟩ := h₁.rerouteCreated_builds owing (fun step hstep => by
    obtain ⟨hsize, path, s, hprefix, hp⟩ := h₁.trail htrail hstep
    rw [hp, hg₁.place hn]
    exact ⟨hsize, hg₁.fits h (hfit path s), hpass path s hprefix⟩) hy
  obtain ⟨last, hlast, hfollow⟩ := htrail.getLast? (spelling_ne_nil _)
  have hfollow₂ := hg₂.follow? hfollow
  obtain ⟨hsize, hp⟩ := h₂.follow? hfollow₂ (Nat.lt_of_lt_of_le hn₁ hg₂.size)
  rw [hg₂.place hn₁, hg₁.place hn] at hp
  refine ⟨last, place₂, hlast, h₂.loosen fun k hk => hk.1.imp_right fun hnew => ?_,
    hg₁.trans hg₂, hb₁.trans hb₂, hsize, hp, hfollow₂, ?_⟩
  · exact eq_of_new hlast hnew hk.2
  · refine (site_rerouteCreated (fun step hstep heq => ?_) hy).trans (site_of_path hpath n)
    obtain ⟨-, path, s, -, hstep⟩ := h₁.trail htrail hstep
    rw [heq] at hstep
    have hne : path ++ [s] ≠ [] := by simp
    exact (place₁ n).walk_ne hne ((Locus.walk_append ..).trans hstep.symm)

/-! ### Open-ended tokens -/

/-- The end of an open-ended token. -/
theorem Charted.endBefore_builds (h : Charted lexicon matchers pointed marked loose d place)
    (hn : n < d.trie.size) (ho : d.IsOpenEnded n) (hbears : (place n).Bears lexicon matchers label)
    {weak : Bool} {terminator : String} (ht : terminator ∈ lexicon.terminators)
    (hweak : weak = true ∨ ¬∃ t, marked t) (hpoint : pointed → (place n).origin ≠ .number)
    (hy : (lexicon.endBefore n label weak terminator).Yields d ⟨⟩ d') :
    BuildsTo lexicon matchers pointed marked loose d place owing
      (fun k u => owing k u ∧ ¬(k = n ∧ u = terminator)) d' ∧ d'.IsOpenEnded n := by
  obtain ⟨steps, d₁, hpath, hy₁⟩ := yields_bind.1 hy
  obtain ⟨⟨⟩, d₂, hre, hy₂⟩ := yields_bind.1 hy₁
  obtain ⟨last, place₂, hlast, h₂, hg₂, hb₂, hsize, hp, hfollow, hsite⟩ := h.spell_builds owing hn
    (fun path s => .unknown (Locus.isFree_down (Locus.walk_not_isBody hbears.not_isBody path) s))
    (fun path s hprefix => .ends hbears ht hprefix rfl) hpath hre
  have hbears₂ : (place₂ n).Bears lexicon matchers label := (hg₂.place hn).symm ▸ hbears
  have hp₂ := hp
  rw [← hg₂.place hn] at hp₂
  have ho₂ : d₂.IsOpenEnded n := by rwa [IsOpenEnded, hsite]
  have hne : n ≠ last.node := fun heq =>
    (place₂ n).walk_ne (spelling_ne_nil terminator.toList) (by rw [← hp₂, ← heq])
  rw [hlast] at hy₂
  obtain ⟨ok, d₃, hclaim, hy₃⟩ := yields_bind.1 hy₂
  cases ok with
  | false =>
    obtain ⟨-, rfl⟩ := yields_pure.1 hy₃
    have h₃ := h₂.decline hclaim
    rcases hclaim.claim with ⟨⟨⟩, -⟩ | ⟨-, rfl, -, role, hrole, hstrong⟩
    exact ⟨⟨place₂, h₃.loosen fun k hk => hk.1.resolve_right hk.2, hg₂,
      hb₂.tail (.decline ho₂ hbears₂ ht hfollow hp₂ hrole hstrong)⟩, ho₂⟩
  | true =>
    obtain rfl := yields_modify.1 hy₃
    have hrole : Role.isWeak (if weak then .weakBoundary label else .boundary label) ∨
        ¬∃ t, marked t := hweak.imp_left fun hw => by rw [hw]; rfl
    have h₃ := h₂.assign hclaim (.refl _ d₃) hsize
      (hp ▸ Locus.walk_ne_number _ (spelling_ne_nil _))
      (fun b =>
        { b with action := .boundary label (byteLength terminator.toList), fallback := .stay })
      (fun _ => rfl) .stay (.boundary ht hbears.not_isBody hp label)
      (by cases weak <;> exact ⟨_, rfl⟩) (.inr hrole) fun hpointed heq => by
        rw [Locus.walk_of_origin_ne (hpoint hpointed), heq, h₂.place_float] at hp
        exact absurd (Locus.mk.inj hp).2.symm (by simp [spelling_ne_nil])
    have hg₃ := (hg₂.trans (.claim hclaim)).modifyBehaviour (n := last.node)
      fun b =>
        { b with action := .boundary label (byteLength terminator.toList), fallback := .stay }
    rcases hclaim.claim with ⟨-, ⟨ws, rfl⟩, -⟩ | ⟨⟨⟩, -⟩
    refine ⟨⟨place₂, h₃.loosen fun k hk => hk.1.resolve_right hk.2, hg₃,
      hb₂.tail (.take hsize (.boundary ho₂ hbears₂ ht hfollow hp₂))⟩, ?_⟩
    rw [IsOpenEnded, site_modifyBehaviour _ hne]
    change n = .unknown ∨ n = .identifier ∨ n = .number ∨ n = .float ∨
      ((d₂.recordClaim last.node _).site n).behaviour.fallback = _
    rwa [behaviour_recordClaim]

theorem Charted.endBeforeTerminators_builds
    (h : Charted lexicon matchers pointed marked loose d place) (owing : NodeId → String → Prop)
    (hn : n < d.trie.size) (ho : d.IsOpenEnded n) (hbears : (place n).Bears lexicon matchers label)
    {weak : Bool} (hweak : weak = true ∨ ¬∃ t, marked t)
    (hpoint : pointed → (place n).origin ≠ .number)
    (hy : (lexicon.endBeforeTerminators n label weak).Yields d ⟨⟩ d') :
    BuildsTo lexicon matchers pointed marked loose d place
      (fun k u => owing k u ∨ k = n) owing d' := by
  suffices hloop : (∀ t ∈ ([] : List String), t ∈ lexicon.terminators) ∧ d'.IsOpenEnded n ∧
      BuildsTo lexicon matchers pointed marked loose d place (fun k u => owing k u ∨ k = n)
        (fun k u => owing k u ∨ k = n ∧ u ∈ ([] : List String)) d' from
    hloop.2.2.weaken (fun _ => id) fun k u _ hk => hk.resolve_right nofun
  -- What is left to do in the loop is what is left to pay.
  refine hy.forM (fun left d₁ => (∀ t ∈ left, t ∈ lexicon.terminators) ∧ d₁.IsOpenEnded n ∧
    BuildsTo lexicon matchers pointed marked loose d place (fun k u => owing k u ∨ k = n)
      (fun k u => owing k u ∨ k = n ∧ u ∈ left) d₁) ?_
    ⟨fun _ => id, ho, place, h, .refl d place,
      .single (.waive fun k u hu hk => hk.imp_right fun hkn => ⟨hkn, hu⟩)⟩
  rintro t left d₁ d₂ ⟨hleft, ho₁, place₁, h₁, hg₁, hb₁⟩ hy₁
  have hp := hg₁.place hn
  obtain ⟨hbuilt, ho₂⟩ := h₁.endBefore_builds (Nat.lt_of_lt_of_le hn hg₁.size) ho₁ (hp ▸ hbears)
    (hleft t List.mem_cons_self) hweak (hp ▸ hpoint) hy₁
  refine ⟨fun u hu => hleft u (List.mem_cons_of_mem _ hu), ho₂, (hbuilt.after hg₁ hb₁).weaken
    (fun _ => id) fun k u _ hk => hk.1.imp_right fun hkn => ⟨hkn.1, ?_⟩⟩
  exact (List.mem_cons.1 hkn.2).resolve_left fun hut => hk.2 ⟨hkn.1, hut⟩

/-! ### Words -/

/-- A node that claims go out to and that then ends open-ended tokens. -/
theorem Charted.openEnded_builds (h : Charted lexicon matchers pointed marked loose d place)
    (hn : n < d.trie.size) (hbears : (place n).Bears lexicon matchers label)
    (hroot : (place n).origin = .root) (hp : d.trie.follow? .root (place n).path = some n)
    {policy : ConflictPolicy} {role : Role}
    (hrole : role = .identifierPrefix ∨ role = .keyword label)
    {ok : Bool} (hclaim : (Assembly.claim policy n literal role).Yields d ok d₁)
    {weak : Bool} (hweak : weak = true ∨ ¬∃ t, marked t) (hstrong : role.isWeak ∨ ¬∃ t, marked t)
    (hy : (if ok = true then do
        Assembly.modifyBehaviour n fun b =>
          { b with action := .none, fallback := Lexicon.identifierFallback }
        lexicon.endBeforeTerminators n label weak
      else pure PUnit.unit : Assembly PUnit).Yields d₁ ⟨⟩ d') :
    BuildsTo lexicon matchers pointed marked (fun k => loose k ∧ k ≠ n) d place owing owing d' := by
  have hacts (b : Behaviour) :
      role.Acts { b with action := .none, fallback := Lexicon.identifierFallback } := by
    rcases hrole with rfl | rfl <;> exact ⟨rfl, nofun⟩
  cases ok with
  | false =>
    obtain ⟨-, rfl⟩ := yields_pure.1 hy
    have h₁ := h.decline hclaim
    rcases hclaim.claim with ⟨⟨⟩, -⟩ | ⟨-, rfl, -⟩
    exact ⟨place, h₁, .refl d₁ place, .refl⟩
  | true =>
    obtain ⟨⟨⟩, d₂, hmod, hy₂⟩ := yields_bind.1 hy
    obtain rfl := yields_modify.1 hmod
    have h₂ := h.assignWord hn hroot hclaim hstrong hacts
    have hg₂ : d.Grows place _ place := (Grows.claim hclaim).modifyBehaviour (n := n) fun b =>
      { b with action := .none, fallback := Lexicon.identifierFallback }
    have hn₂ := Nat.lt_of_lt_of_eq hn (size_of_claim hclaim).symm
    have hbuilt := h₂.endBeforeTerminators_builds owing (Nat.lt_of_lt_of_le hn hg₂.size)
      (.inr (.inr (.inr (.inr (by rw [behaviour_modifyBehaviour hn₂, if_pos rfl]))))) hbears hweak
      (fun _ => by rw [hroot]; exact nofun) hy₂
    rcases hclaim.claim with ⟨-, ⟨ws, rfl⟩, -⟩ | ⟨⟨⟩, -⟩
    exact hbuilt.after hg₂ (.single (.take hn (.word hrole hbears hroot hp)))

/-- A proper beginning of a word. -/
theorem Charted.buildPrefix_builds (h : Charted lexicon matchers pointed marked loose d place)
    (hn : n < d.trie.size) (hroot : (place n).origin = .root)
    (hbears : (place n).Bears lexicon matchers lexicon.labels.identifier)
    (hp : d.trie.follow? .root (place n).path = some n) {text : String}
    (hy : (lexicon.buildPrefix n text).Yields d ⟨⟩ d') :
    BuildsTo lexicon matchers pointed marked (fun k => loose k ∧ k ≠ n) d place owing owing d' := by
  obtain ⟨_, _, hget, hy₁⟩ := yields_bind.1 hy
  obtain ⟨rfl, rfl⟩ := yields_get.1 hget
  split at hy₁
  · next hclaim =>
    obtain ⟨-, rfl⟩ := yields_pure.1 hy₁
    exact ⟨place, h.tighten hclaim, .refl d place, .refl⟩
  · obtain ⟨ok, d₂, hclaim, hy₂⟩ := yields_bind.1 hy₁
    exact h.openEnded_builds hn hbears hroot hp (.inl rfl) hclaim (.inl rfl) (.inl rfl) hy₂

end Draft

namespace Draft

open Assembly (yields_bind yields_pure yields_get yields_modify yields_modifyGet
  yields_pureExcept)

variable {lexicon : Lexicon} {matchers : List (GreedyMatcher Compilation)}
  {pointed : Prop} {marked : String → Prop} {loose : NodeId → Prop} {d d' d₁ d₂ : Draft}
  {place place' : NodeId → Locus} {owing owing₁ owing' : NodeId → String → Prop} {n k : NodeId}
  {steps : List Trie.Step} {literal : String} {label : Label}

/-- A node before the last one on the way to a literal spells a beginning of it. -/
theorem Charted.properPrefix (h : Charted lexicon matchers pointed marked loose d place)
    (ht : d.trie.Trail .root (spelling literal.toList) steps) {step : Trie.Step} {text : String}
    (hx : (step, text) ∈ Lexicon.properPrefixes literal steps) :
    text.toList ≠ [] ∧ text.toList <+: literal.toList ∧ step.node < d.trie.size ∧
      place step.node = ⟨.root, text.toList.map .char⟩ ∧
      d.trie.follow? .root (text.toList.map .char) = some step.node := by
  obtain ⟨⟨step', i⟩, hi, heq⟩ := List.mem_map.1 hx
  cases heq
  rw [List.mem_zipIdx_iff_getElem?, List.getElem?_dropLast] at hi
  split at hi
  case isFalse => cases hi
  next hlt =>
  rw [ht.length_eq] at hlt
  have hfollow := ht.follow?_take hi
  cases hlist : literal.toList with
  | nil =>
    rw [hlist] at hlt
    exact absurd hlt (by simp [spelling])
  | cons c cs =>
    have hspell : spelling (c :: cs) = (c :: cs).map .char := by rw [spelling, if_neg (by simp)]
    rw [hlist, hspell, ← List.map_take] at hfollow
    obtain ⟨hsize, hp⟩ := h.follow? hfollow h.root_lt_size
    rw [h.place_root, Locus.walk_of_origin_ne (by simp), List.nil_append] at hp
    rw [String.toList_ofList]
    exact ⟨by simp, List.take_prefix .., hsize, hp, hfollow⟩

/-- A keyword, or an opener that stands alone. -/
theorem Charted.buildKeyword_builds (h : Charted lexicon matchers pointed marked loose d place)
    (owing : NodeId → String → Prop) (hmarked : ¬∃ t, marked t)
    (hword : lexicon.Words matchers label literal)
    (hy : (lexicon.buildKeyword label literal).Yields d ⟨⟩ d') :
    BuildsTo lexicon matchers pointed marked loose d place owing owing d' := by
  obtain ⟨steps, d₁, hpath, hy₁⟩ := yields_bind.1 hy
  obtain ⟨⟨⟩, d₂, hloop, hy₂⟩ := yields_bind.1 hy₁
  obtain ⟨place₁, h₁, hg₁, hb₁, htrail⟩ := h.path_builds owing h.root_lt_size hpath
  have hprefixes : BuildsTo lexicon matchers pointed marked _ d₁ place₁ owing owing d₂ :=
    (h₁.forM_builds (fun x k => k = x.1.node) (fun _ _ _ => False) (fun x hx => by
      obtain ⟨hne, hprefix, hsize, hp, hfollow⟩ := h₁.properPrefix htrail hx
      intro owing₁ loose₁ d₂ d₃ place₂ h₂ hg₂ hy₂
      rw [← hg₂.place hsize] at hp
      refine BuildsTo.weaken (h₂.buildPrefix_builds (Nat.lt_of_lt_of_le hsize hg₂.size) (by rw [hp])
        ?_ ?_ hy₂) (fun _ => id) fun k u _ hk => ⟨hk, id⟩
      · rw [hp]
        exact .beginning hne (.inr ⟨_, _, hword, hprefix⟩)
      · rw [hp]
        exact hg₂.follow? hfollow) hloop).weaken (fun _ => id) fun k u _ hk => hk.1
  obtain ⟨place₂, h₂, hg₂, hb₂⟩ := hprefixes
  obtain ⟨last, hlast, hfollow⟩ := htrail.getLast? (spelling_ne_nil _)
  have hfollow₂ := hg₂.follow? hfollow
  obtain ⟨hsize, hp⟩ := h₂.follow? hfollow₂ h₂.root_lt_size
  rw [h₂.place_root, Locus.walk_of_origin_ne (by simp), List.nil_append] at hp
  rw [hlast] at hy₂
  obtain ⟨ok, d₃, hclaim, hy₃⟩ := yields_bind.1 hy₂
  have hlastly := (h₂.openEnded_builds hsize (by rw [hp]; exact .word hword) (by rw [hp])
    (by rw [hp]; exact hfollow₂) (.inr rfl) hclaim (.inr hmarked) (.inr hmarked) hy₃).after hg₂ hb₂
  refine (hlastly.after hg₁ hb₁).weaken (fun k hk => ?_) fun k u _ hk => hk
  obtain ⟨⟨hl | hnew, hgone⟩, hk⟩ := hk
  · exact hl
  · refine absurd (eq_of_new hlast hnew fun hdrop => ?_) hk
    obtain ⟨step, hstep, -, rfl⟩ := hdrop
    obtain ⟨text, htext⟩ := exists_mem_properPrefixes hstep
    exact hgone _ htext rfl

/-- A literal is spelled from the root; only its last node may be left loose. -/
theorem Charted.rootPath_builds (h : Charted lexicon matchers pointed marked loose d place)
    (owing : NodeId → String → Prop) (hl : lexicon.Signs matchers literal)
    (hy : (lexicon.rootPath literal).Yields d n d') :
    ∃ place', Charted lexicon matchers pointed marked (fun k => loose k ∨ k = n) d' place' ∧
      Builds lexicon matchers ⟨d, place, owing⟩ ⟨d', place', owing⟩ ∧ n < d'.trie.size ∧
      place' n = ⟨.root, spelling literal.toList⟩ ∧
      d'.trie.follow? .root (spelling literal.toList) = some n := by
  obtain ⟨steps, d₁, hpath, hy₁⟩ := yields_bind.1 hy
  obtain ⟨⟨⟩, d₂, hloop, hy₂⟩ := yields_bind.1 hy₁
  obtain ⟨rfl, rfl⟩ := yields_pure.1 hy₂
  obtain ⟨place₁, h₁, hg₁, hb₁, htrail⟩ := h.path_builds owing h.root_lt_size hpath
  have hprefixes : BuildsTo lexicon matchers pointed marked _ d₁ place₁ owing owing d₂ :=
    (h₁.forM_builds (fun x k => x.1.created = true ∧ k = x.1.node) (fun _ _ _ => False)
      (fun x hx => by
      obtain ⟨step, text⟩ := x
      obtain ⟨hne, hprefix, hsize, hp, hfollow⟩ := h₁.properPrefix htrail hx
      intro owing₁ loose₁ d₂ d₃ place₂ h₂ hg₂ hy₂
      dsimp only at hy₂
      rw [← hg₂.place hsize] at hp
      replace hsize := Nat.lt_of_lt_of_le hsize hg₂.size
      split at hy₂
      · next hcreated =>
        obtain ⟨-, rfl⟩ := yields_pure.1 hy₂
        exact BuildsTo.weaken ⟨place₂, h₂, .refl d₂ place₂, .refl⟩
          (fun k hk => ⟨hk, fun hgone => absurd hgone.1 (by simpa using hcreated)⟩)
          fun k u _ hk => ⟨hk, id⟩
      · split at hy₂
        · next hshape =>
          refine BuildsTo.weaken (h₂.buildPrefix_builds hsize (by rw [hp]) ?_ ?_ hy₂)
            (fun k hk => ⟨hk.1, fun hgone => hk.2 hgone.2⟩) fun k u _ hk => ⟨hk, id⟩
          · rw [hp]
            exact .beginning hne (.inl hshape)
          · rw [hp]
            exact hg₂.follow? hfollow
        · next hshape =>
          obtain rfl := yields_modify.1 hy₂
          have hroot : (place₂ step.node).origin = .root := by rw [hp]
          have h₃ := h₂.reroute hsize (f := .reroute .unknown) nofun
            (.unknown (Locus.isFree_of_root hroot))
          exact BuildsTo.weaken ⟨place₂, h₃, (Grows.refl d₂ place₂).modifyBehaviour _,
            .single (.through hsize (.sign hl hprefix (Bool.eq_false_iff.2 hshape) hp))⟩
            (fun k hk => ⟨hk.1, fun hgone => hk.2 hgone.2⟩) fun k u _ hk => ⟨hk, id⟩) hloop).weaken
        (fun _ => id) fun k u _ hk => hk.1
  obtain ⟨place₂, h₂, hg₂, hb₂⟩ := hprefixes
  obtain ⟨last, hlast, hfollow⟩ := htrail.getLast? (spelling_ne_nil _)
  have hfollow₂ := hg₂.follow? hfollow
  obtain ⟨hsize, hp⟩ := h₂.follow? hfollow₂ h₂.root_lt_size
  rw [h₂.place_root, Locus.walk_of_origin_ne (by simp)] at hp
  rw [hlast]
  refine ⟨place₂, h₂.loosen fun k hk => hk.1.imp_right fun hnew => ?_, hb₁.trans hb₂, hsize, hp,
    hfollow₂⟩
  refine eq_of_new hlast hnew fun hdrop => ?_
  obtain ⟨step, hstep, hcreated, rfl⟩ := hdrop
  obtain ⟨text, htext⟩ := exists_mem_properPrefixes hstep
  exact hk.2 _ htext ⟨hcreated, rfl⟩

/-! ### Greedy runs -/

/-- A greedy run ends at one of its ends. -/
theorem Charted.endRun_builds (h : Charted lexicon matchers pointed marked loose d place)
    (owing : NodeId → String → Prop) (hmarked : ¬∃ t, marked t) {close : Close}
    {m : GreedyMatcher Compilation} (ht : m.terminator ≠ none) {nested : Option RunId}
    {terminator : String} (hb : place close.body = ⟨.body close.body m nested, []⟩)
    (hends : close.Ends lexicon.labels close.body m nested terminator)
    (hy : (lexicon.endRun terminator close).Yields d ⟨⟩ d') :
    BuildsTo lexicon matchers pointed marked loose d place owing owing d' := by
  have hn : close.body < d.trie.size := h.lt_size_of_isBody (hb ▸ ⟨_, _, _, rfl⟩)
  have hwalk (path : List Symbol) :
      (place close.body).walk path = ⟨.body close.body m nested, path⟩ := by
    rw [hb, Locus.walk_of_origin_ne (by simp)]
    rfl
  have hdown (path : List Symbol) (s : Symbol) : ((place close.body).walk path).down s =
      ⟨.body close.body m nested, path ++ [s]⟩ := by
    rw [hwalk, Locus.down_of_origin_ne (by simp)]
  obtain ⟨steps, d₁, hpath, hy₁⟩ := yields_bind.1 hy
  obtain ⟨⟨⟩, d₂, hre, hy₂⟩ := yields_bind.1 hy₁
  obtain ⟨last, place₂, hlast, h₂, hg₂, hb₂, hsize, hp, -, -⟩ := h.spell_builds owing hn
    (fun path s => by rw [hdown]; exact .back hb rfl (by simp))
    (fun path s _ => by rw [hdown]; exact .run ⟨_, _, _, rfl⟩) hpath hre
  rw [hwalk] at hp
  rw [hlast] at hy₂
  obtain ⟨ok, d₃, hclaim, hy₃⟩ := yields_bind.1 hy₂
  cases ok with
  | false => cases isWeak_of_yields hclaim
  | true =>
    obtain rfl := yields_modify.1 hy₃
    have h₃ := h₂.assign hclaim (.refl _ d₃) hsize (by rw [hp]; simp)
      (fun b => { b with fallback := .stay, action := .close close })
      (fun _ => rfl) .stay (.close hp hends) ⟨close, rfl, rfl⟩
      (.inr (.inr hmarked)) fun _ heq => by
        rw [heq, h₂.place_float] at hp
        cases hp
    have hg₃ := (hg₂.trans (.claim hclaim)).modifyBehaviour (n := last.node)
      fun b => { b with fallback := .stay, action := .close close }
    rcases hclaim.claim with ⟨-, ⟨ws, rfl⟩, -⟩ | ⟨⟨⟩, -⟩
    exact ⟨place₂, h₃.loosen fun k hk => hk.1.resolve_right hk.2, hg₃,
      hb₂.tail (.take hsize (.close ht hp))⟩

/-- Warnings are no paths. -/
theorem Prunes.of_claim {policy : ConflictPolicy} {role : Role}
    (hy : (Assembly.claim policy n literal role).Yields d true d₁) (hp : Prunes n d₁ d₂) :
    Prunes n (d.recordClaim n role) d₂ := by
  rcases hy.claim with ⟨-, ⟨ws, rfl⟩, -⟩ | ⟨⟨⟩, -⟩
  have hwarn : Prunes n (d.recordClaim n role) { d.recordClaim n role with warnings := ws } :=
    ⟨rfl, rfl, rfl, id, fun _ => rfl, id, fun _ => rfl, fun _ => .inl rfl, fun h _ _ => h⟩
  exact hwarn.trans hp

/-- A greedy run with a terminator. -/
theorem Charted.buildRun_builds (h : Charted lexicon matchers pointed marked loose d place)
    (owing : NodeId → String → Prop) (hmarked : ¬∃ t, marked t) {m : GreedyMatcher Compilation}
    (hm : m ∈ matchers) {terminator : String} (ht : m.terminator = some terminator)
    (hy : (lexicon.buildRun m terminator).Yields d ⟨⟩ d') :
    ∃ place', Charted lexicon matchers pointed marked loose d' place' ∧
      Builds lexicon matchers ⟨d, place, owing⟩ ⟨d', place', owing⟩ := by
  have hterminated : m.terminator ≠ none := by simp [ht]
  obtain ⟨opener, d₁, hopener, hy⟩ := yields_bind.1 hy
  obtain ⟨body, d₂, hbody, hy⟩ := yields_bind.1 hy
  obtain ⟨escape, d₃, hescape, hy⟩ := yields_bind.1 hy
  obtain ⟨nested, d₄, hnested, hy⟩ := yields_bind.1 hy
  obtain ⟨⟨⟩, d₅, hrun, hy⟩ := yields_bind.1 hy
  obtain ⟨place₁, h₁, hbuilt₁, hsize₁, hp₁, -⟩ :=
    h.rootPath_builds owing (.opener hm hterminated) hopener
  cases yields_modifyGet.1 hbody
  obtain ⟨hchar, rfl⟩ := yields_pureExcept.1 hescape
  obtain ⟨more, ws, rfl, hnests, hmore⟩ := nests_of_yields ht hnested
  obtain rfl := yields_modify.1 hrun
  obtain ⟨place₅, h₅, hg₅, hb₅⟩ := h₁.addBody hm hnests hmore ws
  have hbuilt₅ := hbuilt₁.trans (h₅.grow_builds owing hg₅ fun k => by
    rw [site_bindBody]
    split
    · next hk =>
      rw [hk, site_of_size_le (Nat.le_refl _)]
      exact ⟨rfl, rfl, rfl⟩
    · exact ⟨rfl, rfl, rfl⟩)
  have hp₅ := (hg₅.place hsize₁).trans hp₁
  have hsize₅ := Nat.lt_of_lt_of_le hsize₁ hg₅.size
  obtain ⟨ok, d₆, hclaim, hy⟩ := yields_bind.1 hy
  cases ok with
  | false => cases isWeak_of_yields hclaim
  | true =>
    obtain ⟨⟨⟩, d₇, hprune, hy⟩ := yields_bind.1 hy
    obtain rfl := yields_modify.1 hprune
    obtain ⟨⟨⟩, d₈, hmod, hy⟩ := yields_bind.1 hy
    obtain rfl := yields_modify.1 hmod
    obtain ⟨⟨⟩, d₉, hmod, hy⟩ := yields_bind.1 hy
    obtain rfl := yields_modify.1 hmod
    have h₈ := h₅.assignOpener hclaim hmarked hb₅ hp₅ fun _ => ⟨rfl, nofun⟩
    have hbuilt₈ := hbuilt₅.tail (.clear hsize₅
      (.of_claim hclaim (prunes_pruneBoundaries (h₅.sorted_of_yields hclaim opener)))
      (.opener (b := d₁.trie.size) hm hterminated hp₅))
    have h₉ := (h₈.loosen fun k hk => hk.1.resolve_right hk.2).addOpener hb₅ hp₅
    have hbuilt₉ := hbuilt₈.trans
      (h₉.grow_builds owing ⟨Nat.le_refl _, fun _ => rfl, id⟩ fun _ => ⟨rfl, rfl, rfl⟩)
    obtain ⟨⟨⟩, d₁₀, hend, hy⟩ := yields_bind.1 hy
    obtain ⟨place₁₀, h₁₀, hg₁₀, hbuilt₁₀⟩ := h₉.endRun_builds owing hmarked hterminated hb₅
      ⟨rfl, rfl, rfl, rfl, .inl ⟨ht, rfl, rfl, hchar⟩⟩ hend
    have hb₁₀ := (hg₁₀.place (h₉.lt_size_of_isBody (hb₅ ▸ ⟨_, _, _, rfl⟩))).trans hb₅
    obtain ⟨⟨⟩, d₁₁, hend, hy⟩ := yields_bind.1 hy
    obtain ⟨place₁₁, h₁₁, hg₁₁, hbuilt₁₁⟩ := h₁₀.endRun_builds owing hmarked hterminated hb₁₀
      ⟨rfl, rfl, rfl, rfl, .inr (.inl ⟨rfl, rfl, rfl, rfl⟩)⟩ hend
    have hb₁₁ := (hg₁₁.place (h₁₀.lt_size_of_isBody (hb₁₀ ▸ ⟨_, _, _, rfl⟩))).trans hb₁₀
    have hbuilt := (hbuilt₉.trans hbuilt₁₀).trans hbuilt₁₁
    split at hy
    · obtain ⟨-, rfl⟩ := yields_pure.1 hy
      exact ⟨place₁₁, h₁₁, hbuilt⟩
    · next marker hmarker =>
      obtain ⟨place₁₂, h₁₂, -, hbuilt₁₂⟩ := h₁₁.endRun_builds owing hmarked hterminated hb₁₁
        ⟨rfl, rfl, rfl, rfl, .inr (.inr ⟨hmarker, rfl, rfl, hchar⟩)⟩ hy
      exact ⟨place₁₂, h₁₂, hbuilt.trans hbuilt₁₂⟩

/-- All greedy matchers. -/
theorem Charted.buildMatchers_builds (h : Charted lexicon matchers pointed marked loose d place)
    (owing : NodeId → String → Prop) (hmarked : ¬∃ t, marked t)
    (hy : (lexicon.buildMatchers matchers).Yields d ⟨⟩ d') :
    ∃ place', Charted lexicon matchers pointed marked loose d' place' ∧
      Builds lexicon matchers ⟨d, place, owing⟩ ⟨d', place', owing⟩ := by
  refine (hy.forM (fun ms d' => (∀ m ∈ ms, m ∈ matchers) ∧
    ∃ place', Charted lexicon matchers pointed marked loose d' place' ∧
      Builds lexicon matchers ⟨d, place, owing⟩ ⟨d', place', owing⟩) ?_
    ⟨fun _ hm => hm, place, h, .refl⟩).2
  intro m ms d₁ d₂ ⟨hms, place₁, h₁, hb₁⟩ hy₁
  have hm := hms m List.mem_cons_self
  refine ⟨fun m' hm' => hms m' (List.mem_cons_of_mem _ hm'), ?_⟩
  split at hy₁
  · next ht =>
    obtain ⟨place₂, h₂, -, hb₂⟩ := h₁.buildKeyword_builds owing hmarked (.opener hm ht) hy₁
    exact ⟨place₂, h₂, hb₁.trans hb₂⟩
  · next terminator ht =>
    obtain ⟨place₂, h₂, hb₂⟩ := h₁.buildRun_builds owing hmarked hm ht hy₁
    exact ⟨place₂, h₂, hb₁.trans hb₂⟩

/-! ### Literals -/

/-- All keywords. -/
theorem Charted.buildKeywords_builds (h : Charted lexicon matchers pointed marked loose d place)
    (owing : NodeId → String → Prop) (hmarked : ¬∃ t, marked t)
    (hy : lexicon.buildKeywords.Yields d ⟨⟩ d') :
    ∃ place', Charted lexicon matchers pointed marked loose d' place' ∧
      Builds lexicon matchers ⟨d, place, owing⟩ ⟨d', place', owing⟩ := by
  refine hy.forM_definitions (fun _ d' => ∃ place', Charted lexicon matchers pointed marked loose d'
    place' ∧ Builds lexicon matchers ⟨d, place, owing⟩ ⟨d', place', owing⟩) (fun _ => id) ?_
    (fun _ => False) ⟨place, h, .refl⟩
  rintro definition hd literal hl _ d₁ d₂ ⟨place₁, h₁, hb₁⟩ hy₁
  obtain ⟨place₂, h₂, -, hb₂⟩ := h₁.buildKeyword_builds owing hmarked (.keyword hd hl) hy₁
  exact ⟨place₂, h₂, hb₁.trans hb₂⟩

/-- A delimiter is put in place. -/
theorem Charted.buildDelimiter_builds (h : Charted lexicon matchers pointed marked loose d place)
    (owing : NodeId → String → Prop) {label : Option Label} (hl : lexicon.Delimits label literal)
    (hy : (lexicon.buildDelimiter label literal).Yields d ⟨⟩ d') :
    ∃ place', Charted lexicon matchers pointed (fun t => marked t ∨ t = literal) loose d' place' ∧
      Builds lexicon matchers ⟨d, place, owing⟩ ⟨d', place', owing⟩ := by
  obtain ⟨n, d₁, hpath, hy⟩ := yields_bind.1 hy
  obtain ⟨place₁, h₁, hb₁, hsize, hp, hfollow⟩ := h.rootPath_builds owing (.delimiter hl) hpath
  obtain ⟨ok, d₂, hclaim, hy⟩ := yields_bind.1 hy
  cases ok with
  | false => cases isWeak_of_yields hclaim
  | true =>
    obtain rfl := yields_modify.1 hy
    have haction : Action.Fits lexicon (place₁ n) (.literal label) :=
      .literal (by rw [hp]) (by rw [hp]; exact spelling_ne_nil _) label
    have h₂ := h₁.assign hclaim (.refl _ d₂) hsize (by rw [hp]; simp)
      (fun b => { b with action := .literal label }) (fun _ => rfl) (h₁.fallback n) haction rfl
      (.inl trivial) fun _ => h₁.ne_float hp
    have hg₂ : d₁.Grows place₁ d₂ place₁ := .claim hclaim
    have h₃ := (h₂.loosen fun k hk => hk.1.resolve_right hk.2).mark (t := literal) (n := n)
      ((hg₂.modifyBehaviour _).follow? hfollow)
      ((claim?_modifyBehaviour _ _).trans (claim?_of_yields hclaim hsize)) trivial
    rcases hclaim.claim with ⟨-, ⟨ws, rfl⟩, -⟩ | ⟨⟨⟩, -⟩
    exact ⟨place₁, h₃, hb₁.tail (.take hsize (.delimiter hl hp))⟩

/-- A punctuation literal is put in place. -/
theorem Charted.buildMark_builds (h : Charted lexicon matchers pointed marked loose d place)
    (owing : NodeId → String → Prop) (hl : lexicon.Punctuates label literal)
    (hy : (lexicon.buildMark label literal).Yields d ⟨⟩ d') :
    ∃ place', Charted lexicon matchers pointed (fun t => marked t ∨ t = literal) loose d' place' ∧
      Builds lexicon matchers ⟨d, place, owing⟩ ⟨d', place', owing⟩ := by
  obtain ⟨n, d₁, hpath, hy⟩ := yields_bind.1 hy
  obtain ⟨place₁, h₁, hb₁, hsize, hp, hfollow⟩ := h.rootPath_builds owing (.punctuation hl) hpath
  obtain ⟨ok, d₂, hclaim, hy⟩ := yields_bind.1 hy
  cases ok with
  | false => cases isWeak_of_yields hclaim
  | true =>
    obtain ⟨⟨⟩, d₃, hprune, hy⟩ := yields_bind.1 hy
    obtain rfl := yields_modify.1 hprune
    obtain rfl := yields_modify.1 hy
    have hprunes := prunes_pruneBoundaries (h₁.sorted_of_yields hclaim n)
    have hclaimed := claim?_of_yields hclaim hsize
    have hfit : Fallback.Fits place₁ (place₁ n) (.release label) :=
      .release (by rw [hp]) (by rw [hp]; exact spelling_ne_nil _) label
    have h₂ := h₁.assign hclaim hprunes hsize (by rw [hp]; simp)
      (fun b => { b with action := .none, fallback := .release label })
      (fun _ => rfl) hfit .none ⟨rfl, nofun⟩ (.inl trivial) fun _ => h₁.ne_float hp
    have hg₂ : d₁.Grows place₁ d₂ place₁ := .claim hclaim
    have h₃ := (h₂.loosen fun k hk => hk.1.resolve_right hk.2).mark (t := literal) (n := n)
      ((follow?_modifyBehaviour _ _ _).trans (hprunes.follow (hg₂.follow? hfollow) hclaimed rfl))
      ((claim?_modifyBehaviour _ _).trans (hprunes.claim_of_isBoundary hclaimed rfl)) trivial
    exact ⟨place₁, h₃, hb₁.tail (.clear hsize (.of_claim hclaim hprunes) (.punctuation hl hp))⟩

/-! ### The whole -/

/-- The ends of the tokens of a category. -/
theorem Charted.endCategory_builds (h : Charted lexicon matchers pointed marked loose d place)
    (owing owing' : NodeId → String → Prop) (hmarked : ¬∃ t, marked t) {o : Origin}
    (ho : ¬o.IsBody) (hopen : d.IsOpenEnded o.node) (hpoint : pointed → o ≠ .number)
    (hbears : Locus.Bears lexicon matchers ⟨o, []⟩ label)
    (howing : ∀ k u, owing k u → owing' k u ∨ k = o.node)
    (hy : (lexicon.endBeforeTerminators o.node label false).Yields d ⟨⟩ d') :
    ∃ place', Charted lexicon matchers pointed marked loose d' place' ∧
      Builds lexicon matchers ⟨d, place, owing⟩ ⟨d', place', owing'⟩ := by
  have hp := h.origin ho
  obtain ⟨place', h', -, hb⟩ := h.endBeforeTerminators_builds owing' (h.origin_lt_size ho) hopen
    (hp ▸ hbears) (.inr hmarked) (fun hpointed => by rw [hp]; exact hpoint hpointed) hy
  exact ⟨place', h', .head (.waive fun k u _ hk => howing k u hk) hb⟩

/-- The nodes of the categories owe their ends. -/
def startOwing (k : NodeId) (_ : String) : Prop :=
  k = .unknown ∨ k = .identifier ∨ k = .number ∨ k = .float

/-- The open-ended categories. -/
theorem Charted.buildCategories_builds
    (h : Charted lexicon matchers False (fun _ => False)
      (fun k => k = .identifier ∨ k = .number ∨ k = .float) d place)
    (hy : lexicon.buildCategories.Yields d ⟨⟩ d') :
    ∃ place', Charted lexicon matchers True (fun _ => False) (fun _ => False) d' place' ∧
      Builds lexicon matchers ⟨d, place, startOwing⟩ ⟨d', place', fun _ _ => False⟩ := by
  have hmarked : ¬∃ t : String, (fun _ => False) t := by
    rintro ⟨_, h⟩
    exact h
  have hidentifier : ¬Origin.identifier.IsBody := Origin.not_isBody_of_mem (by simp)
  have hnumber : ¬Origin.number.IsBody := Origin.not_isBody_of_mem (by simp)
  have hfloat : ¬Origin.float.IsBody := Origin.not_isBody_of_mem (by simp)
  obtain ⟨⟨⟩, _, hmod, hy⟩ := yields_bind.1 hy
  obtain rfl := yields_modify.1 hmod
  have h₁ := h.reroute (h.origin_lt_size hidentifier) (f := Lexicon.identifierFallback)
    (by decide) (by
      rw [h.origin hidentifier]
      exact .identifier ⟨hidentifier, by simp⟩)
  obtain ⟨⟨⟩, _, hmod, hy⟩ := yields_bind.1 hy
  obtain rfl := yields_modify.1 hmod
  have h₂ : Charted lexicon matchers False (fun _ => False) (· = .float) d.beginCategories place :=
    (h₁.reroute (h₁.origin_lt_size hnumber) (f := .classify .digit .number .unknown) (by simp)
      (.digit (h₁.origin hnumber))).loosen fun k hk =>
        (hk.1.1.resolve_left hk.1.2).resolve_left hk.2
  have hb₂ : Builds lexicon matchers ⟨d, place, startOwing⟩
      ⟨d.beginCategories, place, fun k u => (startOwing k u ∨ k = .identifier) ∨ k = .number⟩ :=
    .tail (.single (.classify (.inl rfl) (h.origin_lt_size hidentifier) ⟨_, _, rfl⟩))
      (.classify (.inr rfl) (h₁.origin_lt_size hnumber) ⟨_, _, rfl⟩)
  obtain ⟨⟨⟩, d₃, hunknown, hy⟩ := yields_bind.1 hy
  obtain ⟨place₃, h₃, hb₃⟩ := h₂.endCategory_builds
    (fun k u => (startOwing k u ∨ k = .identifier) ∨ k = .number)
    (fun k _ => k = .identifier ∨ k = .number ∨ k = .float) hmarked (o := .unknown)
    (Origin.not_isBody_of_mem (by simp)) (.inl rfl) (by simp) .unknown
    (by rintro k u (((hk | hk | hk | hk) | hk) | hk) <;> simp [hk, Origin.node]) hunknown
  obtain ⟨⟨⟩, d₄, hident, hy⟩ := yields_bind.1 hy
  obtain ⟨place₄, h₄, hb₄⟩ := h₃.endCategory_builds _ (fun k _ => k = .number ∨ k = .float) hmarked
    hidentifier (.inr (.inl rfl)) (by simp) .identifier (fun _ _ => Or.symm) hident
  obtain ⟨⟨⟩, d₅, hnum, hy⟩ := yields_bind.1 hy
  obtain ⟨place₅, h₅, hb₅⟩ := h₄.endCategory_builds _ (fun k _ => k = .float) hmarked
    hnumber (.inr (.inr (.inl rfl))) (by simp) .number (fun _ _ => Or.symm) hnum
  obtain ⟨ok, d₆, hclaim, hy⟩ := yields_bind.1 hy
  cases ok with
  | false => cases isWeak_of_yields hclaim
  | true =>
    obtain ⟨⟨⟩, d₇, hmod, hy⟩ := yields_bind.1 hy
    obtain rfl := yields_modify.1 hmod
    have h₆ := h₅.assign hclaim (.refl _ d₆) (h₅.origin_lt_size hfloat) (by simp [h₅.place_float])
      (fun b => { b with action := .none, fallback := .classify .digit .float .unknown })
      (fun _ => rfl) (.decimal (h₅.origin hfloat)) .none ⟨rfl, by simp⟩ (.inr (.inr hmarked))
      (by simp)
    have h₇ : Charted lexicon matchers True (fun _ => False) (fun _ => False) d₆.beginDecimals
        place₅ :=
      { h₆.loosen fun _ hk => hk.2 hk.1 with
        point := fun _ => by
          rw [beginDecimals, claim?_modifyBehaviour]
          exact claim?_of_yields hclaim (h₅.origin_lt_size hfloat) }
    obtain ⟨place₈, h₈, hb₈⟩ := h₇.endCategory_builds (fun k _ => k = .float ∨ k = .float)
      (fun _ _ => False) hmarked hfloat (.inr (.inr (.inr (.inl rfl)))) (by simp) .decimal
      (fun _ _ hk => .inr (or_self_iff.1 hk)) hy
    rcases hclaim.claim with ⟨-, ⟨ws, rfl⟩, -⟩ | ⟨⟨⟩, -⟩
    exact ⟨place₈, h₈, (((hb₂.trans hb₃).trans hb₄).trans hb₅).trans
      (.head (.take (h₅.origin_lt_size hfloat) (.decimal rfl)) hb₈)⟩

/-- A grammar is built in steps, and owes nothing in the end. -/
theorem Stages.builds (h : Stages lexicon matchers d') :
    ∃ d place, Charted lexicon matchers True
        (fun t => t ∈ literalsOf lexicon.delimiters ∨ t ∈ literalsOf lexicon.punctuation)
        (fun _ => False) d place ∧ Pointed lexicon d d' ∧
      Builds lexicon matchers ⟨start, startPlace, startOwing⟩
        ⟨d, place, fun _ _ => False⟩ := by
  have hmarked : ¬∃ t : String, (fun _ => False) t := by
    rintro ⟨_, h⟩
    exact h
  obtain ⟨categories, -, keywords, -, runs, -, delimiters, -, punctuation, -, point⟩ := h
  obtain ⟨place₁, h₁, hb₁⟩ := charted_start.buildCategories_builds categories
  obtain ⟨place₂, h₂, hb₂⟩ := h₁.buildKeywords_builds _ hmarked keywords
  obtain ⟨place₃, h₃, hb₃⟩ := h₂.buildMatchers_builds _ hmarked runs
  have hmono {d₀ : Draft} {place₀ : NodeId → Locus} {added fewer : String → Prop} {d : Draft}
      (hfewer : ∀ t, fewer t → added t) :
      (∃ place, Charted lexicon matchers True added (fun _ => False) d place ∧
        Builds lexicon matchers ⟨d₀, place₀, fun _ _ => False⟩ ⟨d, place, fun _ _ => False⟩) →
      ∃ place, Charted lexicon matchers True fewer (fun _ => False) d place ∧
        Builds lexicon matchers ⟨d₀, place₀, fun _ _ => False⟩ ⟨d, place, fun _ _ => False⟩ := by
    rintro ⟨place, h, hb⟩
    exact ⟨place, { h with marks := fun ht => h.marks (hfewer _ ht) }, hb⟩
  obtain ⟨place₄, h₄, hb₄⟩ := delimiters.forM_definitions
    (fun added d => ∃ place, Charted lexicon matchers True added (fun _ => False) d place ∧
      Builds lexicon matchers ⟨_, place₃, fun _ _ => False⟩ ⟨d, place, fun _ _ => False⟩) hmono
    (by
      rintro definition hd literal hl added d₁ d₂ ⟨place₁, h₁, hb₁⟩ hy₁
      obtain ⟨place₂, h₂, hb₂⟩ := h₁.buildDelimiter_builds _ ⟨definition, hd, rfl, hl⟩ hy₁
      exact ⟨place₂, h₂, hb₁.trans hb₂⟩) _ ⟨place₃, h₃, .refl⟩
  obtain ⟨place₅, h₅, hb₅⟩ := punctuation.forM_definitions
    (fun added d => ∃ place, Charted lexicon matchers True added (fun _ => False) d place ∧
      Builds lexicon matchers ⟨_, place₄, fun _ _ => False⟩ ⟨d, place, fun _ _ => False⟩) hmono
    (by
      rintro definition hd literal hl added d₁ d₂ ⟨place₁, h₁, hb₁⟩ hy₁
      obtain ⟨place₂, h₂, hb₂⟩ := h₁.buildMark_builds _ ⟨definition, hd, rfl, hl⟩ hy₁
      exact ⟨place₂, h₂, hb₁.trans hb₂⟩) _ ⟨place₄, h₄, .refl⟩
  exact ⟨_, place₅, { h₅ with marks := fun ht => h₅.marks (ht.imp_left .inr) }, point,
    (((hb₁.trans hb₂).trans hb₃).trans hb₄).trans hb₅⟩

end Draft

/-- So is the draft that an automaton is finished from. -/
theorem Grammar.exists_builds {g : Grammar} {a : Automaton} (h : g.compile.result = .ok a) :
    a.unnamed = g.unnamedLabel ∧ ∃ d place,
      Draft.Charted g.toLexicon (compileMatchers g.greedyMatchers) True
        (fun t => t ∈ literalsOf g.delimiters ∨ t ∈ literalsOf g.punctuation) (fun _ => False) d
        place ∧
      Draft.Finishes g.toLexicon d place a ∧
      Builds g.toLexicon (compileMatchers g.greedyMatchers)
        ⟨.start, Draft.startPlace, Draft.startOwing⟩ ⟨d, place, fun _ _ => False⟩ := by
  obtain ⟨d', hstages, rfl⟩ := Lexicon.stages_assemble (assemble_of_compile h)
  obtain ⟨d, place, hchart, hpoint, hbuilds⟩ := hstages.builds
  exact ⟨rfl, d, place, hchart, hchart.finishes hpoint, hbuilds⟩

end TrieLexer
