import TrieLexer.Proofs.Chart
import TrieLexer.Proofs.Pruning

/-!
# Charted drafts

A draft is charted while it is built. Every building step finds a chart of the draft that it leaves
behind, which agrees with the old one on the nodes that were there before. Nodes that have been
allocated but not been given their behaviour yet are loose; a finished building step leaves none of
its nodes loose. A node that is claimed always does what its role asks for.

## Main definitions

* `Role.Acts` — what a node does that is claimed for a role.
* `Draft.Charted` — a chart of a draft.
* `Draft.Grows` — a later draft with more nodes, and its chart.

## Main results

* `Draft.Charted.addChild` — a missing child is created.
* `Draft.Charted.modifyBehaviour` — an unclaimed node gets its behaviour.
* `Draft.Charted.occupy` — a node is claimed and gets its behaviour.
-/

namespace TrieLexer

open Text (byteLength)

/-- What a node does that is claimed for a role. -/
def Role.Acts : Role → Behaviour → Prop
  | weakBoundary label, b | boundary label, b => ∃ length, b.action = .boundary label length
  | delimiter label, b => b.action = .literal label
  | close label, b => ∃ c, b.action = .close c ∧ c.label = label
  | _, b => b.action = .none ∧ b.fallback ≠ .stay

/-- A node that is claimed does something. -/
theorem Role.Acts.busy {role : Role} {b : Behaviour} (h : role.Acts b)
    (hf : b.fallback = .stay) : b.action ≠ .none := by
  cases role with
  | weakBoundary label | boundary label =>
    obtain ⟨length, ha⟩ := h
    simp [ha]
  | delimiter label => simp [show b.action = .literal label from h]
  | close label =>
    obtain ⟨c, ha, -⟩ := h
    simp [ha]
  | _ => exact absurd hf h.2

/-- Another way for symbols without a child is as good for a role, as long as there is one. -/
theorem Role.Acts.of_fallback {role : Role} {b b' : Behaviour} (h : role.Acts b)
    (ha : b'.action = b.action) (hf : b'.fallback ≠ .stay) : role.Acts b' := by
  cases role with
  | weakBoundary label | boundary label | delimiter label | close label =>
    simp only [Acts, ha] at h ⊢
    exact h
  | _ => exact ⟨ha.trans h.1, hf⟩

/-- Whether the role is that of a delimiter or of punctuation. -/
def Role.IsMark : Role → Prop
  | delimiter _ | punctuation _ => True
  | _ => False

theorem Role.IsMark.isBoundary {role : Role} (h : role.IsMark) : role.isBoundary = false := by
  cases role <;> first | rfl | exact h.elim

theorem Role.IsMark.isWeak {role : Role} (h : role.IsMark) : role.isWeak = false := by
  cases role <;> first | rfl | exact h.elim

/-- A chart of a draft. The loose nodes have not been given their behaviour yet, the marked
literals are delimiters and punctuation that are in place, and `pointed` tells that the decimal
point is in place. -/
structure Draft.Charted (lexicon : Lexicon) (matchers : List (GreedyMatcher Compilation))
    (pointed : Prop) (marked : String → Prop) (loose : NodeId → Prop) (d : Draft)
    (place : NodeId → Locus) : Prop where
  size : 5 ≤ d.trie.size
  fresh {n : NodeId} (hn : d.trie.size ≤ n) : place n = ⟨.unknown, []⟩
  origin {o : Origin} (ho : ¬o.IsBody) : place o.node = ⟨o, []⟩
  sorted (n : NodeId) : (d.trie.edges n).Sorted
  child {n m : NodeId} {s : Symbol} (h : d.trie.child? n s = some m) :
    m < d.trie.size ∧ place m = (place n).down s
  decimal {n : NodeId} (h : place n = ⟨.number, []⟩) : d.trie.child? n (.char '.') = some .float
  float {n : NodeId} (h : place n = ⟨.float, []⟩) : n = .float
  body {n b : NodeId} {m : GreedyMatcher Compilation} {nested : Option RunId}
    {path : List Symbol} (h : place n = ⟨.body b m nested, path⟩) :
    place b = ⟨.body b m nested, []⟩ ∧ (d.site b).behaviour.run = nested ∧ m ∈ matchers ∧
      m.Nests d.runs.toList nested
  run {n : NodeId} {id : RunId} (h : (d.site n).behaviour.run = some id) :
    ∃ m, place n = ⟨.body n m (some id), []⟩
  runs {run : NestedRun Automaton} (h : run ∈ d.runs) :
    ∃ m ∈ matchers, ∃ c, m.subGrammar = some c ∧ c.result = .ok run.automaton
  opener {n b : NodeId} (h : (n, b) ∈ d.openers) : ∃ m nested,
    place b = ⟨.body b m nested, []⟩ ∧ place n = ⟨.root, spelling m.startsWith.toList⟩
  fallback (n : NodeId) : (d.site n).behaviour.fallback.Fits place (place n)
  action (n : NodeId) : (d.site n).behaviour.action.Fits lexicon (place n)
  settled {n : NodeId} (hn : ¬loose n) (hroot : n ≠ .root)
    (hclaim : d.claim? n = none) (hf : (d.site n).behaviour.fallback = .stay)
    (ha : (d.site n).behaviour.action = .none) : (place n).IsRest
  claimed {n : NodeId} {role : Role} (h : d.claim? n = some role) :
    role.Acts (d.site n).behaviour
  marks {t : String} (h : marked t) : ∃ n role,
    d.trie.follow? .root (spelling t.toList) = some n ∧ d.claim? n = some role ∧ role.IsMark
  point (h : pointed) : d.claim? .float = some .decimalPoint

/-- A later draft with more nodes, whose chart agrees on the nodes that were there before. -/
structure Draft.Grows (d : Draft) (place : NodeId → Locus) (d' : Draft) (place' : NodeId → Locus) :
    Prop where
  size : d.trie.size ≤ d'.trie.size
  place {n : NodeId} (hn : n < d.trie.size) : place' n = place n
  child {n m : NodeId} {s : Symbol} (h : d.trie.child? n s = some m) :
    d'.trie.child? n s = some m

namespace Draft

variable {lexicon : Lexicon} {matchers : List (GreedyMatcher Compilation)}
  {pointed : Prop} {marked : String → Prop} {loose : NodeId → Prop} {d d' d'' : Draft}
  {place place' place'' : NodeId → Locus} {n : NodeId}

theorem Grows.refl (d : Draft) (place : NodeId → Locus) : d.Grows place d place :=
  ⟨Nat.le_refl _, fun _ => rfl, id⟩

theorem Grows.trans (h : d.Grows place d' place') (h' : d'.Grows place' d'' place'') :
    d.Grows place d'' place'' :=
  ⟨Nat.le_trans h.size h'.size, fun hn =>
    (h'.place (Nat.lt_of_lt_of_le hn h.size)).trans (h.place hn), fun hc => h'.child (h.child hc)⟩

theorem Grows.follow? (h : d.Grows place d' place') {path : List Symbol} {k : NodeId}
    (hp : d.trie.follow? n path = some k) : d'.trie.follow? n path = some k :=
  Trie.follow?_mono (fun _ _ _ hc => h.child hc) hp

namespace Charted

/-- Only nodes of the arena have a place of their own. -/
theorem lt_size (h : Charted lexicon matchers pointed marked loose d place)
    (hn : place n ≠ ⟨.unknown, []⟩) : n < d.trie.size :=
  Nat.lt_of_not_le fun hle => hn (h.fresh hle)

theorem lt_size_of_isBody (h : Charted lexicon matchers pointed marked loose d place)
    (hn : (place n).origin.IsBody) : n < d.trie.size :=
  h.lt_size fun hp => by
    rw [hp] at hn
    exact absurd hn (Origin.not_isBody_of_mem (.inr (.inl rfl)))

/-- More nodes may count as loose. -/
theorem loosen (h : Charted lexicon matchers pointed marked loose d place) {loose' : NodeId → Prop}
    (hl : ∀ n, loose n → loose' n) : Charted lexicon matchers pointed marked loose' d place :=
  { h with settled := fun hn => h.settled fun hn' => hn (hl _ hn') }

/-- A claimed node has its behaviour. -/
theorem tighten (h : Charted lexicon matchers pointed marked loose d place) {role : Role}
    (hc : d.claim? n = some role) :
    Charted lexicon matchers pointed marked (fun k => loose k ∧ k ≠ n) d place :=
  { h with
    settled := fun hk hroot hclaim => h.settled
      (fun hl => hk ⟨hl, fun hkn => by cases (hkn ▸ hc).symm.trans hclaim⟩) hroot hclaim }

/-- The body of a run is where its nodes say. -/
theorem place_body (h : Charted lexicon matchers pointed marked loose d place) {b : NodeId}
    {m : GreedyMatcher Compilation} {nested : Option RunId} {path : List Symbol}
    (hp : place n = ⟨.body b m nested, path⟩) : place b = ⟨.body b m nested, []⟩ :=
  (h.body hp).1

end Charted

/-- What a fallback may be does not depend on places that agree on the bodies of runs. -/
theorem fits_mono {p : Locus} {f : Fallback} (h : f.Fits place p)
    (hbody : ∀ b m nested, place b = ⟨.body b m nested, []⟩ → place' b = place b) :
    f.Fits place' p := by
  cases h with
  | stay => exact .stay
  | unknown hp => exact .unknown hp
  | identifier hp => exact .identifier hp
  | digit hp => exact .digit hp
  | decimal hp => exact .decimal hp
  | enter hb hp => exact .enter ((hbody _ _ _ hb).trans hb) hp
  | back hb hp hpath => exact .back ((hbody _ _ _ hb).trans hb) hp hpath
  | release hp hpath label => exact .release hp hpath label
  | dispatch hp => exact .dispatch hp

/-! ### Creating nodes -/

/-- A draft with another child of a node. -/
def bindNew (d : Draft) (n : NodeId) (s : Symbol) : Draft :=
  { d with trie := d.trie.alloc.1.setChild n s d.trie.size }

theorem child?_bindNew (hn : n < d.trie.size) (s u : Symbol) (k : NodeId) :
    (d.bindNew n s).trie.child? k u =
      if k = n ∧ u = s then some d.trie.size else d.trie.child? k u := by
  rw [bindNew, Trie.child?_setChild _ _ _ _ _ _ (by simpa using Nat.lt_succ_of_lt hn),
    Trie.child?_alloc]

theorem site_bindNew (s : Symbol) (k : NodeId) : (d.bindNew n s).site k = d.site k := by
  simp [bindNew, site]

theorem site_of_size_le {k : NodeId} (h : d.trie.size ≤ k) : d.site k = {} :=
  Trie.content_of_size_le _ _ h

/-- A missing child is created. It is loose until it gets its behaviour. -/
theorem Charted.addChild (h : Charted lexicon matchers pointed marked loose d place)
    (hn : n < d.trie.size) {s : Symbol} (hnone : d.trie.child? n s = none) :
    ∃ place', Charted lexicon matchers pointed marked (fun k => loose k ∨ k = d.trie.size)
        (d.bindNew n s) place' ∧
      d.Grows place (d.bindNew n s) place' ∧ place' d.trie.size = (place n).down s := by
  let place' : NodeId → Locus := fun k => if k = d.trie.size then (place n).down s else place k
  have hold {k : NodeId} (hk : k < d.trie.size) : place' k = place k := if_neg (Nat.ne_of_lt hk)
  have hnew : place' d.trie.size = (place n).down s := if_pos rfl
  have hother {k : NodeId} (hk : k ≠ d.trie.size) : place' k = place k := if_neg hk
  have hsize : (d.bindNew n s).trie.size = d.trie.size + 1 := by simp [bindNew]
  have hbody {b m nested} (hb : place b = ⟨.body b m nested, []⟩) : place' b = place b :=
    hold (h.lt_size_of_isBody (hb ▸ ⟨_, _, _, rfl⟩))
  have hkeep {k m : NodeId} {u : Symbol} (hk : d.trie.child? k u = some m) :
      (d.bindNew n s).trie.child? k u = some m := by
    rw [child?_bindNew hn, if_neg, hk]
    rintro ⟨rfl, rfl⟩
    cases hnone.symm.trans hk
  refine ⟨place', ⟨?size, ?fresh, ?origin, ?sorted, ?child, ?decimal, ?float, ?body, ?run, h.runs,
    ?opener, ?fallback, ?action, ?settled, ?claimed, ?marks, ?point⟩, ⟨by omega, hold, hkeep⟩, hnew⟩
  case size => exact hsize ▸ Nat.le_succ_of_le h.size
  case fresh =>
    intro k hk
    rw [hsize] at hk
    rw [hother (Nat.ne_of_gt hk)]
    exact h.fresh (Nat.le_of_lt hk)
  case origin =>
    intro o ho
    rw [hold, h.origin ho]
    have := h.size
    cases o with
    | body b m nested => exact absurd ⟨b, m, nested, rfl⟩ ho
    | _ => exact Nat.lt_of_lt_of_le (by decide) this
  case sorted =>
    intro k
    rw [bindNew, Trie.edges_setChild, Trie.edges_alloc]
    split
    · exact (h.sorted k).insert ..
    · exact h.sorted k
  case child =>
    intro k m u hk
    rw [child?_bindNew hn] at hk
    split at hk
    · next hku =>
      cases hk
      rw [hku.1, hku.2, hold hn, hnew, hsize]
      exact ⟨Nat.lt_succ_self _, rfl⟩
    · obtain ⟨hm, hp⟩ := h.child hk
      rw [hold hm, hold (Trie.lt_size_of_child? hk), hsize]
      exact ⟨Nat.lt_succ_of_lt hm, hp⟩
  case decimal =>
    intro k hk
    by_cases hks : k = d.trie.size
    · rw [hks, hnew] at hk
      exact absurd hk (Locus.down_ne_number _ s)
    · exact hkeep (h.decimal ((hother hks).symm.trans hk))
  case float =>
    intro k hk
    by_cases hks : k = d.trie.size
    · rw [hks, hnew] at hk
      obtain hd | ⟨hn', rfl, -⟩ := (place n).down_eq_or s
      · simp [hd] at hk
      · cases hnone.symm.trans (h.decimal hn')
    · exact h.float ((hother hks).symm.trans hk)
  case body =>
    intro k b m nested path hk
    rw [site_bindNew]
    suffices ∃ path₀, ∃ j, place j = ⟨.body b m nested, path₀⟩ by
      obtain ⟨path₀, j, hj⟩ := this
      obtain ⟨hb, hrest⟩ := h.body hj
      exact ⟨(hbody hb).trans hb, hrest⟩
    by_cases hks : k = d.trie.size
    · rw [hks, hnew] at hk
      obtain hd | ⟨-, -, hd⟩ := (place n).down_eq_or s
      · rw [hd] at hk
        exact ⟨(place n).path, n, Locus.ext (Locus.mk.inj hk).1 rfl⟩
      · rw [hd] at hk
        cases hk
    · exact ⟨path, k, (hother hks).symm.trans hk⟩
  case run =>
    intro k id hk
    rw [site_bindNew] at hk
    obtain ⟨m, hm⟩ := h.run hk
    exact ⟨m, (hbody hm).trans hm⟩
  case opener =>
    intro k b hk
    obtain ⟨m, nested, hb, hp⟩ := h.opener hk
    refine ⟨m, nested, (hbody hb).trans hb, (hold (h.lt_size ?_)).trans hp⟩
    rw [hp]
    simp
  case fallback =>
    intro k
    rw [site_bindNew]
    by_cases hks : k = d.trie.size
    · rw [site_of_size_le (Nat.le_of_eq hks.symm)]
      exact .stay
    · rw [hother hks]
      exact fits_mono (h.fallback k) fun _ _ _ => hbody
  case action =>
    intro k
    rw [site_bindNew]
    by_cases hks : k = d.trie.size
    · rw [site_of_size_le (Nat.le_of_eq hks.symm)]
      exact .none
    · rw [hother hks]
      exact h.action k
  case settled =>
    intro k hk hroot hclaim hf ha
    rw [claim?, site_bindNew] at hclaim
    rw [site_bindNew] at hf ha
    rw [hother fun hks => hk (.inr hks)]
    exact h.settled (fun hl => hk (.inl hl)) hroot hclaim hf ha
  case claimed =>
    intro k role hk
    rw [claim?, site_bindNew] at hk
    rw [site_bindNew]
    exact h.claimed hk
  case marks =>
    intro t ht
    obtain ⟨k, role, hp, hc, hm⟩ := h.marks ht
    refine ⟨k, role, Trie.follow?_mono (fun _ _ _ => hkeep) hp, ?_, hm⟩
    rw [claim?, site_bindNew]
    exact hc
  case point =>
    intro hpointed
    rw [claim?, site_bindNew]
    exact h.point hpointed

/-- The new nodes among steps. -/
def New (steps : List Trie.Step) (k : NodeId) : Prop :=
  ∃ step ∈ steps, step.created = true ∧ step.node = k

/-- The nodes along symbols, of which the new ones are loose. -/
theorem Charted.extend (h : Charted lexicon matchers pointed marked loose d place)
    (hn : n < d.trie.size) {symbols : List Symbol} {t : Trie Site} {steps : List Trie.Step}
    (he : d.trie.extend n symbols = (t, steps)) :
    ∃ place', Charted lexicon matchers pointed marked (fun k => loose k ∨ New steps k)
        { d with trie := t } place' ∧
      d.Grows place { d with trie := t } place' ∧ t.Trail n symbols steps := by
  induction symbols generalizing d loose place n t steps with
  | nil =>
    cases he
    exact ⟨place, h.loosen fun _ => .inl, .refl d place, .nil n⟩
  | cons s symbols ih =>
    rw [Trie.extend, Trie.addChild] at he
    cases hc : d.trie.child? n s with
    | some m =>
      rw [hc] at he
      cases hrest : d.trie.extend m symbols with
      | mk t' steps' =>
        dsimp only at he
        rw [hrest] at he
        cases he
        obtain ⟨place', h', hgrows, htrail⟩ := ih h (h.child hc).1 hrest
        refine ⟨place', h'.loosen fun k => Or.imp_right ?_, hgrows, .cons (hgrows.child hc) htrail⟩
        rintro ⟨step, hstep, hnew⟩
        exact ⟨step, List.mem_cons_of_mem _ hstep, hnew⟩
    | none =>
      rw [hc] at he
      obtain ⟨place₁, h₁, hgrows₁, -⟩ := h.addChild hn hc
      have hbind : (d.bindNew n s).trie.child? n s = some d.trie.size := by
        rw [child?_bindNew hn, if_pos ⟨rfl, rfl⟩]
      cases hrest : (d.bindNew n s).trie.extend d.trie.size symbols with
      | mk t' steps' =>
        rw [bindNew] at hrest
        dsimp only [Trie.alloc_snd] at he
        rw [hrest] at he
        cases he
        obtain ⟨place', h', hgrows, htrail⟩ := ih h₁ (h₁.child hbind).1 hrest
        refine ⟨place', h'.loosen ?_, hgrows₁.trans hgrows, .cons (hgrows.child hbind) htrail⟩
        rintro k ((hl | rfl) | ⟨step, hstep, hnew⟩)
        · exact .inl hl
        · exact .inr ⟨_, List.mem_cons_self, rfl, rfl⟩
        · exact .inr ⟨step, List.mem_cons_of_mem _ hstep, hnew⟩

/-- The places along a trail. -/
theorem Charted.trail (h : Charted lexicon matchers pointed marked loose d place)
    {symbols : List Symbol} {steps : List Trie.Step}
    (ht : d.trie.Trail n symbols steps) {step : Trie.Step}
    (hstep : step ∈ steps) :
    step.node < d.trie.size ∧ ∃ path s, path ++ [s] <+: symbols ∧
      place step.node = ((place n).walk path).down s := by
  induction ht with
  | nil n => cases hstep
  | @cons n s step' symbols steps hc ht ih =>
    obtain ⟨hsize, hp⟩ := h.child hc
    rcases List.mem_cons.1 hstep with rfl | hstep
    · exact ⟨hsize, [], s, ⟨symbols, rfl⟩, hp⟩
    · obtain ⟨hlt, path, u, hu, hplace⟩ := ih hstep
      exact ⟨hlt, s :: path, u, List.cons_prefix_cons.2 ⟨rfl, hu⟩,
        by rw [hplace, hp, Locus.walk_cons]⟩

/-- The place at the end of a path. -/
theorem Charted.follow? (h : Charted lexicon matchers pointed marked loose d place)
    {path : List Symbol} {k : NodeId} (hp : d.trie.follow? n path = some k) (hn : n < d.trie.size) :
    k < d.trie.size ∧ place k = (place n).walk path := by
  induction path generalizing n with
  | nil =>
    cases hp
    exact ⟨hn, rfl⟩
  | cons s path ih =>
    rw [Trie.follow?_cons] at hp
    obtain ⟨m, hm, hp⟩ := Option.bind_eq_some_iff.1 hp
    obtain ⟨hsize, hplace⟩ := h.child hm
    rw [Locus.walk_cons, ← hplace]
    exact ih hp hsize

/-! ### Claims and behaviours -/

@[simp] theorem size_recordClaim (role : Role) : (d.recordClaim n role).trie.size = d.trie.size :=
  Trie.size_modifyContent ..

@[simp] theorem edges_recordClaim (role : Role) (k : NodeId) :
    (d.recordClaim n role).trie.edges k = d.trie.edges k :=
  Trie.edges_modifyContent ..

@[simp] theorem child?_recordClaim (role : Role) (k : NodeId) (s : Symbol) :
    (d.recordClaim n role).trie.child? k s = d.trie.child? k s :=
  Trie.child?_modifyContent ..

@[simp] theorem behaviour_recordClaim (role : Role) (k : NodeId) :
    ((d.recordClaim n role).site k).behaviour = (d.site k).behaviour := by
  rw [site, recordClaim, Trie.content_modifyContent]
  split <;> rfl

theorem claim?_recordClaim (hn : n < d.trie.size) (role : Role) (k : NodeId) :
    (d.recordClaim n role).claim? k = if n = k then some role else d.claim? k := by
  rw [claim?, site, recordClaim, Trie.content_modifyContent]
  by_cases hk : n = k
  · rw [if_pos ⟨hk, hn⟩, if_pos hk]
  · rw [if_neg fun h => hk h.1, if_neg hk]
    rfl

@[simp] theorem size_modifyBehaviour (f : Behaviour → Behaviour) :
    (d.modifyBehaviour n f).trie.size = d.trie.size :=
  Trie.size_modifyContent ..

@[simp] theorem edges_modifyBehaviour (f : Behaviour → Behaviour) (k : NodeId) :
    (d.modifyBehaviour n f).trie.edges k = d.trie.edges k :=
  Trie.edges_modifyContent ..

@[simp] theorem child?_modifyBehaviour (f : Behaviour → Behaviour) (k : NodeId) (s : Symbol) :
    (d.modifyBehaviour n f).trie.child? k s = d.trie.child? k s :=
  Trie.child?_modifyContent ..

@[simp] theorem claim?_modifyBehaviour (f : Behaviour → Behaviour) (k : NodeId) :
    (d.modifyBehaviour n f).claim? k = d.claim? k := by
  rw [claim?, site, modifyBehaviour, Trie.content_modifyContent]
  split <;> rfl

theorem behaviour_modifyBehaviour (hn : n < d.trie.size) (f : Behaviour → Behaviour)
    (k : NodeId) : ((d.modifyBehaviour n f).site k).behaviour =
      if n = k then f (d.site k).behaviour else (d.site k).behaviour := by
  rw [site, modifyBehaviour, Trie.content_modifyContent]
  by_cases hk : n = k
  · rw [if_pos ⟨hk, hn⟩, if_pos hk]
    rfl
  · rw [if_neg fun h => hk h.1, if_neg hk]
    rfl

@[simp] theorem follow?_modifyBehaviour (f : Behaviour → Behaviour) (k : NodeId)
    (path : List Symbol) : (d.modifyBehaviour n f).trie.follow? k path = d.trie.follow? k path :=
  Trie.follow?_congr (child?_modifyBehaviour f) k path

@[simp] theorem follow?_recordClaim (role : Role) (k : NodeId) (path : List Symbol) :
    (d.recordClaim n role).trie.follow? k path = d.trie.follow? k path :=
  Trie.follow?_congr (child?_recordClaim role) k path

/-- A claim may be recorded again. -/
theorem recordClaim_of_claim {role : Role} (h : d.claim? n = some role) :
    d.recordClaim n role = d := by
  obtain ⟨⟨nodes⟩, runs, openers, ws⟩ := d
  rw [recordClaim, Trie.modifyContent]
  refine congrArg (fun nodes => (⟨⟨nodes⟩, runs, openers, ws⟩ : Draft)) ?_
  refine Array.ext (Array.size_modify ..) fun i hi hi' => ?_
  rw [Array.getElem_modify]
  split
  · next hin =>
    subst hin
    rw [claim?, site, Trie.content, Array.getElem?_eq_getElem hi'] at h
    change nodes[n].content.claim = some role at h
    change { nodes[n] with content := { nodes[n].content with claim := some role } } = nodes[n]
    rw [← h]
  · rfl

/-- A node may get another way for symbols without a child. -/
theorem Charted.reroute (h : Charted lexicon matchers pointed marked loose d place)
    (hn : n < d.trie.size) {f : Fallback} (hne : f ≠ .stay) (hfit : f.Fits place (place n)) :
    Charted lexicon matchers pointed marked (fun k => loose k ∧ k ≠ n)
      (d.modifyBehaviour n fun b => { b with fallback := f }) place := by
  have hb := behaviour_modifyBehaviour hn fun b => { b with fallback := f }
  have hruns : (d.modifyBehaviour n fun b => { b with fallback := f }).runs = d.runs := rfl
  have hopeners : (d.modifyBehaviour n fun b => { b with fallback := f }).openers = d.openers := rfl
  generalize hd : d.modifyBehaviour n (fun b => { b with fallback := f }) = d₁ at *
  have hsame (k : NodeId) : (d₁.site k).behaviour.action = (d.site k).behaviour.action ∧
      (d₁.site k).behaviour.run = (d.site k).behaviour.run := by
    rw [hb]
    split <;> exact ⟨rfl, rfl⟩
  refine ⟨?size, fun hk => h.fresh ?fresh, h.origin, fun k => ?sorted, fun hk => ?child,
    fun hk => ?decimal, h.float, fun hk => ?body, fun hk => ?run, hruns ▸ h.runs,
    hopeners ▸ h.opener, fun k => ?fallback, fun k => ?action, ?settled, ?claimed, ?marks,
    fun hp => ?point⟩
  case size => simpa [← hd] using h.size
  case fresh => simpa [← hd] using hk
  case sorted => simpa [← hd] using h.sorted k
  case child =>
    rw [← hd, child?_modifyBehaviour] at hk
    simpa [← hd] using h.child hk
  case decimal => simpa [← hd] using h.decimal hk
  case body =>
    obtain ⟨hp, hrun, hrest⟩ := h.body hk
    exact ⟨hp, (hsame _).2.trans hrun, hruns ▸ hrest⟩
  case run => exact h.run ((hsame _).2.symm.trans hk)
  case fallback =>
    rw [hb]
    split
    · next hk => exact hk ▸ hfit
    · exact h.fallback k
  case action => exact (hsame k).1 ▸ h.action k
  case settled =>
    intro k hk hroot hclaim hf ha
    rw [← hd, claim?_modifyBehaviour] at hclaim
    rw [(hsame k).1] at ha
    rw [hb] at hf
    split at hf
    · exact absurd hf hne
    · next hkn => exact h.settled (fun hl => hk ⟨hl, Ne.symm hkn⟩) hroot hclaim hf ha
  case claimed =>
    intro k role hk
    rw [← hd, claim?_modifyBehaviour] at hk
    have hacts := h.claimed hk
    rw [hb]
    split
    · exact hacts.of_fallback rfl hne
    · exact hacts
  case marks =>
    intro t ht
    obtain ⟨k, role, hp, hc, hm⟩ := h.marks ht
    exact ⟨k, role, by simpa [← hd] using hp, by simpa [← hd] using hc, hm⟩
  case point => simpa [← hd] using h.point hp

/-- A node is claimed and gets its behaviour. The paths that are pruned in between belong to the
role that the node had before. -/
theorem Charted.occupy (h : Charted lexicon matchers pointed marked loose d place) {role : Role}
    {d₁ : Draft} (hP : Prunes n (d.recordClaim n role) d₁) (hn : n < d.trie.size)
    (hnumber : place n ≠ ⟨.number, []⟩)
    {f : Behaviour → Behaviour} (hrun : ∀ b, (f b).run = b.run)
    (hfit : (f (d.site n).behaviour).fallback.Fits place (place n))
    (haction : (f (d.site n).behaviour).action.Fits lexicon (place n))
    (hacts : role.Acts (f (d.site n).behaviour))
    (hmark : (∃ t, marked t) → ∀ r, d.claim? n = some r → r.IsMark → role.IsMark)
    (hpoint : pointed → n ≠ .float) :
    Charted lexicon matchers pointed marked (fun k => loose k ∧ k ≠ n) (d₁.modifyBehaviour n f)
      place := by
  have hsize : d₁.trie.size = d.trie.size := hP.size.trans (size_recordClaim role)
  have hb (k : NodeId) : ((d₁.modifyBehaviour n f).site k).behaviour =
      if n = k then f (d.site k).behaviour else (d.site k).behaviour := by
    rw [behaviour_modifyBehaviour (hsize ▸ hn), hP.behaviour, behaviour_recordClaim]
  have hclaim (k : NodeId) : (d₁.modifyBehaviour n f).claim? k =
        (if n = k then some role else d.claim? k) ∨
      (d₁.modifyBehaviour n f).claim? k = none ∧
        ∃ r, (if n = k then some role else d.claim? k) = some r ∧ r.isBoundary := by
    rw [claim?_modifyBehaviour, ← claim?_recordClaim hn]
    exact hP.claim k
  have hsame (k : NodeId) :
      ((d₁.modifyBehaviour n f).site k).behaviour.run = (d.site k).behaviour.run := by
    rw [hb]
    split
    · exact hrun _
    · rfl
  refine ⟨?size, fun hk => h.fresh ?fresh, h.origin, fun k => ?sorted, fun hk => ?child,
    fun {k} hk => ?decimal, h.float, fun hk => ?body, fun hk => ?run, fun hk => ?runs,
    fun hk => ?opener, fun k => ?fallback, fun k => ?action, ?settled, ?claimed, ?marks,
    fun hp => ?point⟩
  case size => simpa [hsize] using h.size
  case fresh => simpa [hsize] using hk
  case sorted =>
    rw [edges_modifyBehaviour]
    exact hP.sorted (by simpa using h.sorted k)
  case child =>
    rw [child?_modifyBehaviour] at hk
    simpa [hsize] using h.child (by simpa using hP.child hk)
  case decimal =>
    have hkn : k ≠ n := by
      rintro rfl
      exact hnumber hk
    rw [child?_modifyBehaviour, Trie.child?, hP.edges hkn]
    simpa [Trie.child?] using h.decimal hk
  case body =>
    obtain ⟨hp, hr, hm, hnests⟩ := h.body hk
    exact ⟨hp, (hsame _).trans hr, hm, hP.runs ▸ hnests⟩
  case run => exact h.run ((hsame _).symm.trans hk)
  case runs => exact h.runs (hP.runs ▸ hk)
  case opener => exact h.opener (hP.openers ▸ hk)
  case fallback =>
    rw [hb]
    split
    · next hk => exact hk ▸ hfit
    · exact h.fallback k
  case action =>
    rw [hb]
    split
    · next hk => exact hk ▸ haction
    · exact h.action k
  case settled =>
    intro k hk hroot hc hf ha
    rw [hb] at hf ha
    split at hf
    · next hkn =>
      rw [if_pos hkn] at ha
      exact absurd ha ((hkn ▸ hacts).busy hf)
    · next hkn =>
      rw [if_neg hkn] at ha
      rcases hclaim k with hsame | ⟨-, r, hr, -⟩
      · rw [if_neg hkn, hc] at hsame
        exact h.settled (fun hl => hk ⟨hl, Ne.symm hkn⟩) hroot hsame.symm hf ha
      · rw [if_neg hkn] at hr
        exact absurd ha ((h.claimed hr).busy hf)
  case claimed =>
    intro k r hk
    rw [hb]
    rcases hclaim k with hsame | ⟨hnone, -⟩
    · rw [hk] at hsame
      split at hsame
      · next hkn =>
        cases hsame
        rw [if_pos hkn]
        exact hkn ▸ hacts
      · next hkn =>
        rw [if_neg hkn]
        exact h.claimed hsame.symm
    · cases hk.symm.trans hnone
  case marks =>
    intro t ht
    obtain ⟨k, r, hp, hc, hm⟩ := h.marks ht
    obtain ⟨r', hr', hm'⟩ : ∃ r', (if n = k then some role else d.claim? k) = some r' ∧
        r'.IsMark := by
      by_cases hkn : n = k
      · exact ⟨role, if_pos hkn, hmark ⟨t, ht⟩ r (hkn ▸ hc) hm⟩
      · exact ⟨r, (if_neg hkn).trans hc, hm⟩
    refine ⟨k, r', ?_, ?_, hm'⟩
    · rw [follow?_modifyBehaviour]
      exact hP.follow (by simpa using hp) ((claim?_recordClaim hn role k).trans hr') hm'.isBoundary
    · rcases hclaim k with hsame | ⟨-, r'', hr'', hbound⟩
      · exact hsame.trans hr'
      · cases hr'.symm.trans hr''
        cases hm'.isBoundary.symm.trans hbound
  case point =>
    have hfloat := hclaim .float
    rw [if_neg (hpoint hp), h.point hp] at hfloat
    rcases hfloat with hsame | ⟨-, r, hr, hbound⟩
    · exact hsame
    · cases hr
      cases hbound

/-- A claimed literal is in place. -/
theorem Charted.mark (h : Charted lexicon matchers pointed marked loose d place) {t : String}
    {role : Role} (hp : d.trie.follow? .root (spelling t.toList) = some n)
    (hc : d.claim? n = some role) (hm : role.IsMark) :
    Charted lexicon matchers pointed (fun u => marked u ∨ u = t) loose d place :=
  { h with
    marks := by
      rintro u (hu | rfl)
      · exact h.marks hu
      · exact ⟨n, role, hp, hc, hm⟩ }

end Draft

end TrieLexer
