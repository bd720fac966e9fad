import TrieLexer.Proofs.Yielding

/-!
# Charts of drafts under construction

Each part of a grammar is built on a charted draft and leaves a charted draft behind. A literal is
spelled first, which may leave new nodes loose; then each of them gets a behaviour that fits its
place.

## Main definitions

* `Draft.GrowsTo` — a step leaves a charted draft behind and keeps what was there.

## Main results

* `Draft.Charted.endBefore` — the end of an open-ended token.
* `Draft.Charted.buildPrefix`, `Draft.Charted.buildKeyword` — words.
* `Draft.Charted.rootPath` — a literal spelled from the root.
-/

namespace TrieLexer

open Text (byteLength)

/-- Below a place that is not in a run, a text may turn into open-ended text of another kind. -/
theorem Locus.isFree_down {p : Locus} (h : ¬p.origin.IsBody) (s : Symbol) : (p.down s).IsFree := by
  refine ⟨down_not_isBody h s, fun heq => ?_⟩
  obtain hd | ⟨-, -, hd⟩ := p.down_eq_or s
  · rw [hd] at heq
    simp at heq
  · rw [hd] at heq
    cases heq

theorem Locus.origin_down_walk_root (path : List Symbol) (s : Symbol) :
    ((Locus.walk ⟨.root, []⟩ path).down s).origin = .root := by
  rw [walk_of_origin_ne (by simp), down_of_origin_ne (by simp)]

theorem Locus.isFree_of_root {p : Locus} (h : p.origin = .root) : p.IsFree := by
  refine ⟨h ▸ Origin.not_isBody_of_mem (by simp), fun heq => ?_⟩
  rw [heq] at h
  cases h

namespace Draft

open Assembly (yields_bind yields_pure yields_get yields_modify yields_modifyGet)

variable {lexicon : Lexicon} {matchers : List (GreedyMatcher Compilation)}
  {pointed : Prop} {marked : String → Prop} {loose : NodeId → Prop} {d d' d₁ d₂ : Draft}
  {place place' : NodeId → Locus} {n k : NodeId} {steps : List Trie.Step} {literal : String}

/-- A step leaves a charted draft behind and keeps what was there. -/
def GrowsTo (lexicon : Lexicon) (matchers : List (GreedyMatcher Compilation))
    (pointed : Prop) (marked : String → Prop) (loose : NodeId → Prop) (d : Draft)
    (place : NodeId → Locus)
    (d' : Draft) : Prop :=
  ∃ place', Charted lexicon matchers pointed marked loose d' place' ∧ d.Grows place d' place'

theorem GrowsTo.loosen (h : GrowsTo lexicon matchers pointed marked loose d place d')
    {loose' : NodeId → Prop} (hl : ∀ n, loose n → loose' n) :
    GrowsTo lexicon matchers pointed marked loose' d place d' := by
  obtain ⟨place', h, hgrows⟩ := h
  exact ⟨place', h.loosen hl, hgrows⟩

theorem Grows.modifyBehaviour (h : d.Grows place d' place') (f : Behaviour → Behaviour) :
    d.Grows place (d'.modifyBehaviour n f) place' :=
  ⟨by simpa using h.size, h.place, fun hc => by simpa using h.child hc⟩

/-- What fits goes on fitting. -/
theorem Grows.fits (hg : d.Grows place d' place')
    (h : Charted lexicon matchers pointed marked loose d place) {p : Locus} {f : Fallback}
    (hf : f.Fits place p) : f.Fits place' p :=
  fits_mono hf fun _ _ _ hb => hg.place (h.lt_size_of_isBody (hb ▸ ⟨_, _, _, rfl⟩))

theorem Charted.place_root (h : Charted lexicon matchers pointed marked loose d place) :
    place .root = ⟨.root, []⟩ :=
  h.origin (o := .root) (Origin.not_isBody_of_mem (by simp))

theorem Charted.place_float (h : Charted lexicon matchers pointed marked loose d place) :
    place .float = ⟨.float, []⟩ :=
  h.origin (o := .float) (Origin.not_isBody_of_mem (by simp))

theorem Charted.root_lt_size (h : Charted lexicon matchers pointed marked loose d place) :
    NodeId.root < d.trie.size :=
  Nat.lt_of_lt_of_le (by decide) h.size

/-! ### Claims -/

/-- A claim that is carried out. -/
theorem Charted.assign (h : Charted lexicon matchers pointed marked loose d place)
    {policy : ConflictPolicy} {role : Role}
    (hy : (Assembly.claim policy n literal role).Yields d true d₁) (hp : Prunes n d₁ d₂)
    (hn : n < d.trie.size) (hnumber : place n ≠ ⟨.number, []⟩)
    (f : Behaviour → Behaviour) (hrun : ∀ b, (f b).run = b.run)
    (hfit : (f (d.site n).behaviour).fallback.Fits place (place n))
    (haction : (f (d.site n).behaviour).action.Fits lexicon (place n))
    (hacts : role.Acts (f (d.site n).behaviour))
    (hmark : role.IsMark ∨ role.isWeak ∨ ¬∃ t, marked t) (hpoint : pointed → n ≠ .float) :
    Charted lexicon matchers pointed marked (fun k => loose k ∧ k ≠ n) (d₂.modifyBehaviour n f)
      place := by
  rcases hy.claim with ⟨-, ⟨ws, rfl⟩, hold⟩ | ⟨⟨⟩, -⟩
  have hwarn : Prunes n (d.recordClaim n role) { d.recordClaim n role with warnings := ws } :=
    ⟨rfl, rfl, rfl, id, fun _ => rfl, id, fun _ => rfl, fun _ => .inl rfl, fun h _ _ => h⟩
  refine h.occupy (hwarn.trans hp) hn hnumber hrun hfit haction hacts (fun ht r hr hm => ?_)
    hpoint
  rcases hmark with hmark | hweak | hnone
  · exact hmark
  · rcases hold hweak r hr with rfl | hrweak
    · exact hm
    · cases hm.isWeak.symm.trans hrweak
  · exact absurd ht hnone

/-- A node with a claim that is carried out is claimed. -/
theorem claim?_of_yields {policy : ConflictPolicy} {role : Role}
    (hy : (Assembly.claim policy n literal role).Yields d true d₁) (hn : n < d.trie.size) :
    d₁.claim? n = some role := by
  rcases hy.claim with ⟨-, ⟨ws, rfl⟩, -⟩ | ⟨⟨⟩, -⟩
  exact (claim?_recordClaim hn role n).trans (if_pos rfl)

theorem Grows.claim {policy : ConflictPolicy} {role : Role} {ok : Bool}
    (hy : (Assembly.claim policy n literal role).Yields d ok d₁) :
    d.Grows place d₁ place := by
  rcases hy.claim with ⟨-, ⟨ws, rfl⟩, -⟩ | ⟨-, rfl, -⟩
  · exact ⟨by simp, fun _ => rfl, fun hc => by simpa using hc⟩
  · exact .refl d₁ place

/-- A claim that is given up. -/
theorem Charted.decline (h : Charted lexicon matchers pointed marked loose d place)
    {policy : ConflictPolicy} {role : Role}
    (hy : (Assembly.claim policy n literal role).Yields d false d₁) :
    Charted lexicon matchers pointed marked (fun k => loose k ∧ k ≠ n) d₁ place := by
  rcases hy.claim with ⟨⟨⟩, -⟩ | ⟨-, rfl, -, r, hr, -⟩
  exact h.tighten hr

/-- Only weak claims are given up. -/
theorem isWeak_of_yields {policy : ConflictPolicy} {role : Role}
    (hy : (Assembly.claim policy n literal role).Yields d false d₁) : role.isWeak := by
  rcases hy.claim with ⟨⟨⟩, -⟩ | ⟨-, -, hweak, -⟩
  exact hweak

/-! ### Spelling literals -/

/-- Among the new nodes only the last is not before the last. -/
theorem eq_of_new {last : Trie.Step} (hlast : steps.getLast? = some last) (h : New steps k)
    (hk : ¬New steps.dropLast k) : k = last.node := by
  obtain ⟨before, rfl⟩ := List.getLast?_eq_some_iff.1 hlast
  obtain ⟨step, hstep, hcreated, rfl⟩ := h
  rw [List.dropLast_concat] at hk
  rcases List.mem_append.1 hstep with hstep | hstep
  · exact absurd ⟨step, hstep, hcreated, rfl⟩ hk
  · rw [List.mem_singleton.1 hstep]

/-- A loop whose rounds give behaviours to some nodes each. -/
theorem Charted.forM {β : Type} {f : β → Assembly PUnit} {xs : List β}
    (h : Charted lexicon matchers pointed marked loose d place) (gone : β → NodeId → Prop)
    (hf : ∀ x ∈ xs, ∀ {loose : NodeId → Prop} {d₁ d₂ : Draft} {place₁ : NodeId → Locus},
      Charted lexicon matchers pointed marked loose d₁ place₁ → d.Grows place d₁ place₁ →
      (f x).Yields d₁ ⟨⟩ d₂ →
      GrowsTo lexicon matchers pointed marked (fun k => loose k ∧ ¬gone x k) d₁ place₁ d₂)
    (hy : (xs.forM f).Yields d ⟨⟩ d') :
    GrowsTo lexicon matchers pointed marked (fun k => loose k ∧ ∀ x ∈ xs, ¬gone x k)
      d place d' := by
  induction xs generalizing d place loose with
  | nil =>
    obtain ⟨-, rfl⟩ := yields_pure.1 hy
    exact ⟨place, h.loosen fun k hk => ⟨hk, nofun⟩, .refl d place⟩
  | cons x xs ih =>
    obtain ⟨⟨⟩, d₁, hx, hxs⟩ := yields_bind.1 hy
    obtain ⟨place₁, h₁, hg₁⟩ := hf x List.mem_cons_self h (.refl d place) hx
    obtain ⟨place₂, h₂, hg₂⟩ := ih h₁
      (fun y hy' _ _ _ _ h' hg' => hf y (List.mem_cons_of_mem _ hy') h' (hg₁.trans hg')) hxs
    refine ⟨place₂, h₂.loosen fun k hk => ⟨hk.1.1, fun y hy' => ?_⟩, hg₁.trans hg₂⟩
    rcases List.mem_cons.1 hy' with rfl | hmem
    · exact hk.1.2
    · exact hk.2 y hmem

theorem site_extend {symbols : List Symbol} {t : Trie Site}
    (he : d.trie.extend n symbols = (t, steps)) (k : NodeId) :
    ({ d with trie := t } : Draft).site k = d.site k := by
  induction symbols generalizing d n t steps with
  | nil =>
    cases he
    rfl
  | cons s symbols ih =>
    rw [Trie.extend, Trie.addChild] at he
    cases hc : d.trie.child? n s with
    | some m =>
      rw [hc] at he
      cases hrest : d.trie.extend m symbols with
      | mk t' steps' =>
        dsimp only at he
        rw [hrest] at he
        cases he
        exact ih hrest
    | none =>
      rw [hc] at he
      cases hrest : (d.bindNew n s).trie.extend d.trie.size symbols with
      | mk t' steps' =>
        rw [bindNew] at hrest
        dsimp only [Trie.alloc_snd] at he
        rw [hrest] at he
        cases he
        exact (ih (d := d.bindNew n s) hrest).trans (site_bindNew s k)

/-- Spelling a literal changes no node that is there. -/
theorem site_of_path (hy : (Assembly.path n literal.toList).Yields d steps d') (k : NodeId) :
    d'.site k = d.site k := by
  have hrun := yields_modifyGet.1 hy
  rw [Trie.path] at hrun
  cases he : d.trie.extend n (spelling literal.toList) with
  | mk t steps₁ =>
    rw [he] at hrun
    cases hrun
    exact site_extend he k

/-- The nodes along a literal. -/
theorem Charted.path (h : Charted lexicon matchers pointed marked loose d place)
    (hn : n < d.trie.size) (hy : (Assembly.path n literal.toList).Yields d steps d') :
    ∃ place', Charted lexicon matchers pointed marked (fun k => loose k ∨ New steps k) d' place' ∧
      d.Grows place d' place' ∧ d'.trie.Trail n (spelling literal.toList) steps := by
  have hrun := yields_modifyGet.1 hy
  rw [Trie.path] at hrun
  cases he : d.trie.extend n (spelling literal.toList) with
  | mk t steps₁ =>
    rw [he] at hrun
    cases hrun
    exact h.extend hn he

/-- New nodes before the last one send symbols without a child elsewhere. -/
theorem Charted.rerouteCreated (h : Charted lexicon matchers pointed marked loose d place)
    {target : NodeId} (hsteps : ∀ step ∈ steps, step.node < d.trie.size ∧
      (Fallback.reroute target).Fits place (place step.node))
    (hy : (Lexicon.rerouteCreated steps target).Yields d ⟨⟩ d') :
    GrowsTo lexicon matchers pointed marked (fun k => loose k ∧ ¬New steps.dropLast k)
      d place d' := by
  refine (h.forM (fun step k => step.created = true ∧ step.node = k) (fun step hstep => ?_)
    hy).loosen fun k hk => ⟨hk.1, fun ⟨step, hstep, hnew⟩ => hk.2 step hstep hnew⟩
  obtain ⟨hsize, hfit⟩ := hsteps step (List.dropLast_subset _ hstep)
  intro loose₁ d₁ d₂ place₁ h₁ hg₁ hy₁
  split at hy₁
  · obtain rfl := yields_modify.1 hy₁
    have hfit₁ := hg₁.fits h hfit
    rw [← hg₁.place hsize] at hfit₁
    have h₂ := h₁.reroute (Nat.lt_of_lt_of_le hsize hg₁.size) (f := .reroute target) nofun hfit₁
    exact ⟨place₁, h₂.loosen fun k hk => ⟨hk.1, fun hnew => hk.2 hnew.2.symm⟩,
      (Grows.refl d₁ place₁).modifyBehaviour _⟩
  · next hcreated =>
    obtain ⟨-, rfl⟩ := yields_pure.1 hy₁
    exact ⟨place₁, h₁.loosen fun k hk => ⟨hk, fun hnew => hcreated hnew.1⟩, .refl d₁ place₁⟩

/-- A literal is spelled; only its last node may be left loose. -/
theorem Charted.spell (h : Charted lexicon matchers pointed marked loose d place)
    (hn : n < d.trie.size) {target : NodeId}
    (hfit : ∀ path s, (Fallback.reroute target).Fits place (((place n).walk path).down s))
    (hpath : (Assembly.path n literal.toList).Yields d steps d₁)
    (hy : (Lexicon.rerouteCreated steps target).Yields d₁ ⟨⟩ d') :
    ∃ last place', steps.getLast? = some last ∧
      Charted lexicon matchers pointed marked (fun k => loose k ∨ k = last.node) d' place' ∧
      d.Grows place d' place' ∧ last.node < d'.trie.size ∧
      place' last.node = (place n).walk (spelling literal.toList) := by
  obtain ⟨place₁, h₁, hg₁, htrail⟩ := h.path hn hpath
  have hn₁ := Nat.lt_of_lt_of_le hn hg₁.size
  obtain ⟨place₂, h₂, hg₂⟩ := h₁.rerouteCreated (fun step hstep => by
    obtain ⟨hsize, path, s, -, hp⟩ := h₁.trail htrail hstep
    rw [hp, hg₁.place hn]
    exact ⟨hsize, hg₁.fits h (hfit path s)⟩) hy
  obtain ⟨last, hlast, hfollow⟩ := htrail.getLast? (spelling_ne_nil _)
  obtain ⟨hsize, hp⟩ := h₂.follow? (hg₂.follow? hfollow) (Nat.lt_of_lt_of_le hn₁ hg₂.size)
  rw [hg₂.place hn₁, hg₁.place hn] at hp
  refine ⟨last, place₂, hlast, h₂.loosen fun k hk => hk.1.imp_right fun hnew => ?_,
    hg₁.trans hg₂, hsize, hp⟩
  exact eq_of_new hlast hnew hk.2

/-! ### Open-ended tokens -/

/-- The end of an open-ended token. -/
theorem Charted.endBefore (h : Charted lexicon matchers pointed marked loose d place)
    (hn : n < d.trie.size) (hbody : ¬(place n).origin.IsBody) {label : Label} {weak : Bool}
    {terminator : String} (ht : terminator ∈ lexicon.terminators)
    (hweak : weak = true ∨ ¬∃ t, marked t) (hpoint : pointed → (place n).origin ≠ .number)
    (hy : (lexicon.endBefore n label weak terminator).Yields d ⟨⟩ d') :
    GrowsTo lexicon matchers pointed marked loose d place d' := by
  obtain ⟨steps, d₁, hpath, hy₁⟩ := yields_bind.1 hy
  obtain ⟨⟨⟩, d₂, hre, hy₂⟩ := yields_bind.1 hy₁
  obtain ⟨last, place₂, hlast, h₂, hg₂, hsize, hp⟩ := h.spell hn (fun path s =>
    .unknown (Locus.isFree_down (Locus.walk_not_isBody hbody path) s)) hpath hre
  rw [hlast] at hy₂
  obtain ⟨ok, d₃, hclaim, hy₃⟩ := yields_bind.1 hy₂
  cases ok with
  | false =>
    obtain ⟨-, rfl⟩ := yields_pure.1 hy₃
    exact ⟨place₂, (h₂.decline hclaim).loosen fun k hk => hk.1.resolve_right hk.2,
      hg₂.trans (.claim hclaim)⟩
  | true =>
    obtain rfl := yields_modify.1 hy₃
    have hrole : Role.isWeak (if weak then .weakBoundary label else .boundary label) ∨
        ¬∃ t, marked t := hweak.imp_left fun hw => by rw [hw]; rfl
    have h₃ := h₂.assign hclaim (.refl _ d₃) hsize
      (hp ▸ Locus.walk_ne_number _ (spelling_ne_nil _))
      (fun b =>
        { b with action := .boundary label (byteLength terminator.toList), fallback := .stay })
      (fun _ => rfl) .stay (.boundary ht hbody hp label)
      (by cases weak <;> exact ⟨_, rfl⟩) (.inr hrole) fun hpointed heq => by
        rw [Locus.walk_of_origin_ne (hpoint hpointed), heq, h₂.place_float] at hp
        exact absurd (Locus.mk.inj hp).2.symm (by simp [spelling_ne_nil])
    exact ⟨place₂, h₃.loosen fun k hk => hk.1.resolve_right hk.2,
      (hg₂.trans (.claim hclaim)).modifyBehaviour _⟩

theorem Charted.endBeforeTerminators (h : Charted lexicon matchers pointed marked loose d place)
    (hn : n < d.trie.size) (hbody : ¬(place n).origin.IsBody) {label : Label} {weak : Bool}
    (hweak : weak = true ∨ ¬∃ t, marked t) (hpoint : pointed → (place n).origin ≠ .number)
    (hy : (lexicon.endBeforeTerminators n label weak).Yields d ⟨⟩ d') :
    GrowsTo lexicon matchers pointed marked loose d place d' := by
  refine (h.forM (fun _ _ => False) (fun t ht => ?_) hy).loosen fun k hk => hk.1
  intro loose₁ d₁ d₂ place₁ h₁ hg₁ hy₁
  have hp := hg₁.place hn
  exact (h₁.endBefore (Nat.lt_of_lt_of_le hn hg₁.size) (hp ▸ hbody) ht hweak (hp ▸ hpoint)
    hy₁).loosen fun k hk => ⟨hk, id⟩

/-! ### Words -/

/-- A node is an identifier so far. -/
theorem Charted.assignWord (h : Charted lexicon matchers pointed marked loose d place)
    (hn : n < d.trie.size) (hroot : (place n).origin = .root) {policy : ConflictPolicy}
    {role : Role} (hclaim : (Assembly.claim policy n literal role).Yields d true d₁)
    (hrole : role.isWeak ∨ ¬∃ t, marked t)
    (hacts : ∀ b : Behaviour,
      role.Acts { b with action := .none, fallback := Lexicon.identifierFallback }) :
    Charted lexicon matchers pointed marked (fun k => loose k ∧ k ≠ n)
      (d₁.modifyBehaviour n fun b =>
        { b with action := .none, fallback := Lexicon.identifierFallback }) place :=
  h.assign hclaim (.refl _ d₁) hn (fun heq => by rw [heq] at hroot; cases hroot)
    (fun b => { b with action := .none, fallback := Lexicon.identifierFallback })
    (fun _ => rfl) (.identifier (Locus.isFree_of_root hroot)) .none (hacts _) (.inr hrole)
    fun _ heq => by rw [heq, h.place_float] at hroot; cases hroot

/-- A node that claims go out to and that then ends open-ended tokens. -/
theorem Charted.openEnded (h : Charted lexicon matchers pointed marked loose d place)
    (hn : n < d.trie.size) (hroot : (place n).origin = .root) {policy : ConflictPolicy}
    {role : Role} {ok : Bool} (hclaim : (Assembly.claim policy n literal role).Yields d ok d₁)
    {label : Label} {weak : Bool} (hweak : weak = true ∨ ¬∃ t, marked t)
    (hrole : role.isWeak ∨ ¬∃ t, marked t)
    (hacts : ∀ b : Behaviour,
      role.Acts { b with action := .none, fallback := Lexicon.identifierFallback })
    (hy : (if ok = true then do
        Assembly.modifyBehaviour n fun b =>
          { b with action := .none, fallback := Lexicon.identifierFallback }
        lexicon.endBeforeTerminators n label weak
      else pure PUnit.unit : Assembly PUnit).Yields d₁ ⟨⟩ d') :
    GrowsTo lexicon matchers pointed marked (fun k => loose k ∧ k ≠ n) d place d' := by
  cases ok with
  | false =>
    obtain ⟨-, rfl⟩ := yields_pure.1 hy
    exact ⟨place, h.decline hclaim, .claim hclaim⟩
  | true =>
    obtain ⟨⟨⟩, d₂, hmod, hy₂⟩ := yields_bind.1 hy
    obtain rfl := yields_modify.1 hmod
    have h₂ := h.assignWord hn hroot hclaim hrole hacts
    have hg₂ : d.Grows place _ place := (Grows.claim hclaim).modifyBehaviour (n := n) fun b =>
      { b with action := .none, fallback := Lexicon.identifierFallback }
    obtain ⟨place', h', hg'⟩ := h₂.endBeforeTerminators (Nat.lt_of_lt_of_le hn hg₂.size)
      (Locus.isFree_of_root hroot).1 hweak (fun _ => by rw [hroot]; exact nofun) hy₂
    exact ⟨place', h', hg₂.trans hg'⟩

/-- A proper beginning of a keyword. -/
theorem Charted.buildPrefix (h : Charted lexicon matchers pointed marked loose d place)
    (hn : n < d.trie.size) (hroot : (place n).origin = .root) {text : String}
    (hy : (lexicon.buildPrefix n text).Yields d ⟨⟩ d') :
    GrowsTo lexicon matchers pointed marked (fun k => loose k ∧ k ≠ n) d place d' := by
  obtain ⟨_, _, hget, hy₁⟩ := yields_bind.1 hy
  obtain ⟨rfl, rfl⟩ := yields_get.1 hget
  split at hy₁
  · next hclaim =>
    obtain ⟨-, rfl⟩ := yields_pure.1 hy₁
    exact ⟨place, h.tighten hclaim, .refl d place⟩
  · obtain ⟨ok, d₂, hclaim, hy₂⟩ := yields_bind.1 hy₁
    exact h.openEnded hn hroot hclaim (.inl rfl) (.inl rfl) (fun _ => ⟨rfl, nofun⟩) hy₂

theorem mem_of_mem_properPrefixes {x : Trie.Step × String}
    (hx : x ∈ Lexicon.properPrefixes literal steps) : x.1 ∈ steps := by
  obtain ⟨⟨step, i⟩, hi, rfl⟩ := List.mem_map.1 hx
  exact List.dropLast_subset _ (List.fst_mem_of_mem_zipIdx hi)

theorem exists_mem_properPrefixes {step : Trie.Step} (hstep : step ∈ steps.dropLast) :
    ∃ text, (step, text) ∈ Lexicon.properPrefixes literal steps := by
  rw [← List.zipIdx_map_fst 0 steps.dropLast] at hstep
  obtain ⟨⟨step, i⟩, hi, rfl⟩ := List.mem_map.1 hstep
  exact ⟨_, List.mem_map.2 ⟨_, hi, rfl⟩⟩

/-- A keyword. -/
theorem Charted.buildKeyword (h : Charted lexicon matchers pointed marked loose d place)
    (hmarked : ¬∃ t, marked t) {label : Label}
    (hy : (lexicon.buildKeyword label literal).Yields d ⟨⟩ d') :
    GrowsTo lexicon matchers pointed marked loose d place d' := by
  obtain ⟨steps, d₁, hpath, hy₁⟩ := yields_bind.1 hy
  obtain ⟨⟨⟩, d₂, hloop, hy₂⟩ := yields_bind.1 hy₁
  obtain ⟨place₁, h₁, hg₁, htrail⟩ := h.path h.root_lt_size hpath
  have hroot {step : Trie.Step} (hstep : step ∈ steps) :
      step.node < d₁.trie.size ∧ (place₁ step.node).origin = .root := by
    obtain ⟨hsize, path, s, -, hp⟩ := h₁.trail htrail hstep
    exact ⟨hsize, by rw [hp, h₁.place_root, Locus.origin_down_walk_root]⟩
  obtain ⟨place₂, h₂, hg₂⟩ := h₁.forM (fun x k => k = x.1.node) (fun x hx => by
    obtain ⟨hsize, hx⟩ := hroot (mem_of_mem_properPrefixes hx)
    intro loose₁ d₂ d₃ place₂ h₂ hg₂ hy₂
    exact h₂.buildPrefix (Nat.lt_of_lt_of_le hsize hg₂.size) (hg₂.place hsize ▸ hx) hy₂) hloop
  obtain ⟨last, hlast, -⟩ := htrail.getLast? (spelling_ne_nil _)
  obtain ⟨hsize, hx⟩ := hroot (List.mem_of_getLast? hlast)
  rw [hlast] at hy₂
  obtain ⟨ok, d₃, hclaim, hy₃⟩ := yields_bind.1 hy₂
  obtain ⟨place₃, h₃, hg₃⟩ := h₂.openEnded (Nat.lt_of_lt_of_le hsize hg₂.size)
    (hg₂.place hsize ▸ hx) hclaim (.inr hmarked) (.inr hmarked) (fun _ => ⟨rfl, nofun⟩) hy₃
  refine ⟨place₃, h₃.loosen fun k hk => ?_, hg₁.trans (hg₂.trans hg₃)⟩
  obtain ⟨⟨hl | hnew, hgone⟩, hk⟩ := hk
  · exact hl
  · refine absurd (eq_of_new hlast hnew fun hdrop => ?_) hk
    obtain ⟨step, hstep, -, rfl⟩ := hdrop
    obtain ⟨text, htext⟩ := exists_mem_properPrefixes hstep
    exact hgone _ htext rfl

/-- A literal is spelled from the root; only its last node may be left loose. -/
theorem Charted.rootPath (h : Charted lexicon matchers pointed marked loose d place)
    (hy : (lexicon.rootPath literal).Yields d n d') :
    ∃ place', Charted lexicon matchers pointed marked (fun k => loose k ∨ k = n) d' place' ∧
      d.Grows place d' place' ∧ n < d'.trie.size ∧
      place' n = ⟨.root, spelling literal.toList⟩ ∧
      d'.trie.follow? .root (spelling literal.toList) = some n := by
  obtain ⟨steps, d₁, hpath, hy₁⟩ := yields_bind.1 hy
  obtain ⟨⟨⟩, d₂, hloop, hy₂⟩ := yields_bind.1 hy₁
  obtain ⟨rfl, rfl⟩ := yields_pure.1 hy₂
  obtain ⟨place₁, h₁, hg₁, htrail⟩ := h.path h.root_lt_size hpath
  obtain ⟨place₂, h₂, hg₂⟩ := h₁.forM
    (fun x k => x.1.created = true ∧ k = x.1.node) (fun x hx => by
    obtain ⟨step, text⟩ := x
    obtain ⟨hsize, path, s, -, hp⟩ := h₁.trail htrail (mem_of_mem_properPrefixes hx)
    have hroot : (place₁ step.node).origin = .root := by
      rw [hp, h₁.place_root, Locus.origin_down_walk_root]
    intro loose₁ d₂ d₃ place₂ h₂ hg₂ hy₂
    dsimp only at hy₂
    rw [← hg₂.place hsize] at hroot
    replace hsize := Nat.lt_of_lt_of_le hsize hg₂.size
    split at hy₂
    · next hcreated =>
      obtain ⟨-, rfl⟩ := yields_pure.1 hy₂
      exact ⟨place₂, h₂.loosen fun k hk => ⟨hk, fun hgone =>
        absurd hgone.1 (by simpa using hcreated)⟩, .refl d₂ place₂⟩
    · split at hy₂
      · exact (h₂.buildPrefix hsize hroot hy₂).loosen
          fun k hk => ⟨hk.1, fun hgone => hk.2 hgone.2⟩
      · obtain rfl := yields_modify.1 hy₂
        have h₃ :=
          h₂.reroute hsize (f := .reroute .unknown) nofun (.unknown (Locus.isFree_of_root hroot))
        exact ⟨place₂, h₃.loosen fun k hk => ⟨hk.1, fun hgone => hk.2 hgone.2⟩,
          (Grows.refl d₂ place₂).modifyBehaviour _⟩) hloop
  obtain ⟨last, hlast, hfollow⟩ := htrail.getLast? (spelling_ne_nil _)
  have hfollow₂ := hg₂.follow? hfollow
  obtain ⟨hsize, hp⟩ := h₂.follow? hfollow₂ h₂.root_lt_size
  rw [h₂.place_root, Locus.walk_of_origin_ne (by simp)] at hp
  rw [hlast]
  refine ⟨place₂, h₂.loosen fun k hk => hk.1.imp_right fun hnew => ?_, hg₁.trans hg₂, hsize, hp,
    hfollow₂⟩
  refine eq_of_new hlast hnew fun hdrop => ?_
  obtain ⟨step, hstep, hcreated, rfl⟩ := hdrop
  obtain ⟨text, htext⟩ := exists_mem_properPrefixes hstep
  exact hk.2 _ htext ⟨hcreated, rfl⟩

end Draft

end TrieLexer
