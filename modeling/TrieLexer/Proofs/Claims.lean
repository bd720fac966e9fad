import TrieLexer.Proofs.Chunking
import TrieLexer.Proofs.Truthful

/-!
# Claims in a whole draft

Each part of a grammar keeps the claims of a draft truthful. What is spelled anew is unclaimed until
its role is recorded, a node on the way is rerouted while it is unclaimed or merely ends an
identifier in the making, and the body of a run is a new start that nothing leads to. When the
openers are settled, every node that text passes through without a claim leads on.

## Main definitions

* `Draft.IsBody`, `Draft.IsOrigin` — the body of a run, and all nodes that text begins at.
* `Draft.Truthful` — the claims of a draft tell what its nodes do.
* `Draft.settled` — what is left when the openers are settled.
* `Draft.Spelled` — a literal has been spelled.

## Main results

* `Lexicon.tells_rootPath`, `Lexicon.tells_endRun`, … — the parts of a grammar.
* `Draft.Stages.truthful` — a draft is truthful when everything but the leading point is built.
* `Lexicon.claim_table` — what claimed and unclaimed nodes do in the end.
-/

namespace TrieLexer

/-! ### Spelling -/

namespace Trie

variable {t t' : Trie Site} {b : NodeId} {p q r symbols : List Symbol} {steps : List Step}

theorem Under.trans {n m : NodeId} (h : t.Under b n) (h' : t.Under n m) : t.Under b m := by
  obtain ⟨p, hp⟩ := h
  obtain ⟨q, hq⟩ := h'
  exact ⟨p ++ q, by rw [follow?_append, hp]; exact hq⟩

/-- What a walk creates was not there before. -/
theorem Walked.size_le (hw : t.Walked t' b p symbols steps) (he : t.Extends b q r t')
    {step : Step} (hstep : step ∈ steps) (hnew : step.created = true) : t.size ≤ step.node := by
  induction hw with
  | nil p => cases hstep
  | cons hnode hcreated hw ih =>
    rcases List.mem_cons.1 hstep with rfl | hstep
    · rcases he.fresh hnode with hold | ⟨hle, -⟩
      · rw [hcreated, hold] at hnew
        cases hnew
      · exact hle
    · exact ih hstep

/-- A walk comes to each node once. -/
theorem Walked.nodup (hw : t.Walked t' b p symbols steps) (h : t'.Forest) :
    (steps.map Step.node).Nodup := by
  induction hw with
  | nil p => exact List.nodup_nil
  | @cons p symbols s step steps hnode hcreated hw ih =>
    rw [List.map_cons, List.nodup_cons]
    refine ⟨fun hmem => ?_, ih⟩
    obtain ⟨later, hlater, heq⟩ := List.mem_map.1 hmem
    obtain ⟨q, hq, hnode'⟩ := hw.exists_along hlater
    rw [heq] at hnode'
    exact not_along_self _ _ (h.follow?_inj hnode hnode' ▸ hq)

end Trie

/-- A literal has been spelled: its nodes are there, each of them once, and the new ones are
unclaimed. -/
structure Draft.Spelled (bodies : NodeId → Prop) (d : Draft) (steps : List Trie.Step)
    (d' : Draft) : Prop where
  forest : d'.trie.Forest
  truthful : d'.trie.Truthful bodies fun _ => False
  site (n : NodeId) : d'.site n = d.site n
  lt {step : Trie.Step} (h : step ∈ steps) : step.node < d'.trie.size
  fresh {step : Trie.Step} (h : step ∈ steps) (hnew : step.created = true) :
    d'.claim? step.node = none
  nodup : (steps.map Trie.Step.node).Nodup

namespace Draft

open Assembly (yields_bind yields_pure yields_modify)

variable {bodies : NodeId → Prop} {d d₁ d' : Draft} {n k : NodeId} {steps : List Trie.Step}
  {literal : String}

theorem Soft.of_claim?_eq_none (h : d.claim? n = none) : d.Soft n :=
  fun _ hrole => nomatch h.symm.trans hrole

/-- What spelling a literal does. -/
theorem spelled_of_yields (hf : d.trie.Forest) (hn : n < d.trie.size)
    (h : d.trie.Truthful bodies fun _ => False)
    (hy : (Assembly.path n literal.toList).Yields d steps d') : d.Spelled bodies steps d' := by
  obtain ⟨he, hw⟩ := extends_path (p := []) hf hn rfl hy
  refine ⟨he.forest, h.extend he, site_of_path hy, fun hstep => ?_, fun {step} hstep hnew => ?_,
    hw.nodup he.forest⟩
  · obtain ⟨q, -, hq⟩ := hw.exists_along hstep
    exact he.forest.lt_size_of_follow? (Nat.lt_of_lt_of_le hn he.size) hq
  · rw [claim?, site_of_path hy, site_of_size_le (hw.size_le he hstep hnew)]

/-- New nodes before the last one are rerouted. -/
theorem truthful_rerouteCreated {target : NodeId}
    (hlt : ∀ step ∈ steps, step.node < d.trie.size)
    (hsoft : ∀ step ∈ steps, step.created = true → d.Soft step.node)
    (h : d.trie.Truthful bodies fun _ => False)
    (hy : (Lexicon.rerouteCreated steps target).Yields d ⟨⟩ d') :
    (d'.trie.Truthful bodies fun _ => False) ∧ d'.trie.size = d.trie.size ∧
      ∀ k, d'.claim? k = d.claim? k := by
  replace hlt : ∀ step ∈ steps.dropLast, step.node < d.trie.size :=
    fun step hstep => hlt step (List.mem_of_mem_dropLast hstep)
  replace hsoft : ∀ step ∈ steps.dropLast, step.created = true → d.Soft step.node :=
    fun step hstep => hsoft step (List.mem_of_mem_dropLast hstep)
  rw [Lexicon.rerouteCreated] at hy
  generalize steps.dropLast = way at hlt hsoft hy
  induction way generalizing d with
  | nil =>
    obtain ⟨-, rfl⟩ := yields_pure.1 hy
    exact ⟨h, rfl, fun _ => rfl⟩
  | cons step way ih =>
    rw [List.forall_mem_cons] at hlt hsoft
    obtain ⟨⟨⟩, d₁, hfirst, hy⟩ := yields_bind.1 hy
    dsimp only at hfirst
    split at hfirst
    · next hnew =>
      obtain rfl := yields_modify.1 hfirst
      obtain ⟨h', hsize, hclaim⟩ := ih (truthful_reroute hlt.1 h (hsoft.1 hnew) target)
        (by simpa using hlt.2) (fun step hstep hnew =>
          soft_modifyBehaviour.2 (hsoft.2 step hstep hnew)) hy
      exact ⟨h', by simpa using hsize, fun k => by simpa using hclaim k⟩
    · obtain ⟨-, rfl⟩ := yields_pure.1 hfirst
      exact ih h hlt.2 hsoft.2 hy

end Draft

/-! ### The parts of a grammar -/

namespace Lexicon

open Assembly (Tells tells_pure tells_get tells_ite tells_forM tells_assign tells_assign_then
  tells_replace yields_bind yields_pure yields_modify plants_pure plants_get plants_ite plants_claim
  plants_behave)

variable {lexicon : Lexicon} {bodies touched : NodeId → Prop} {d : Draft} {n : NodeId}

/-- A literal is spelled, and its last node takes a role. -/
theorem tells_end (hn : n < d.trie.size) {policy : ConflictPolicy} {literal : String}
    {target : NodeId} {role : Role} {b : Behaviour → Behaviour}
    (hdescribes : ∀ c, role.Describes bodies (b c))
    (hplain : ∀ c, c.fallback ≠ .dispatch → (b c).fallback ≠ .dispatch)
    (ht : (∀ k, touched k) ∨ ∃ label, role = .weakBoundary label) :
    Tells bodies touched d (do
      let steps ← Assembly.path n literal.toList
      rerouteCreated steps target
      match steps.getLast? with
      | none => pure ⟨⟩
      | some last =>
        if ← Assembly.claim policy last.node literal role then
          Assembly.modifyBehaviour last.node b) := by
  refine ⟨fun {d' _} hf h hy => ?_⟩
  obtain ⟨steps, d₁, hpath, hy⟩ := yields_bind.1 hy
  obtain ⟨⟨⟩, d₂, hre, hy⟩ := yields_bind.1 hy
  have hs := Draft.spelled_of_yields hf hn h hpath
  obtain ⟨h₂, hsize, hclaim⟩ := Draft.truthful_rerouteCreated (fun step => hs.lt)
    (fun step hstep hnew => .of_claim?_eq_none (hs.fresh hstep hnew)) hs.truthful hre
  have hf₂ := ((plants_rerouteCreated steps target).plants hs.forest hre).1.forest
  have hsoft (k : NodeId) (hk : d.Soft k) : d₂.Soft k :=
    hk.of_claim? ((hclaim k).trans (congrArg Site.claim (hs.site k)))
  cases hlast : steps.getLast? with
  | none =>
    rw [hlast] at hy
    obtain ⟨-, rfl⟩ := yields_pure.1 hy
    exact ⟨h₂, fun k _ => hsoft k⟩
  | some last =>
    rw [hlast] at hy
    have htells : Tells bodies touched d₂ (Assembly.claim policy last.node literal role >>=
        fun ok => if ok then Assembly.modifyBehaviour last.node b else pure ⟨⟩) :=
      tells_assign (hsize ▸ hs.lt (List.mem_of_getLast? hlast)) hdescribes hplain
        (ht.imp_left fun ht => ht last.node)
    obtain ⟨h', hsoft'⟩ := htells.tells hf₂ h₂ hy
    exact ⟨h', fun k hk hsk => hsoft' k hk (hsoft k hsk)⟩

/-- The end of an open-ended token before a terminator. -/
theorem tells_endBefore (hn : n < d.trie.size) (label : Label) {weak : Bool} (terminator : String)
    (ht : (∀ k, touched k) ∨ weak = true) :
    Tells bodies touched d (lexicon.endBefore n label weak terminator) := by
  refine tells_end hn (fun c => ?_) (fun _ _ => nofun) (ht.imp_right fun hw => ⟨label, if_pos hw⟩)
  cases weak <;> exact ⟨_, rfl⟩

theorem tells_endBeforeTerminators (hn : n < d.trie.size) (label : Label) {weak : Bool}
    (ht : (∀ k, touched k) ∨ weak = true) :
    Tells bodies touched d (lexicon.endBeforeTerminators n label weak) :=
  tells_forM (fun _ _ _ hsize => plants_endBefore (Nat.lt_of_lt_of_le hn hsize) _ _ _)
    fun terminator _ _ hsize => tells_endBefore (Nat.lt_of_lt_of_le hn hsize) label terminator ht

/-- The end of a greedy run. -/
theorem tells_endRun (terminator : String) {close : Close} (hn : close.body < d.trie.size)
    (ht : ∀ k, touched k) : Tells bodies touched d (lexicon.endRun terminator close) :=
  tells_end hn (fun _ => ⟨close, rfl, rfl⟩) (fun _ _ => nofun) (.inl ht)

/-- A word, or the beginning of one, takes a node, and its ends are spelled below. -/
theorem tells_word (hn : n < d.trie.size) (literal : String) {role : Role} {label : Label}
    {weak : Bool} (hrole : role = .identifierPrefix ∨ ∃ label, role = .keyword label)
    (ht : touched n) (hends : (∀ k, touched k) ∨ weak = true) :
    Tells bodies touched d (Assembly.claim lexicon.conflicts n literal role >>= fun ok =>
      if ok then (do
        Assembly.modifyBehaviour n fun b =>
          { b with action := .none, fallback := identifierFallback }
        lexicon.endBeforeTerminators n label weak)
      else pure ⟨⟩) := by
  refine tells_assign_then hn (fun _ => ?_) (fun _ _ => ?_) (fun _ => ?_) (.inl ht)
    fun _ hsize => ?_
  · rcases hrole with rfl | ⟨label, rfl⟩ <;> exact ⟨rfl, rfl⟩
  · nofun
  · rfl
  · exact tells_endBeforeTerminators (Nat.lt_of_lt_of_le hn hsize) _ hends

/-- A proper beginning of a keyword touches nothing but its own node. -/
theorem tells_buildPrefix (hn : n < d.trie.size) (text : String) :
    Tells bodies (· = n) d (lexicon.buildPrefix n text) :=
  tells_get.bind plants_get fun _ _ hsize _ => tells_ite (tells_pure _) <|
    tells_word (Nat.lt_of_lt_of_le hn hsize) text (.inl rfl) rfl (.inr rfl)

/-- A literal that is spelled touches nothing. -/
theorem tells_path (hn : n < d.trie.size) (literal : String) :
    Tells bodies touched d (Assembly.path n literal.toList) := by
  refine ⟨fun hf h hy => ?_⟩
  have hs := Draft.spelled_of_yields hf hn h hy
  exact ⟨hs.truthful, fun k _ hk => hk.of_claim? (congrArg Site.claim (hs.site k))⟩

theorem tells_buildKeyword (hroot : NodeId.root < d.trie.size) (label : Label) (literal : String) :
    Tells bodies (fun _ => True) d (lexicon.buildKeyword label literal) := by
  refine (tells_path hroot literal).bind (Assembly.plants_path hroot) fun steps d₁ _ hsteps => ?_
  have hplants : ∀ x ∈ properPrefixes literal steps, ∀ d₂ : Draft, d₁.trie.size ≤ d₂.trie.size →
      Assembly.Plants d₂ (lexicon.buildPrefix x.1.node x.2) fun _ _ => True := fun x hx d₂ hsize =>
    plants_buildPrefix (Nat.lt_of_lt_of_le
      (hsteps x.1 (Draft.mem_of_mem_properPrefixes hx)) hsize) x.2
  refine Tells.bind (P := fun _ _ => True) (tells_forM hplants fun x hx d₂ hsize =>
    (tells_buildPrefix (Nat.lt_of_lt_of_le
      (hsteps x.1 (Draft.mem_of_mem_properPrefixes hx)) hsize) x.2).mono fun _ _ => trivial)
    (Assembly.plants_forM hplants) fun _ d₂ hsize₂ _ => ?_
  cases hlast : steps.getLast? with
  | none => exact tells_pure _
  | some last =>
    have hlt := Nat.lt_of_lt_of_le (hsteps last (List.mem_of_getLast? hlast)) hsize₂
    exact tells_word hlt literal (.inr ⟨label, rfl⟩) trivial (.inl fun _ => trivial)

/-- A literal that is spelled from the root. The nodes that are still to be looked at stay soft,
since each node is looked at once. -/
theorem tells_rootPath (hroot : NodeId.root < d.trie.size) (literal : String) :
    Tells bodies (fun _ => True) d (lexicon.rootPath literal) := by
  refine ⟨fun {d' _} hf h hy => ?_⟩
  obtain ⟨steps, d₁, hpath, hy⟩ := yields_bind.1 hy
  obtain ⟨⟨⟩, d₂, hloop, hy⟩ := yields_bind.1 hy
  obtain ⟨-, rfl⟩ := yields_pure.1 hy
  have hs := Draft.spelled_of_yields hf hroot h hpath
  have hnodup : ((properPrefixes literal steps).map fun x => x.1.node).Nodup := by
    have hnodes : ((properPrefixes literal steps).map fun x => x.1.node) =
        steps.dropLast.map Trie.Step.node := by
      rw [← List.zipIdx_map_fst 0 steps.dropLast, properPrefixes, List.map_map, List.map_map]
      rfl
    rw [hnodes]
    exact ((List.dropLast_sublist steps).map _).nodup hs.nodup
  refine ⟨(hloop.forM (fun rest d => d.trie.Forest ∧ (d.trie.Truthful bodies fun _ => False) ∧
    (rest.map fun x => x.1.node).Nodup ∧ ∀ x ∈ rest, x.1.node < d.trie.size ∧
      (x.1.created = true → d.Soft x.1.node)) ?_ ⟨hs.forest, hs.truthful, hnodup, ?_⟩).2.1,
    fun k hk => absurd trivial hk⟩
  · rintro ⟨step, text⟩ rest d₃ d₄ ⟨hf₃, h₃, hnodup₃, hrest⟩ hy
    rw [List.map_cons, List.nodup_cons] at hnodup₃
    rw [List.forall_mem_cons] at hrest
    obtain ⟨hlt, hsoft⟩ := hrest.1
    have hother {x : Trie.Step × String} (hx : x ∈ rest) : x.1.node ≠ step.node := fun heq =>
      hnodup₃.1 (List.mem_map.2 ⟨x, hx, heq⟩)
    dsimp only at hy
    split at hy
    · obtain ⟨-, rfl⟩ := yields_pure.1 hy
      exact ⟨hf₃, h₃, hnodup₃.2, hrest.2⟩
    · next hnew =>
      split at hy
      · have hplants := ((plants_buildPrefix hlt text).plants hf₃ hy).1
        obtain ⟨h₄, hsoft₄⟩ := (tells_buildPrefix hlt text).tells hf₃ h₃ hy
        exact ⟨hplants.forest, h₄, hnodup₃.2, fun x hx =>
          ⟨Nat.lt_of_lt_of_le (hrest.2 x hx).1 hplants.size, fun hxnew =>
            hsoft₄ _ (hother hx) ((hrest.2 x hx).2 hxnew)⟩⟩
      · obtain rfl := yields_modify.1 hy
        exact ⟨(Draft.plants_modifyBehaviour hf₃ fun _ => by rfl).forest,
          Draft.truthful_reroute hlt h₃ (hsoft (by simpa using hnew)) .unknown, hnodup₃.2,
          fun x hx => ⟨by simpa using (hrest.2 x hx).1, fun hxnew =>
            Draft.soft_modifyBehaviour.2 ((hrest.2 x hx).2 hxnew)⟩⟩
  · exact fun x hx => ⟨hs.lt (Draft.mem_of_mem_properPrefixes hx), fun hnew =>
      .of_claim?_eq_none (hs.fresh (Draft.mem_of_mem_properPrefixes hx) hnew)⟩

theorem tells_buildDelimiter (hroot : NodeId.root < d.trie.size) (label : Option Label)
    (literal : String) : Tells bodies (fun _ => True) d (lexicon.buildDelimiter label literal) :=
  (tells_rootPath hroot literal).bind (plants_rootPath hroot literal) fun _ _ _ hn =>
    tells_assign hn (fun _ => rfl) (fun _ => id) (.inl trivial)

theorem tells_buildMark (hroot : NodeId.root < d.trie.size) (label : Label) (literal : String) :
    Tells bodies (fun _ => True) d (lexicon.buildMark label literal) :=
  (tells_rootPath hroot literal).bind (plants_rootPath hroot literal) fun _ _ _ hn =>
    tells_replace hn rfl (fun _ => ⟨rfl, rfl⟩) (fun _ _ => nofun) trivial

/-- The literals of definitions. -/
theorem tells_literals {f : Definition → String → Assembly PUnit} {definitions : List Definition}
    (hroot : NodeId.root < d.trie.size)
    (hplants : ∀ definition literal (d₁ : Draft), NodeId.root < d₁.trie.size →
      (f definition literal).Plants d₁ fun _ _ => True)
    (hf : ∀ definition literal (d₁ : Draft), NodeId.root < d₁.trie.size →
      Tells bodies touched d₁ (f definition literal)) :
    Tells bodies touched d
      (definitions.forM fun definition => definition.literals.forM (f definition)) :=
  tells_forM
    (fun definition _ _ hsize => Assembly.plants_forM fun literal _ _ hsize' =>
      hplants definition literal _ (Nat.lt_of_lt_of_le hroot (Nat.le_trans hsize hsize')))
    fun definition _ _ hsize => tells_forM
      (fun literal _ _ hsize' =>
        hplants definition literal _ (Nat.lt_of_lt_of_le hroot (Nat.le_trans hsize hsize')))
      fun literal _ _ hsize' =>
        hf definition literal _ (Nat.lt_of_lt_of_le hroot (Nat.le_trans hsize hsize'))

end Lexicon

/-! ### Whole drafts -/

namespace Draft

open Assembly (yields_bind yields_pure)

variable {lexicon : Lexicon} {matchers : List (GreedyMatcher Compilation)} {d d₁ d' : Draft}
  {n : NodeId}

/-- The body of a run. -/
def IsBody (d : Draft) (b : NodeId) : Prop := ∃ o ∈ d.openers, o.2 = b

instance (d : Draft) (b : NodeId) : Decidable (d.IsBody b) :=
  inferInstanceAs (Decidable (∃ o ∈ d.openers, o.2 = b))

/-- The claims of a draft tell what its nodes do. -/
structure Truthful (d : Draft) : Prop where
  forest : d.trie.Forest
  claims : d.trie.Truthful d.IsBody fun _ => False

theorem Truthful.root_lt_size (h : d.Truthful) : NodeId.root < d.trie.size :=
  h.claims.lt (.inl (Nat.zero_le _))

/-- A part of a grammar is built. -/
theorem Truthful.step {α : Type} {x : Assembly α} {P : Trie Site → α → Prop}
    {touched : NodeId → Prop} {a : α} (h : d.Truthful) (hP : x.Plants d P)
    (hx : x.Tells d.IsBody touched d) (hy : x.Yields d a d') : d'.Truthful := by
  obtain ⟨hplants, -⟩ := hP.plants h.forest hy
  have hbody : d'.IsBody = d.IsBody := by
    funext b
    rw [IsBody, hplants.openers, IsBody]
  exact ⟨hplants.forest, hbody ▸ (hx.tells h.forest h.claims hy).1⟩

theorem truthful_start : Draft.start.Truthful := by
  have hsite (n : NodeId) : Draft.start.trie.content n = {} := site_start n
  refine ⟨forest_start, ?lt, ?orphan, ?claimed, ?idle, ?plain⟩
  case lt =>
    rintro b (hb | ⟨o, ho, -⟩)
    · exact Nat.lt_of_le_of_lt hb (by decide)
    · cases ho
  case orphan =>
    rintro b (hb | ⟨o, ho, -⟩) n s hc
    · obtain ⟨-, -, rfl⟩ := eq_of_child?_start hc
      exact absurd hb (by decide)
    · cases ho
  case claimed =>
    intro n _ role hrole
    cases (congrArg Site.claim (hsite n)).symm.trans hrole
  case idle =>
    intro n _ _ _ _
    rw [hsite]
    exact ⟨rfl, .inl rfl⟩
  case plain =>
    intro n
    rw [hsite]
    nofun

/-- The node of a category may tell what text goes on as. -/
theorem Truthful.begin (h : d.Truthful) (hn : n = .identifier ∨ n = .number)
    (hclaim : d.claim? n = none) {f : Behaviour → Behaviour} (hrun : ∀ b, (f b).run = b.run)
    (hplain : ∀ b, (f b).fallback ≠ .dispatch) : (d.modifyBehaviour n f).Truthful := by
  have hle : n ≤ .number := by rcases hn with rfl | rfl <;> decide
  refine ⟨(plants_modifyBehaviour h.forest hrun).forest, h.claims.modifyContent
    (h.claims.lt (.inl hle)) (f := fun site => { site with behaviour := f site.behaviour })
    (fun _ _ => id) (fun _ role hrole => ?_) (fun _ hstart _ _ => ?_) (hplain _)⟩
  · cases hclaim.symm.trans hrole
  · rcases hn with rfl | rfl
    · exact absurd rfl hstart.1
    · exact absurd rfl hstart.2

theorem truthful_beginCategories : start.beginCategories.Truthful := by
  refine (truthful_start.begin (.inl rfl) ?_ (fun _ => by rfl) fun _ => ?_).begin (.inr rfl) ?_
    (fun _ => by rfl) fun _ => ?_
  · rw [claim?, site_start]
  · simp [Lexicon.identifierFallback]
  · rw [claim?_modifyBehaviour, claim?, site_start]
  · simp

/-- The open-ended categories are built. -/
theorem Categories.truthful {place : NodeId → Locus}
    (h : Categories lexicon matchers .start place d') : d'.Truthful := by
  obtain @⟨d₁, d₂, d₃, d₄, -, -, -, -, -, hunknown, -, hidentifier, -, hnumber, -, hclaim, -,
    hfloat, -⟩ := h
  have hends {d d' : Draft} {n : NodeId} {label : Label} (h : d.Truthful) (hn : n < d.trie.size)
      (hy : (lexicon.endBeforeTerminators n label false).Yields d ⟨⟩ d') :
      d'.Truthful ∧ d.trie.size ≤ d'.trie.size := by
    have hplants : (lexicon.endBeforeTerminators n label false).Plants d fun _ _ => True :=
      Lexicon.plants_endBeforeTerminators hn label false
    have htells : (lexicon.endBeforeTerminators n label false).Tells d.IsBody (fun _ => True) d :=
      Lexicon.tells_endBeforeTerminators hn label (.inl fun _ => trivial)
    exact ⟨h.step hplants htells hy, (hplants.plants h.forest hy).1.size⟩
  have hle {d : Draft} (h : d.Truthful) {n : NodeId} (hn : n ≤ .number) : n < d.trie.size :=
    h.claims.lt (.inl hn)
  obtain ⟨h₁, hsize₁⟩ := hends truthful_beginCategories (hle truthful_beginCategories (by decide))
    hunknown
  obtain ⟨h₂, hsize₂⟩ := hends h₁ (hle h₁ (by decide)) hidentifier
  obtain ⟨h₃, hsize₃⟩ := hends h₂ (hle h₂ (by decide)) hnumber
  have hlt : NodeId.float < d₃.trie.size :=
    Nat.lt_of_lt_of_le (show NodeId.float < start.beginCategories.trie.size by decide)
      (Nat.le_trans hsize₁ (Nat.le_trans hsize₂ hsize₃))
  obtain ⟨hplants, -⟩ := (Assembly.plants_claim _ _).plants h₃.forest hclaim
  have h₄ : d₄.beginDecimals.Truthful := by
    have hbody : d₄.beginDecimals.IsBody = d₃.IsBody := by
      funext b
      exact congrArg (fun openers => ∃ o ∈ openers, Prod.snd o = b) hplants.openers
    refine ⟨(plants_modifyBehaviour hplants.forest fun _ => by rfl).forest,
      hbody ▸ truthful_assign hlt h₃.claims hclaim (fun _ => ?_) fun _ _ => ?_⟩
    · exact ⟨rfl, rfl⟩
    · nofun
  refine (hends h₄ ?_ hfloat).1
  rw [beginDecimals, size_modifyBehaviour]
  exact Nat.lt_of_lt_of_le hlt hplants.size

/-! ### Greedy runs -/

/-- A new body is a start of its own. -/
theorem truthful_bindBody {bodies : NodeId → Prop} (hf : d.trie.Forest)
    (h : d.trie.Truthful bodies fun _ => False) (runs : Array (NestedRun Automaton))
    (ws : Array Warning) (nested : Option RunId) :
    (d.bindBody runs ws nested).trie.Truthful (fun b => bodies b ∨ b = d.trie.size)
      fun _ => False := by
  have hchild := child?_bindBody (d := d) runs ws nested
  have hnew : ((d.bindBody runs ws nested).trie.content d.trie.size) =
      { behaviour := { run := nested } } := (site_bindBody runs ws d.trie.size).trans (if_pos rfl)
  have hold {k : NodeId} (hk : k ≠ d.trie.size) :
      (d.bindBody runs ws nested).trie.content k = d.trie.content k :=
    (site_bindBody runs ws k).trans (if_neg hk)
  have hstart {b : NodeId} (hb : Trie.IsStart (fun b => bodies b ∨ b = d.trie.size) b) :
      Trie.IsStart bodies b ∨ b = d.trie.size := by
    rcases hb with hb | hb | hb
    · exact .inl (.inl hb)
    · exact .inl (.inr hb)
    · exact .inr hb
  refine ⟨fun hb => ?lt, fun {b} hb n s => ?orphan, fun {n} _ role hrole => ?claimed,
    fun {n} _ hn hr hnone => ?idle, fun n => ?plain⟩
  case lt =>
    rw [size_bindBody]
    rcases hstart hb with hb | rfl
    · exact Nat.lt_succ_of_lt (h.lt hb)
    · exact Nat.lt_succ_self _
  case orphan =>
    rw [hchild]
    rcases hstart hb with hb | rfl
    · exact h.orphan hb n s
    · exact fun hc => Nat.lt_irrefl _ (hf.up hc).2
  case claimed =>
    by_cases hn : n = d.trie.size
    · rw [hn, hnew] at hrole
      cases hrole
    · rw [hold hn] at hrole ⊢
      exact (h.claimed id hrole).mono fun _ => .inl
  case idle =>
    by_cases hsize : n = d.trie.size
    · rw [hsize, hnew]
      exact ⟨rfl, .inl rfl⟩
    · rw [hold hsize] at hnone ⊢
      obtain ⟨b, hb, q, hq⟩ := hr
      rw [Trie.follow?_congr hchild] at hq
      rcases hstart hb with hb | rfl
      · exact h.idle id hn ⟨b, hb, q, hq⟩ hnone
      · -- Nothing stands below the new body.
        cases q with
        | nil => exact absurd (Option.some.inj hq).symm hsize
        | cons s q =>
          rw [Trie.follow?_cons, Trie.child?, Trie.edges_of_size_le _ _ (Nat.le_refl _)] at hq
          cases hq
  case plain =>
    by_cases hn : n = d.trie.size
    · rw [hn, hnew]
      simp
    · rw [hold hn]
      exact h.plain n

/-- A greedy run is built. -/
theorem Truthful.buildRun (h : d.Truthful) {m : GreedyMatcher Compilation} {terminator : String}
    (hy : RunStages lexicon m terminator d d') : d'.Truthful := by
  obtain @⟨opener, d₁, d₂, escape, nested, more, ws, hpath, -, -, hclaim, hends⟩ := hy
  have hroot : (lexicon.rootPath m.startsWith).Plants d fun t opener => opener < t.size :=
    Lexicon.plants_rootPath h.root_lt_size m.startsWith
  have h₁ := h.step hroot (Lexicon.tells_rootPath h.root_lt_size _) hpath
  obtain ⟨-, hlt⟩ := hroot.plants h.forest hpath
  have hf := forest_bindBody (d₁.runs ++ more) ws nested h₁.forest
  have hbound := truthful_bindBody h₁.forest h₁.claims (d₁.runs ++ more) ws nested
  obtain ⟨hplants, -⟩ := (Assembly.plants_claim _ _).plants hf hclaim
  have hpruned := plants_pruneBoundaries (n := opener) hplants.forest
  have hled : ((d₂.pruneBoundaries opener).leadInto opener d₁.trie.size).Truthful := by
    have hbody : ((d₂.pruneBoundaries opener).leadInto opener d₁.trie.size).IsBody =
        fun b => d₁.IsBody b ∨ b = d₁.trie.size := by
      funext b
      change (∃ o ∈ (d₂.pruneBoundaries opener).openers ++ [(opener, d₁.trie.size)], o.2 = b) = _
      rw [hpruned.openers, hplants.openers]
      simp only [List.mem_append, List.mem_singleton, or_and_right, exists_or, exists_eq_left,
        eq_comm (a := d₁.trie.size)]
      rfl
    let lead (b : Behaviour) : Behaviour :=
      { b with action := .none, fallback := .reroute d₁.trie.size }
    refine ⟨(plants_modifyBehaviour (f := lead) hpruned.forest fun _ => rfl).forest, hbody ▸ ?_⟩
    refine truthful_replace (f := lead) hf ?_ hbound hclaim rfl (fun _ => ?_) fun _ _ => ?_
    · rw [size_bindBody]
      exact Nat.lt_succ_of_lt hlt
    · exact ⟨rfl, d₁.trie.size, .inr rfl, rfl⟩
    · nofun
  have hsize : d₁.trie.size <
      ((d₂.pruneBoundaries opener).leadInto opener d₁.trie.size).trie.size := by
    rw [size_leadInto]
    refine Nat.lt_of_lt_of_le ?_ (Nat.le_trans hplants.size hpruned.size)
    rw [size_bindBody]
    exact Nat.lt_succ_self _
  generalize (d₂.pruneBoundaries opener).leadInto opener d₁.trie.size = d₃ at hled hsize hends
  have hbody {c : String × Close}
      (hc : c ∈ lexicon.closings m terminator escape d₁.trie.size nested) {e : Draft}
      (he : d₃.trie.size ≤ e.trie.size) : c.2.body < e.trie.size :=
    lexicon.body_of_mem_closings hc ▸ Nat.lt_of_lt_of_le hsize he
  have htells : Assembly.Tells d₃.IsBody (fun _ => True) d₃
      ((lexicon.closings m terminator escape d₁.trie.size nested).forM fun c =>
        lexicon.endRun c.1 c.2) :=
    Assembly.tells_forM (fun c hc _ he => Lexicon.plants_endRun c.1 (hbody hc he))
      fun c hc _ he => Lexicon.tells_endRun c.1 (hbody hc he) fun _ => trivial
  exact hled.step (Assembly.plants_forM fun c hc _ he =>
    Lexicon.plants_endRun c.1 (hbody hc he)) htells hends

/-- The greedy matchers are built. -/
theorem Truthful.buildMatchers (h : d.Truthful)
    (hy : (lexicon.buildMatchers matchers).Yields d ⟨⟩ d') : d'.Truthful := by
  refine hy.forM (fun _ d => d.Truthful) ?_ h
  intro m _ d₁ d₂ h₁ hy₁
  cases ht : m.terminator with
  | none =>
    rw [ht] at hy₁
    exact h₁.step (Lexicon.plants_buildKeyword h₁.root_lt_size _ _)
      (Lexicon.tells_buildKeyword h₁.root_lt_size _ _) hy₁
  | some terminator =>
    rw [ht] at hy₁
    exact h₁.buildRun (runStages_of_yields ht hy₁)

/-! ### Everything but the leading point -/

/-- A draft is truthful when everything but the leading point is built. -/
theorem Stages.truthful (h : Stages lexicon matchers d') : ∃ d place,
    Charted lexicon matchers True
      (fun t => t ∈ literalsOf lexicon.delimiters ∨ t ∈ literalsOf lexicon.punctuation)
      (fun _ => False) d place ∧ d.Pointed lexicon d' ∧ d.Truthful := by
  obtain @⟨d₁, d₂, d₃, d₄, d₅, -, -, -, -, place, hcategories, -, hkeywords, -, hruns, -,
    hdelimiters, -, hpunctuation, hchart, hpoint⟩ := h
  have hcategories : Categories lexicon matchers .start startPlace d₁ :=
    charted_start.categories hcategories
  have h₁ := hcategories.truthful
  have h₂ := h₁.step (Lexicon.plants_buildKeywords h₁.root_lt_size)
    (Lexicon.tells_literals h₁.root_lt_size
      (fun _ literal _ hroot => Lexicon.plants_buildKeyword hroot _ literal)
      fun _ literal _ hroot => Lexicon.tells_buildKeyword hroot _ literal) hkeywords
  have h₃ := h₂.buildMatchers hruns
  have h₄ := h₃.step (Lexicon.plants_buildDelimiters h₃.root_lt_size)
    (Lexicon.tells_literals h₃.root_lt_size
      (fun _ literal _ hroot => Lexicon.plants_buildDelimiter hroot _ literal)
      fun _ literal _ hroot => Lexicon.tells_buildDelimiter hroot _ literal) hdelimiters
  have h₅ := h₄.step (Lexicon.plants_buildPunctuation h₄.root_lt_size)
    (Lexicon.tells_literals h₄.root_lt_size
      (fun _ literal _ hroot => Lexicon.plants_buildMark hroot _ literal)
      fun _ literal _ hroot => Lexicon.tells_buildMark hroot _ literal) hpunctuation
  exact ⟨d₅, place, hchart, hpoint, h₅⟩

/-! ### Settled drafts -/

/-- A draft whose openers are settled. -/
def settled (d : Draft) : Draft := d.openers.foldl (fun d o => d.settleOpener o.1 o.2) d

/-- A node that text begins at: the root, the node of a category, or the body of a run. -/
def IsOrigin (d : Draft) (n : NodeId) : Prop :=
  n ∈ [NodeId.root, .unknown, .identifier, .number, .float] ∨ d.IsBody n

instance (d : Draft) (n : NodeId) : Decidable (d.IsOrigin n) :=
  inferInstanceAs
    (Decidable (n ∈ [NodeId.root, .unknown, .identifier, .number, .float] ∨ d.IsBody n))

variable {pointed : Prop} {marked : String → Prop} {loose bodies : NodeId → Prop}
  {place : NodeId → Locus} {s : Symbol}

theorem isOrigin_of_isStart (h : Trie.IsStart d.IsBody n) : d.IsOrigin n := by
  refine h.imp_left fun hle => ?_
  match n with
  | 0 | 1 | 2 | 3 => decide
  | n + 4 => exact absurd hle (Nat.not_le_of_lt (Nat.le_add_left ..))

/-- Binding the leading point makes nothing else reachable, since numbers lead to its node. -/
theorem Pointed.reaches (hp : Pointed lexicon d d')
    (h : Charted lexicon matchers pointed marked loose d place) (hr : d'.trie.Reaches bodies n) :
    d.trie.Reaches bodies n := by
  obtain ⟨b, hb, q, hq⟩ := hr
  induction q using List.reverseRecOn generalizing n with
  | nil => exact ⟨b, hb, [], hq⟩
  | append_singleton q s ih =>
    rw [Trie.follow?_concat] at hq
    obtain ⟨k, hk, hkn⟩ := Option.bind_eq_some_iff.1 hq
    rw [hp.child? h.root_lt_size] at hkn
    split at hkn
    · cases hkn
      have hnumber : place .number = ⟨.number, []⟩ :=
        h.origin (o := .number) (Origin.not_isBody_of_mem (by simp))
      exact ⟨.number, .inl (Nat.le_refl _), (d.trie.under_self _).child (h.decimal hnumber)⟩
    · obtain ⟨c, hc, hck⟩ := ih hk
      exact ⟨c, hc, hck.child hkn⟩

/-- Text begins nowhere else: a number with a point begins as a whole number. -/
theorem Charted.reaches_of_isOrigin (h : Charted lexicon matchers pointed marked loose d place)
    (hp : Pointed lexicon d d') (hn : d'.IsOrigin n) : d'.trie.Reaches d'.IsBody n := by
  have hstart (hle : n ≤ .number) : d'.trie.Reaches d'.IsBody n :=
    ⟨n, .inl hle, d'.trie.under_self n⟩
  rcases hn with hn | hn
  · simp only [List.mem_cons, List.not_mem_nil, or_false] at hn
    rcases hn with rfl | rfl | rfl | rfl | rfl
    · exact hstart (by decide)
    · exact hstart (by decide)
    · exact hstart (by decide)
    · exact hstart (by decide)
    · have hnumber : place .number = ⟨.number, []⟩ :=
        h.origin (o := .number) (Origin.not_isBody_of_mem (by simp))
      refine ⟨.number, .inl (Nat.le_refl _), (d'.trie.under_self _).child (s := .char '.') ?_⟩
      rw [hp.child? h.root_lt_size, if_neg (by rintro ⟨-, ⟨⟩, -⟩), h.decimal hnumber]
  · exact ⟨n, .inr hn, d'.trie.under_self n⟩

/-- The roles of settled drafts are the same, and claimed nodes do the same. Symbols without a child
are sent to bodies of runs from unclaimed nodes only. -/
theorem Charted.redirects_settled (h : Charted lexicon matchers pointed marked loose d place)
    (hp : Pointed lexicon d d') :
    Redirects place (fun b => ∃ k, (d.site k).behaviour.fallback = .reroute b) d'.trie
      d'.settled.trie := by
  obtain ⟨t, ht, hsettled⟩ := h.settle hp
  exact congrArg Draft.trie hsettled ▸ ht

end Draft

/-- An automaton is made of the settled draft, whose root then dispatches. -/
theorem Lexicon.trie_finish (lexicon : Lexicon) (d : Draft) : (lexicon.finish d).trie =
    (d.settled.modifyBehaviour .root fun b => { b with fallback := .dispatch }).trie.map
      (·.behaviour) := rfl

/-- The claims of a draft tell what its nodes do, also after the openers have been settled. Then the
unclaimed nodes that can be reached where text begins, and are none of those themselves, act on
nothing and send symbols without a child to another node. -/
theorem Lexicon.claim_table {lexicon : Lexicon} {matchers : List (GreedyMatcher Compilation)}
    {d : Draft} (hy : (lexicon.build matchers).Yields .start ⟨⟩ d) :
    (∀ n role, d.claim? n = some role → role.Describes d.IsBody (d.site n).behaviour) ∧
    (∀ n role, d.settled.claim? n = some role →
      role.Describes d.IsBody (d.settled.site n).behaviour) ∧
    ∀ b n, d.IsOrigin b → d.settled.trie.Under b n → ¬d.IsOrigin n →
      d.settled.claim? n = none → (d.settled.site n).behaviour.action = .none ∧
        ∃ target, (d.settled.site n).behaviour.fallback = .reroute target := by
  obtain ⟨d₅, place, hchart, hpoint, htruthful⟩ := (stages_build hy).truthful
  have hredirects := hchart.redirects_settled hpoint
  have hbody : d.IsBody = d₅.IsBody := by
    funext b
    rw [Draft.IsBody, hpoint.openers, Draft.IsBody]
  have hclaimed (n : NodeId) (role : Role) (hrole : d.claim? n = some role) :
      role.Describes d.IsBody (d.site n).behaviour := by
    rw [Draft.claim?, hpoint.site] at hrole
    rw [hpoint.site, hbody]
    exact htruthful.claims.claimed id hrole
  refine ⟨hclaimed, fun n role hrole => ?_, fun b n hb hn horigin hnone => ?_⟩
  · have hrole : d.claim? n = some role := (hredirects.claim n).symm.trans hrole
    rcases hredirects.behaviour n with hsame | ⟨hnone, -⟩
    · exact (congrArg (role.Describes d.IsBody) hsame).mpr (hclaimed n role hrole)
    · cases hrole.symm.trans hnone
  · obtain ⟨hmem, hnobody⟩ := not_or.1 horigin
    have hnone : d₅.claim? n = none :=
      ((congrArg Site.claim (hpoint.site n)).symm.trans (hredirects.claim n).symm).trans hnone
    have hedges (k : NodeId) : d.settled.trie.edges k = d.trie.edges k := hredirects.edges k
    obtain ⟨c, hc, hcb⟩ := hchart.reaches_of_isOrigin hpoint hb
    obtain ⟨c, hc, hcn⟩ := hpoint.reaches hchart
      ⟨c, hc, hcb.trans ((Trie.under_congr hedges).1 hn)⟩
    rw [hbody] at hc hnobody
    obtain ⟨ha, hfallback⟩ := htruthful.claims.idle id ⟨by rintro rfl; simp at hmem,
      by rintro rfl; simp at hmem⟩ ⟨c, hc, hcn⟩ hnone
    have hreroute : ∃ target, (d₅.site n).behaviour.fallback = .reroute target := by
      refine hfallback.resolve_left fun hstay => ?_
      rcases hcn.eq_or with rfl | ⟨k, s, -, hk⟩
      · exact (not_or.2 ⟨hmem, hnobody⟩) (Draft.isOrigin_of_isStart hc)
      · refine Locus.not_isRest_down (place k) s ((hchart.child hk).2 ▸
          hchart.settled id ?_ hnone hstay ha)
        rintro rfl
        simp at hmem
    have hbehaviour : (d.site n).behaviour = (d₅.site n).behaviour :=
      congrArg Site.behaviour (hpoint.site n)
    rcases hredirects.behaviour n with hsame | ⟨-, target, -, -, hsame⟩
    · have hsame : (d.settled.site n).behaviour = (d.site n).behaviour := hsame
      rw [hsame, hbehaviour]
      exact ⟨ha, hreroute⟩
    · have hsame : (d.settled.site n).behaviour =
        { (d.site n).behaviour with fallback := .reroute target } := hsame
      rw [hsame, hbehaviour]
      exact ⟨ha, target, rfl⟩

/-- A grammar with a delimiter that goes on after the opener of a run. -/
def Grammar.arrowed : Grammar := { bracketed with delimiters := [.named "arrow" (.one "<=>")] }

/-- The opener leads into the run, and so does the node before the end of the delimiter. -/
theorem Grammar.claim_table_arrowed : ∃ d,
    (arrowed.toLexicon.build (compileMatchers arrowed.greedyMatchers)).Yields .start ⟨⟩ d ∧
    (∃ opener body, d.trie.follow? .root [.char '<'] = some opener ∧
      d.claim? opener = some (.opener "bracketed") ∧ d.IsBody body ∧
      (d.site opener).behaviour.fallback = .reroute body) ∧
    ∃ n target, d.settled.trie.follow? .root [.char '<', .char '='] = some n ∧
      (d.settled.site n).behaviour.fallback = .reroute target := by
  have hok : ((arrowed.toLexicon.build
      (compileMatchers arrowed.greedyMatchers)).run.run .start).1.toOption = some ⟨⟩ := by
    decide +kernel
  have hfacts : let d := ((arrowed.toLexicon.build
        (compileMatchers arrowed.greedyMatchers)).run.run .start).2
      (d.trie.follow? .root [.char '<'] = some 21 ∧ d.claim? 21 = some (.opener "bracketed")) ∧
      d.settled.trie.follow? .root [.char '<', .char '='] = some 25 ∧ d.IsOrigin .root ∧
      ¬d.IsOrigin 25 ∧ d.settled.claim? 25 = none := by decide +kernel
  obtain ⟨d, hd⟩ : ∃ d, ((arrowed.toLexicon.build
    (compileMatchers arrowed.greedyMatchers)).run.run .start).2 = d := ⟨_, rfl⟩
  rw [hd] at hfacts
  have hy : (arrowed.toLexicon.build (compileMatchers arrowed.greedyMatchers)).Yields .start ⟨⟩ d :=
    Prod.ext (eq_ok_of_toOption hok) hd
  obtain ⟨⟨hopener, hclaim⟩, hn, hroot, horigin, hnone⟩ := hfacts
  obtain ⟨hclaimed, -, hrest⟩ := Lexicon.claim_table hy
  obtain ⟨-, body, hbody, hlead⟩ := hclaimed 21 (.opener "bracketed") hclaim
  obtain ⟨-, target, hreroute⟩ := hrest .root 25 hroot ⟨_, hn⟩ horigin hnone
  exact ⟨d, hy, ⟨21, body, hopener, hclaim, hbody, hlead⟩, 25, target, hn, hreroute⟩

end TrieLexer
