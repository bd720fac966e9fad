import TrieLexer.Proofs.Drafting

/-!
# Building steps that succeed

A building step that succeeds is taken apart into its parts, each of which succeeds.

## Main definitions

* `Assembly.Yields` — a step succeeds with a result and a draft.

## Main results

* `Assembly.yields_bind`, `Assembly.Yields.forM` — sequences and loops.
* `Assembly.Yields.claim` — a claim that is carried out or given up.
-/

namespace TrieLexer

namespace Assembly

variable {α β : Type} {d d' : Draft}

/-- A building step succeeds with a result and leaves a draft behind. -/
def Yields (x : Assembly α) (d : Draft) (a : α) (d' : Draft) : Prop := x.run.run d = (.ok a, d')

theorem run_bind (x : Assembly α) (f : α → Assembly β) (d : Draft) :
    (x >>= f).run.run d = match x.run.run d with
      | (.ok a, d₁) => (f a).run.run d₁
      | (.error e, d₁) => (.error e, d₁) := by
  rw [ExceptT.run_bind, StateT.run_bind]
  change (match x.run.run d with | (r, d₁) => _) = _
  obtain ⟨r, d₁⟩ := x.run.run d
  cases r <;> rfl

theorem yields_bind {x : Assembly α} {f : α → Assembly β} {b : β} :
    (x >>= f).Yields d b d' ↔ ∃ a d₁, x.Yields d a d₁ ∧ (f a).Yields d₁ b d' := by
  rw [Yields, run_bind]
  constructor
  · intro h
    split at h
    · next a d₁ hx => exact ⟨a, d₁, hx, h⟩
    · cases h
  · rintro ⟨a, d₁, hx, hf⟩
    rw [show x.run.run d = (.ok a, d₁) from hx]
    exact hf

theorem yields_pure {a b : α} : (pure a : Assembly α).Yields d b d' ↔ a = b ∧ d = d' :=
  ⟨fun h => by cases h; exact ⟨rfl, rfl⟩, by rintro ⟨rfl, rfl⟩; rfl⟩

theorem yields_get {r : Draft} : (get : Assembly Draft).Yields d r d' ↔ d = r ∧ d = d' :=
  ⟨fun h => by cases h; exact ⟨rfl, rfl⟩, by rintro ⟨rfl, rfl⟩; rfl⟩

theorem yields_modify {f : Draft → Draft} {u : PUnit} :
    (modify f : Assembly PUnit).Yields d u d' ↔ f d = d' :=
  ⟨fun h => by cases h; rfl, by rintro rfl; rfl⟩

theorem yields_modifyGet {f : Draft → α × Draft} {a : α} :
    (modifyGet f : Assembly α).Yields d a d' ↔ f d = (a, d') := by
  refine ⟨fun h => by cases h; rfl, fun h => ?_⟩
  rw [Yields]
  exact congrArg (fun x => (Except.ok x.1, x.2)) h

theorem not_yields_throw {e : GrammarError} {a : α} :
    ¬(throw e : Assembly α).Yields d a d' := nofun

theorem yields_pureExcept {x : Except GrammarError α} {a : α} :
    Yields (ExceptT.mk (pure x)) d a d' ↔ x = .ok a ∧ d = d' :=
  ⟨fun h => by cases h; exact ⟨rfl, rfl⟩, by rintro ⟨rfl, rfl⟩; rfl⟩

/-- What each round of a loop keeps holds at its end. It may depend on what is left to do. -/
theorem Yields.forM {f : α → Assembly PUnit} (Inv : List α → Draft → Prop)
    (hstep : ∀ x xs d d', Inv (x :: xs) d → (f x).Yields d ⟨⟩ d' → Inv xs d')
    {xs : List α} (h : Inv xs d) (hy : (xs.forM f).Yields d ⟨⟩ d') : Inv [] d' := by
  induction xs generalizing d with
  | nil =>
    obtain ⟨-, rfl⟩ := yields_pure.1 hy
    exact h
  | cons x xs ih =>
    obtain ⟨⟨⟩, d₁, hx, hxs⟩ := yields_bind.1 hy
    exact ih (hstep x xs d d₁ h hx) hxs

/-- What each round of a loop keeps, and what it adds to. -/
theorem Yields.forM_adds {f : α → Assembly PUnit} {xs : List α}
    (Inv : (String → Prop) → Draft → Prop)
    (hmono : ∀ {added fewer : String → Prop} {d : Draft}, (∀ t, fewer t → added t) → Inv added d →
      Inv fewer d) (adds : α → String → Prop)
    (hstep : ∀ x ∈ xs, ∀ (added : String → Prop) (d₁ d₂ : Draft), Inv added d₁ →
      (f x).Yields d₁ ⟨⟩ d₂ → Inv (fun t => added t ∨ adds x t) d₂)
    (added : String → Prop) (h : Inv added d) (hy : (xs.forM f).Yields d ⟨⟩ d') :
    Inv (fun t => added t ∨ ∃ x ∈ xs, adds x t) d' := by
  induction xs generalizing d added with
  | nil =>
    obtain ⟨-, rfl⟩ := yields_pure.1 hy
    exact hmono (fun t ht => ht.resolve_right nofun) h
  | cons x xs ih =>
    obtain ⟨⟨⟩, d₁, hx, hxs⟩ := yields_bind.1 hy
    refine hmono (fun t ht => ?_) (ih (fun y hy' => hstep y (List.mem_cons_of_mem _ hy')) _
      (hstep x List.mem_cons_self added d d₁ h hx) hxs)
    rcases ht with ht | ⟨y, hy', ht⟩
    · exact .inl (.inl ht)
    · rcases List.mem_cons.1 hy' with rfl | hmem
      · exact .inl (.inr ht)
      · exact .inr ⟨y, hmem, ht⟩

/-- What each literal of definitions keeps, and what all of them add to. -/
theorem Yields.forM_definitions {f : Definition → String → Assembly PUnit}
    {definitions : List Definition} (Inv : (String → Prop) → Draft → Prop)
    (hmono : ∀ {added fewer : String → Prop} {d : Draft}, (∀ t, fewer t → added t) → Inv added d →
      Inv fewer d)
    (hstep : ∀ definition ∈ definitions, ∀ literal ∈ definition.literals,
      ∀ (added : String → Prop) (d₁ d₂ : Draft), Inv added d₁ →
        (f definition literal).Yields d₁ ⟨⟩ d₂ → Inv (fun t => added t ∨ t = literal) d₂)
    (added : String → Prop) (h : Inv added d)
    (hy : (definitions.forM fun definition => definition.literals.forM (f definition)).Yields
      d ⟨⟩ d') : Inv (fun t => added t ∨ t ∈ literalsOf definitions) d' := by
  refine hmono (fun t ht => ht.imp_right List.mem_flatMap.1)
    (hy.forM_adds Inv hmono (fun definition t => t ∈ definition.literals) ?_ added h)
  intro definition hd added d₁ d₂ h₁ hy₁
  refine hmono (fun t ht => ht.imp_right fun hl => ⟨t, hl, rfl⟩)
    (hy₁.forM_adds Inv hmono (fun literal t => t = literal) ?_ added h₁)
  exact hstep definition hd

/-- A claim is carried out or, if its role is weak, given up to one that is not. -/
theorem Yields.claim {policy : ConflictPolicy} {n : NodeId} {literal : String} {role : Role}
    {ok : Bool} (hy : (Assembly.claim policy n literal role).Yields d ok d') :
    ok = true ∧ (∃ ws, d' = { d.recordClaim n role with warnings := ws }) ∧
        (role.isWeak → ∀ r, d.claim? n = some r → r = role ∨ r.isWeak) ∨
      ok = false ∧ d' = d ∧ role.isWeak ∧ ∃ r, d.claim? n = some r ∧ r.isWeak = false := by
  obtain ⟨_, _, hget, hrest⟩ := yields_bind.1 hy
  obtain ⟨rfl, rfl⟩ := yields_get.1 hget
  clear hy
  split at hrest
  · next hnone =>
    obtain ⟨_, _, hmod, hrest⟩ := yields_bind.1 hrest
    obtain rfl := yields_modify.1 hmod
    obtain ⟨rfl, rfl⟩ := yields_pure.1 hrest
    refine .inl ⟨rfl, ⟨_, rfl⟩, fun _ r hr => ?_⟩
    cases hnone.symm.trans hr
  · next existing hexisting =>
    have hsame {r : Role} (hr : d.claim? n = some r) : r = existing :=
      Option.some.inj (hr.symm.trans hexisting)
    split at hrest
    · next heq =>
      obtain ⟨rfl, rfl⟩ := yields_pure.1 hrest
      subst heq
      exact .inl ⟨rfl, ⟨d.warnings, by rw [Draft.recordClaim_of_claim hexisting]⟩,
        fun _ r hr => .inl (hsame hr)⟩
    · split at hrest
      · next hweak =>
        obtain ⟨_, _, hmod, hrest⟩ := yields_bind.1 hrest
        obtain rfl := yields_modify.1 hmod
        obtain ⟨rfl, rfl⟩ := yields_pure.1 hrest
        exact .inl ⟨rfl, ⟨_, rfl⟩, fun _ r hr => .inr (hsame hr ▸ hweak)⟩
      · next hstrong =>
        split at hrest
        · next hweak =>
          obtain ⟨rfl, rfl⟩ := yields_pure.1 hrest
          exact .inr ⟨rfl, rfl, hweak, existing, hexisting, Bool.eq_false_iff.2 hstrong⟩
        · next hweak =>
          split at hrest
          · exact absurd hrest not_yields_throw
          · obtain ⟨_, _, hmod, hrest⟩ := yields_bind.1 hrest
            obtain rfl := yields_modify.1 hmod
            obtain ⟨rfl, rfl⟩ := yields_pure.1 hrest
            exact .inl ⟨rfl, ⟨_, rfl⟩, fun h => absurd h hweak⟩

end Assembly

end TrieLexer
