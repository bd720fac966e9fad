import TrieLexer.Proofs.Mirroring
import TrieLexer.Proofs.Compiled

/-!
# Building drafts in lockstep

What succeeds on the image of a draft succeeds on the draft, and leaves a draft behind whose image
is what was left on the other side. So a part of a grammar is built alike in both, as long as its
literals do not begin with a symbol that is kept out.

## Main definitions

* `Draft.Follows` — a step on a draft follows what was done to its image.
* `GreedyMatcher.flat` — a matcher without the grammar of its interior.
* `Admits` — a literal does not begin with a symbol that is kept out.

## Main results

* `Draft.Follows.bind`, `Draft.follows_forM` — sequences and loops.
* `Draft.Mirrors.buildRun`, `Draft.Mirrors.buildKeyword`, `Draft.Mirrors.buildDelimiters`,
  `Draft.Mirrors.buildPunctuation`, `Draft.Mirrors.bindLeadingPoint` — the parts of a grammar.
* `Lexicon.mirrors_buildRest` — everything after the keywords.
* `StateGraph.Mirrors.resolve` — the walk.
-/

namespace TrieLexer

/-- A matcher without the grammar of its interior. -/
def GreedyMatcher.flat {γ : Type} (m : GreedyMatcher γ) : GreedyMatcher γ :=
  { m with subGrammar := none }

/-- A literal does not begin with a symbol that is kept out. -/
def Admits (out : Symbol → Prop) (literal : String) : Prop :=
  ∀ s, (spelling literal.toList).head? = some s → ¬out s

namespace Draft

open Assembly (yields_bind yields_pure yields_get yields_modify yields_modifyGet
  yields_pureExcept not_yields_throw)

variable {f : NodeId → NodeId} {out : Symbol → Prop} {α β : Type} {d e e₁ e' : Draft}
  {lexicon : Lexicon} {n k : NodeId} {literal terminator : String}
  {steps' : List Trie.Step}

/-- A step on a draft follows what was done to its image. -/
def Follows (f : NodeId → NodeId) (out : Symbol → Prop) (d : Draft) (x : Assembly α) (a : α)
    (e' : Draft) : Prop :=
  ∃ d', x.Yields d a d' ∧ d'.Mirrors f out e' ∧ d.trie.size ≤ d'.trie.size

theorem Follows.after {x : Assembly α} {g : α → Assembly β} {a : α} {b : β} {d₁ : Draft}
    (hx : x.Yields d a d₁) (hle : d.trie.size ≤ d₁.trie.size)
    (hg : d₁.Follows f out (g a) b e') : d.Follows f out (x >>= g) b e' := by
  obtain ⟨d', hg, h', hle'⟩ := hg
  exact ⟨d', yields_bind.2 ⟨a, d₁, hx, hg⟩, h', Nat.le_trans hle hle'⟩

theorem Follows.bind {x : Assembly α} {g : α → Assembly β} {a : α} {b : β}
    (hx : d.Follows f out x a e₁)
    (hg : ∀ d₁ : Draft, d₁.Mirrors f out e₁ → d.trie.size ≤ d₁.trie.size →
      d₁.Follows f out (g a) b e') :
    d.Follows f out (x >>= g) b e' := by
  obtain ⟨d₁, hx, h₁, hle⟩ := hx
  exact .after hx hle (hg d₁ h₁ hle)

theorem follows_pure (h : d.Mirrors f out e) (a : α) : d.Follows f out (pure a) a e :=
  ⟨d, yields_pure.2 ⟨rfl, rfl⟩, h, Nat.le_refl _⟩

theorem follows_get_bind {g : Draft → Assembly β} {b : β} (hg : d.Follows f out (g d) b e') :
    d.Follows f out (get >>= g) b e' :=
  .after (yields_get.2 ⟨rfl, rfl⟩) (Nat.le_refl _) hg

theorem follows_modify {g : Draft → Draft} (h : (g d).Mirrors f out e')
    (hsize : d.trie.size ≤ (g d).trie.size) (u : PUnit) :
    d.Follows f out (modify g : Assembly PUnit) u e' :=
  ⟨g d, yields_modify.2 rfl, h, hsize⟩

/-- A loop follows a loop. -/
theorem follows_forM {γ : Type} {g : α → Assembly PUnit} {g' : γ → Assembly PUnit} {r : α → γ}
    {xs : List α} (h : d.Mirrors f out e)
    (hg : ∀ x ∈ xs, ∀ {d₁ e₁ e₂ : Draft}, d₁.Mirrors f out e₁ → d.trie.size ≤ d₁.trie.size →
      (g' (r x)).Yields e₁ ⟨⟩ e₂ → d₁.Follows f out (g x) ⟨⟩ e₂)
    (hy : ((xs.map r).forM g').Yields e ⟨⟩ e') : d.Follows f out (xs.forM g) ⟨⟩ e' := by
  induction xs generalizing d e with
  | nil =>
    obtain ⟨-, rfl⟩ := yields_pure.1 hy
    exact follows_pure h _
  | cons x xs ih =>
    obtain ⟨⟨⟩, e₁, hx, hxs⟩ := yields_bind.1 hy
    refine (hg x List.mem_cons_self h (Nat.le_refl _) hx).bind fun d₁ h₁ hle => ?_
    exact ih h₁ (fun y hy' _ _ _ h₂ hle₂ =>
      hg y (List.mem_cons_of_mem _ hy') h₂ (Nat.le_trans hle hle₂)) hxs

/-- A loop follows the same loop. -/
theorem follows_forM_same {g g' : α → Assembly PUnit} {xs : List α} (h : d.Mirrors f out e)
    (hg : ∀ x ∈ xs, ∀ {d₁ e₁ e₂ : Draft}, d₁.Mirrors f out e₁ → d.trie.size ≤ d₁.trie.size →
      (g' x).Yields e₁ ⟨⟩ e₂ → d₁.Follows f out (g x) ⟨⟩ e₂)
    (hy : (xs.forM g').Yields e ⟨⟩ e') : d.Follows f out (xs.forM g) ⟨⟩ e' :=
  follows_forM (r := id) h hg (by rwa [List.map_id])

/-! ### Claims, behaviours and paths -/

namespace Mirrors

/-- A node and its image are claimed alike. -/
theorem claim (h : d.Mirrors f out e) (hf : Renames f) {policy : ConflictPolicy} {role : Role}
    {ok : Bool} (hy : (Assembly.claim policy (f n) literal role).Yields e ok e') :
    d.Follows f out (Assembly.claim policy n literal role) ok e' := by
  obtain ⟨_, _, hget, hy⟩ := yields_bind.1 hy
  obtain ⟨rfl, rfl⟩ := yields_get.1 hget
  rw [h.claim? n] at hy
  have hrecord (ws ws' : Array Warning) := (h.warnings ws ws').recordClaim hf n role
  have hsize (d : Draft) : d.trie.size ≤ (d.recordClaim n role).trie.size :=
    Nat.le_of_eq (size_recordClaim role).symm
  refine follows_get_bind ?_
  split at hy
  · obtain ⟨_, _, hmod, hy⟩ := yields_bind.1 hy
    obtain rfl := yields_modify.1 hmod
    obtain ⟨rfl, rfl⟩ := yields_pure.1 hy
    exact (follows_modify (hrecord _ _) (hsize d) ⟨⟩).bind fun _ h₁ _ => follows_pure h₁ _
  · split at hy
    · next hsame =>
      obtain ⟨rfl, rfl⟩ := yields_pure.1 hy
      rw [if_pos hsame]
      exact follows_pure h _
    · next hsame =>
      rw [if_neg hsame]
      split at hy
      · next hweak =>
        obtain ⟨_, _, hmod, hy⟩ := yields_bind.1 hy
        obtain rfl := yields_modify.1 hmod
        obtain ⟨rfl, rfl⟩ := yields_pure.1 hy
        rw [if_pos hweak]
        exact (follows_modify (hrecord _ _) (hsize d) ⟨⟩).bind fun _ h₁ _ => follows_pure h₁ _
      · next hweak =>
        rw [if_neg hweak]
        split at hy
        · next hrole =>
          obtain ⟨rfl, rfl⟩ := yields_pure.1 hy
          rw [if_pos hrole]
          exact follows_pure h _
        · next hrole =>
          rw [if_neg hrole]
          split at hy
          · exact absurd hy not_yields_throw
          · obtain ⟨_, _, hmod, hy⟩ := yields_bind.1 hy
            obtain rfl := yields_modify.1 hmod
            obtain ⟨rfl, rfl⟩ := yields_pure.1 hy
            exact (follows_modify (hrecord _ _) (hsize _) ⟨⟩).bind fun _ h₁ _ => follows_pure h₁ _

/-- A node and its image get their behaviours. -/
theorem behave (h : d.Mirrors f out e) (hf : Renames f) {g g' : Behaviour → Behaviour}
    (hy : (Assembly.modifyBehaviour (f n) g').Yields e ⟨⟩ e')
    (hg : ∀ b b', Behaviour.Mirrors f b b' → (g b).Mirrors f (g' b')) :
    d.Follows f out (Assembly.modifyBehaviour n g) ⟨⟩ e' := by
  obtain rfl := yields_modify.1 hy
  exact follows_modify (h.modifyBehaviour hf hg) (Nat.le_of_eq (size_modifyBehaviour _).symm) _

/-- A node loses the ends of what it was before, as its image does. -/
theorem prune (h : d.Mirrors f out e) (hf : Renames f) (hn : n ≠ .root)
    (hy : (Assembly.pruneBoundaries (f n)).Yields e ⟨⟩ e') :
    d.Follows f out (Assembly.pruneBoundaries n) ⟨⟩ e' := by
  obtain rfl := yields_modify.1 hy
  exact follows_modify (h.pruneBoundaries hf hn)
    (Nat.le_of_eq (prunes_pruneBoundaries (h.trie.sorted n)).size.symm) _

/-- A literal has at least one symbol. -/
theorem steps_ne_nil {steps : List Trie.Step}
    (hy : (Assembly.path n literal.toList).Yields d steps e') : steps ≠ [] := by
  have hy := yields_modifyGet.1 hy
  cases hs : spelling literal.toList with
  | nil => exact absurd hs (spelling_ne_nil _)
  | cons s symbols =>
    rw [Trie.path, hs] at hy
    cases hy
    exact List.cons_ne_nil _ _

/-- A literal is spelled in both. -/
theorem path (h : d.Mirrors f out e) (hf : Renames f) (hn : n < d.trie.size)
    (hkeep : ∀ s, (spelling literal.toList).head? = some s → Trie.Keeps out n s)
    (hy : (Assembly.path (f n) literal.toList).Yields e steps' e') :
    ∃ steps d', (Assembly.path n literal.toList).Yields d steps d' ∧ d'.Mirrors f out e' ∧
      d.trie.size ≤ d'.trie.size ∧ steps' = steps.map (·.rename f) ∧
      ∀ step ∈ steps, step.node < d'.trie.size ∧ step.node ≠ .root := by
  have hy := yields_modifyGet.1 hy
  obtain ⟨hext, hsteps, hroots⟩ := h.trie.extend hf hkeep
  obtain ⟨htame, hsize, hnodes⟩ := h.tame.extend hn (spelling literal.toList)
  cases hy
  refine ⟨_, { d with trie := (d.trie.extend n (spelling literal.toList)).1 },
    yields_modifyGet.2 rfl, ⟨hext, htame, h.openers, h.opener, h.runs⟩, hsize, hsteps,
    fun step hstep => ?_⟩
  exact ⟨hnodes step hstep, hroots step hstep⟩

/-! ### Open-ended tokens -/

/-- New nodes before the last one send symbols without a child elsewhere. -/
theorem rerouteCreated (h : d.Mirrors f out e) (hf : Renames f) {steps : List Trie.Step}
    {target : NodeId}
    (hy : (Lexicon.rerouteCreated (steps.map (·.rename f)) (f target)).Yields e ⟨⟩ e') :
    d.Follows f out (Lexicon.rerouteCreated steps target) ⟨⟩ e' := by
  rw [Lexicon.rerouteCreated, ← List.map_dropLast] at hy
  refine follows_forM h (fun step _ {d₁ e₁ e₂} h₁ _ hy => ?_) hy
  change Assembly.Yields (if step.created = true then _ else _) _ _ _ at hy
  split at hy
  · next hcreated =>
    rw [if_pos hcreated]
    exact h₁.behave hf hy fun _ _ hb => ⟨rfl, hb.action, hb.run⟩
  · next hcreated =>
    obtain ⟨-, rfl⟩ := yields_pure.1 hy
    rw [if_neg hcreated]
    exact follows_pure h₁ _

theorem getLast?_rename {steps : List Trie.Step} :
    (steps.map (·.rename f)).getLast? = steps.getLast?.map (·.rename f) := List.getLast?_map

theorem endBefore (h : d.Mirrors f out e) (hf : Renames f) (hn : n < d.trie.size)
    (hroot : n ≠ .root) {label : Label} {weak : Bool}
    (hy : (lexicon.endBefore (f n) label weak terminator).Yields e ⟨⟩ e') :
    d.Follows f out (lexicon.endBefore n label weak terminator) ⟨⟩ e' := by
  obtain ⟨steps', e₁, hpath, hy⟩ := yields_bind.1 hy
  obtain ⟨⟨⟩, e₂, hre, hy⟩ := yields_bind.1 hy
  obtain ⟨steps, d₁, hspell, h₁, hle, rfl, -⟩ :=
    h.path hf hn (fun _ _ hr => absurd hr hroot) hpath
  rw [← hf.unknown] at hre
  rw [getLast?_rename] at hy
  refine .after hspell hle ((h₁.rerouteCreated hf hre).bind fun d₂ h₂ _ => ?_)
  cases hlast : steps.getLast? with
  | none =>
    rw [hlast] at hy
    obtain ⟨-, rfl⟩ := yields_pure.1 hy
    exact follows_pure h₂ _
  | some last =>
    rw [hlast] at hy
    obtain ⟨ok, e₃, hclaim, hy⟩ := yields_bind.1 hy
    refine (h₂.claim hf hclaim).bind fun d₃ h₃ _ => ?_
    cases ok with
    | true => exact h₃.behave hf hy fun _ _ hb => ⟨rfl, .boundary .., hb.run⟩
    | false =>
      obtain ⟨-, rfl⟩ := yields_pure.1 hy
      exact follows_pure h₃ _

theorem endBeforeTerminators (h : d.Mirrors f out e) (hf : Renames f) (hn : n < d.trie.size)
    (hroot : n ≠ .root) {label : Label} {weak : Bool}
    (hy : (lexicon.endBeforeTerminators (f n) label weak).Yields e ⟨⟩ e') :
    d.Follows f out (lexicon.endBeforeTerminators n label weak) ⟨⟩ e' :=
  follows_forM_same h (fun _ _ {_ _ _} h₁ hle hy =>
    h₁.endBefore hf (Nat.lt_of_lt_of_le hn hle) hroot hy) hy

/-! ### Words and literals -/

theorem mirrors_word (hf : Renames f) (b b' : Behaviour) (h : b.Mirrors f b') :
    Behaviour.Mirrors f { b with action := .none, fallback := Lexicon.identifierFallback }
      { b' with action := .none, fallback := Lexicon.identifierFallback } :=
  ⟨by rw [Lexicon.identifierFallback, Fallback.rename, hf.identifier, hf.unknown], .none, h.run⟩

theorem buildPrefix (h : d.Mirrors f out e) (hf : Renames f) (hn : n < d.trie.size)
    (hroot : n ≠ .root) {text : String}
    (hy : (lexicon.buildPrefix (f n) text).Yields e ⟨⟩ e') :
    d.Follows f out (lexicon.buildPrefix n text) ⟨⟩ e' := by
  obtain ⟨_, _, hget, hy⟩ := yields_bind.1 hy
  obtain ⟨rfl, rfl⟩ := yields_get.1 hget
  rw [h.claim? n] at hy
  refine follows_get_bind ?_
  split at hy
  · next hclaimed =>
    obtain ⟨-, rfl⟩ := yields_pure.1 hy
    rw [if_pos hclaimed]
    exact follows_pure h _
  · next hclaimed =>
    rw [if_neg hclaimed]
    obtain ⟨ok, e₁, hclaim, hy⟩ := yields_bind.1 hy
    refine (h.claim hf hclaim).bind fun d₁ h₁ hle => ?_
    cases ok with
    | true =>
      obtain ⟨⟨⟩, e₂, hmod, hy⟩ := yields_bind.1 hy
      rw [if_pos rfl]
      refine (h₁.behave hf hmod (mirrors_word hf)).bind fun d₂ h₂ hle₂ => ?_
      exact h₂.endBeforeTerminators hf (Nat.lt_of_lt_of_le hn (Nat.le_trans hle hle₂)) hroot hy
    | false =>
      obtain ⟨-, rfl⟩ := yields_pure.1 hy
      exact follows_pure h₁ _

theorem properPrefixes_rename (steps : List Trie.Step) :
    Lexicon.properPrefixes literal (steps.map (·.rename f)) =
      (Lexicon.properPrefixes literal steps).map fun x => (x.1.rename f, x.2) := by
  rw [Lexicon.properPrefixes, Lexicon.properPrefixes, ← List.map_dropLast, List.zipIdx_map,
    List.map_map, List.map_map]
  rfl

/-- A keyword is built alike in both. -/
theorem buildKeyword (h : d.Mirrors f out e) (hf : Renames f) (hl : Admits out literal)
    {label : Label} (hy : (lexicon.buildKeyword label literal).Yields e ⟨⟩ e') :
    d.Follows f out (lexicon.buildKeyword label literal) ⟨⟩ e' := by
  obtain ⟨steps', e₁, hpath, hy⟩ := yields_bind.1 hy
  obtain ⟨⟨⟩, e₂, hloop, hy⟩ := yields_bind.1 hy
  rw [← hf.root] at hpath
  obtain ⟨steps, d₁, hspell, h₁, hle, rfl, hnodes⟩ :=
    h.path hf h.trie.pos (fun s hs _ => hl s hs) hpath
  rw [properPrefixes_rename] at hloop
  rw [getLast?_rename] at hy
  refine .after hspell hle ((follows_forM h₁ (fun x hx {d₂ e₂ e₃} h₂ hle₂ hy => ?_) hloop).bind
    fun d₂ h₂ hle₂ => ?_)
  · obtain ⟨hlt, hroot⟩ := hnodes x.1 (mem_of_mem_properPrefixes hx)
    exact h₂.buildPrefix hf (Nat.lt_of_lt_of_le hlt hle₂) hroot hy
  · cases hlast : steps.getLast? with
    | none =>
      rw [hlast] at hy
      obtain ⟨-, rfl⟩ := yields_pure.1 hy
      exact follows_pure h₂ _
    | some last =>
      rw [hlast] at hy
      obtain ⟨hlt, hroot⟩ := hnodes last (List.mem_of_getLast? hlast)
      obtain ⟨ok, e₃, hclaim, hy⟩ := yields_bind.1 hy
      refine (h₂.claim hf hclaim).bind fun d₃ h₃ hle₃ => ?_
      cases ok with
      | true =>
        obtain ⟨⟨⟩, e₄, hmod, hy⟩ := yields_bind.1 hy
        rw [if_pos rfl]
        refine (h₃.behave hf hmod (mirrors_word hf)).bind fun d₄ h₄ hle₄ => ?_
        exact h₄.endBeforeTerminators hf
          (Nat.lt_of_lt_of_le hlt (Nat.le_trans hle₂ (Nat.le_trans hle₃ hle₄))) hroot hy
      | false =>
        obtain ⟨-, rfl⟩ := yields_pure.1 hy
        exact follows_pure h₃ _

/-- A literal is spelled from the root alike in both. -/
theorem rootPath (h : d.Mirrors f out e) (hf : Renames f) (hl : Admits out literal)
    {n' : NodeId} (hy : (lexicon.rootPath literal).Yields e n' e') :
    ∃ n d', (lexicon.rootPath literal).Yields d n d' ∧ d'.Mirrors f out e' ∧
      d.trie.size ≤ d'.trie.size ∧ n' = f n ∧ n < d'.trie.size ∧ n ≠ .root := by
  obtain ⟨steps', e₁, hpath, hy⟩ := yields_bind.1 hy
  obtain ⟨⟨⟩, e₂, hloop, hy⟩ := yields_bind.1 hy
  obtain ⟨rfl, rfl⟩ := yields_pure.1 hy
  rw [← hf.root] at hpath
  obtain ⟨steps, d₁, hspell, h₁, hle, rfl, hnodes⟩ :=
    h.path hf h.trie.pos (fun s hs _ => hl s hs) hpath
  rw [properPrefixes_rename] at hloop
  have hfollow : d₁.Follows f out ((Lexicon.properPrefixes literal steps).forM fun x =>
      if !x.1.created then pure ()
      else if lexicon.isIdentifierShaped x.2.toList then lexicon.buildPrefix x.1.node x.2
      else Assembly.modifyBehaviour x.1.node fun b => { b with fallback := .reroute .unknown })
      ⟨⟩ e₂ := by
    refine follows_forM h₁ (fun x hx {d₂ e₂ e₃} h₂ hle₂ hy => ?_) hloop
    obtain ⟨hlt, hroot⟩ := hnodes x.1 (mem_of_mem_properPrefixes hx)
    change Assembly.Yields (if (!x.1.created) = true then _ else _) _ _ _ at hy
    split at hy
    · next hold =>
      obtain ⟨-, rfl⟩ := yields_pure.1 hy
      simp only [if_pos hold]
      exact follows_pure h₂ _
    · next hnew =>
      simp only [if_neg hnew]
      split at hy
      · next hshape =>
        rw [if_pos hshape]
        exact h₂.buildPrefix hf (Nat.lt_of_lt_of_le hlt hle₂) hroot hy
      · next hshape =>
        rw [if_neg hshape]
        refine h₂.behave hf hy fun _ _ hb => ⟨?_, hb.action, hb.run⟩
        rw [Fallback.rename, hf.unknown]
  obtain ⟨d₂, hloop, h₂, hle₂⟩ := hfollow
  have hne : steps ≠ [] := by
    rintro rfl
    exact steps_ne_nil hspell rfl
  obtain ⟨last, hlast⟩ := Option.ne_none_iff_exists'.1 (mt List.getLast?_eq_none_iff.1 hne)
  obtain ⟨hlt, hroot⟩ := hnodes last (List.mem_of_getLast? hlast)
  refine ⟨last.node, d₂, yields_bind.2 ⟨steps, d₁, hspell, yields_bind.2 ⟨⟨⟩, d₂, hloop, ?_⟩⟩, h₂,
    Nat.le_trans hle hle₂, ?_, Nat.lt_of_lt_of_le hlt hle₂, hroot⟩
  · rw [hlast]
    exact yields_pure.2 ⟨rfl, rfl⟩
  · rw [getLast?_rename, hlast]
    rfl

/-! ### Greedy runs -/

/-- A run ends alike in both. -/
theorem endRun (h : d.Mirrors f out e) (hf : Renames f) {c c' : Close}
    (hc : { c' with nested := none } = { c with body := f c.body }) (hn : c.body < d.trie.size)
    (hroot : c.body ≠ .root) (hy : (lexicon.endRun terminator c').Yields e ⟨⟩ e') :
    d.Follows f out (lexicon.endRun terminator c) ⟨⟩ e' := by
  obtain ⟨steps', e₁, hpath, hy⟩ := yields_bind.1 hy
  obtain ⟨⟨⟩, e₂, hre, hy⟩ := yields_bind.1 hy
  have hbody : c'.body = f c.body := by simpa using congrArg Close.body hc
  have hlabel : c'.label = c.label := by simpa using congrArg Close.label hc
  rw [hbody] at hpath hre
  obtain ⟨steps, d₁, hspell, h₁, hle, rfl, -⟩ :=
    h.path hf hn (fun _ _ hr => absurd hr hroot) hpath
  rw [getLast?_rename] at hy
  refine .after hspell hle ((h₁.rerouteCreated hf hre).bind fun d₂ h₂ _ => ?_)
  cases hlast : steps.getLast? with
  | none =>
    rw [hlast] at hy
    obtain ⟨-, rfl⟩ := yields_pure.1 hy
    exact follows_pure h₂ _
  | some last =>
    rw [hlast] at hy
    obtain ⟨ok, e₃, hclaim, hy⟩ := yields_bind.1 hy
    rw [hlabel] at hclaim
    refine (h₂.claim hf hclaim).bind fun d₃ h₃ _ => ?_
    cases ok with
    | true => exact h₃.behave hf hy fun _ _ hb => ⟨rfl, .close hc, hb.run⟩
    | false =>
      obtain ⟨-, rfl⟩ := yields_pure.1 hy
      exact follows_pure h₃ _

theorem addOpener (h : d.Mirrors f out e) (hn : n ≠ .root) (k : NodeId) :
    Mirrors f out { d with openers := d.openers ++ [(n, k)] }
      { e with openers := e.openers ++ [(f n, f k)] } where
  trie := h.trie
  tame := h.tame
  openers := by simp [h.openers]
  opener ho := by
    rcases List.mem_append.1 ho with ho | ho
    · exact h.opener ho
    · rwa [List.mem_singleton.1 ho]
  runs := h.runs

/-- A greedy run is built alike in both, apart from its nested run. -/
theorem buildRun (h : d.Mirrors f out e) (hf : Renames f) {m : GreedyMatcher Compilation}
    (hl : Admits out m.startsWith) (ht : m.terminator = some terminator)
    (hy : (lexicon.buildRun m terminator).Yields e ⟨⟩ e') :
    d.Follows f out (lexicon.buildRun m.flat terminator) ⟨⟩ e' := by
  obtain ⟨opener', e₁, hopener, hy⟩ := yields_bind.1 hy
  obtain ⟨body', e₂, hbody, hy⟩ := yields_bind.1 hy
  obtain ⟨escape, e₃, hescape, hy⟩ := yields_bind.1 hy
  obtain ⟨nested, e₄, hnested, hy⟩ := yields_bind.1 hy
  obtain ⟨⟨⟩, e₅, hrun, hy⟩ := yields_bind.1 hy
  obtain ⟨ok, e₆, hclaim, hy⟩ := yields_bind.1 hy
  obtain ⟨opener, d₁, hspell, h₁, hle₁, rfl, hlt₁, hroot⟩ := h.rootPath hf hl hopener
  cases yields_modifyGet.1 hbody
  obtain ⟨hchar, rfl⟩ := yields_pureExcept.1 hescape
  obtain ⟨more, ws, rfl, -, -⟩ := nests_of_yields ht hnested
  have h₂ := (h₁.alloc.runs_right (e₁.runs ++ more)).warnings d₁.warnings ws
  have hsize : d₁.trie.size < d₁.trie.alloc.1.size := by
    rw [Trie.size_alloc]
    exact Nat.lt_succ_self _
  have hb := h₁.trie.size_eq
  rw [← hb] at hrun
  refine .after hspell hle₁ (.after (yields_modifyGet.2 rfl) (Nat.le_of_lt hsize)
    (.after (yields_pureExcept.2 ⟨hchar, rfl⟩) (Nat.le_refl _)
    (.after (yields_pure.2 ⟨rfl, rfl⟩) (Nat.le_refl _) ?_)))
  refine Follows.bind (h₂.behave hf hrun ?_) fun d₃ h₃ hle₃ =>
    (h₃.claim hf hclaim).bind fun d₄ h₄ hle₄ => ?_
  · exact fun _ _ hb => ⟨hb.fallback, hb.action, rfl⟩
  have hbody {d' : Draft} (hle : d₄.trie.size ≤ d'.trie.size) : d₁.trie.size < d'.trie.size :=
    Nat.lt_of_lt_of_le hsize (Nat.le_trans hle₃ (Nat.le_trans hle₄ hle))
  have hbodyroot : d₁.trie.size ≠ NodeId.root := Nat.pos_iff_ne_zero.1 h₁.trie.pos
  cases ok with
  | false => cases isWeak_of_yields hclaim
  | true =>
    obtain ⟨⟨⟩, e₇, hprune, hy⟩ := yields_bind.1 hy
    obtain ⟨⟨⟩, e₈, hmod, hy⟩ := yields_bind.1 hy
    obtain ⟨⟨⟩, e₉, hadd, hy⟩ := yields_bind.1 hy
    obtain rfl := yields_modify.1 hadd
    obtain ⟨⟨⟩, e₁₀, hend, hy⟩ := yields_bind.1 hy
    obtain ⟨⟨⟩, e₁₁, hdone, hy⟩ := yields_bind.1 hy
    rw [if_pos rfl]
    refine (h₄.prune hf hroot hprune).bind fun d₅ h₅ hle₅ => ?_
    refine Follows.bind (h₅.behave hf hmod ?_) fun d₆ h₆ hle₆ => ?_
    · exact fun _ _ hbehave => ⟨congrArg Fallback.reroute hb.symm, .none, hbehave.run⟩
    have hopened := h₆.addOpener hroot d₁.trie.size
    rw [hb] at hopened
    refine Follows.bind (follows_modify hopened (Nat.le_refl _) ⟨⟩) fun d₇ h₇ hle₇ => ?_
    have hlt₇ := Nat.le_trans hle₅ (Nat.le_trans hle₆ hle₇)
    refine Follows.bind (h₇.endRun hf ?_ (hbody hlt₇) hbodyroot hend) fun d₈ h₈ hle₈ => ?_
    · simp only [hb]
      rfl
    refine Follows.bind (h₈.endRun hf ?_ (hbody (Nat.le_trans hlt₇ hle₈)) hbodyroot hdone)
      fun d₉ h₉ hle₉ => ?_
    · simp only [hb]
      rfl
    have hmarker : m.flat.haltMarker = m.haltMarker := rfl
    cases hhalt : m.haltMarker with
    | none =>
      simp only [hmarker, hhalt] at hy ⊢
      obtain ⟨-, rfl⟩ := yields_pure.1 hy
      exact follows_pure h₉ _
    | some marker =>
      simp only [hmarker, hhalt] at hy ⊢
      refine h₉.endRun hf ?_ (hbody (Nat.le_trans hlt₇ (Nat.le_trans hle₈ hle₉))) hbodyroot hy
      simp only [hb]
      rfl

/-- All greedy matchers are built alike in both, apart from their nested runs. -/
theorem buildMatchers (h : d.Mirrors f out e) (hf : Renames f)
    {matchers : List (GreedyMatcher Compilation)} (hl : ∀ m ∈ matchers, Admits out m.startsWith)
    (hy : (lexicon.buildMatchers matchers).Yields e ⟨⟩ e') :
    d.Follows f out (lexicon.buildMatchers (matchers.map .flat)) ⟨⟩ e' := by
  change Follows f out d (forM (matchers.map GreedyMatcher.flat) _) _ _
  rw [List.forM_map]
  refine follows_forM_same h (fun m hm {d₁ e₁ e₂} h₁ _ hy => ?_) hy
  have hterminator : m.flat.terminator = m.terminator := rfl
  cases ht : m.terminator with
  | none =>
    simp only [hterminator, ht] at hy ⊢
    exact h₁.buildKeyword hf (hl m hm) hy
  | some terminator =>
    simp only [hterminator, ht] at hy ⊢
    exact h₁.buildRun hf (hl m hm) ht hy

/-! ### Literals -/

/-- A loop over the literals of definitions follows the same loop. -/
theorem forM_literals (h : d.Mirrors f out e) {g : Definition → String → Assembly PUnit}
    {definitions : List Definition}
    (hg : ∀ (definition : Definition), ∀ t ∈ literalsOf definitions, ∀ {d₁ e₁ e₂ : Draft},
      d₁.Mirrors f out e₁ → (g definition t).Yields e₁ ⟨⟩ e₂ →
      d₁.Follows f out (g definition t) ⟨⟩ e₂)
    (hy : (definitions.forM fun definition => definition.literals.forM (g definition)).Yields
      e ⟨⟩ e') :
    d.Follows f out (definitions.forM fun definition => definition.literals.forM (g definition))
      ⟨⟩ e' :=
  follows_forM_same h (fun definition hdef {_ _ _} h₁ _ hy =>
    follows_forM_same h₁ (fun t ht {_ _ _} h₂ _ hy =>
      hg definition t (List.mem_flatMap.2 ⟨definition, hdef, ht⟩) h₂ hy) hy) hy

/-- All delimiters are built alike in both. -/
theorem buildDelimiters (h : d.Mirrors f out e) (hf : Renames f)
    (hl : ∀ t ∈ literalsOf lexicon.delimiters, Admits out t)
    (hy : lexicon.buildDelimiters.Yields e ⟨⟩ e') :
    d.Follows f out lexicon.buildDelimiters ⟨⟩ e' := by
  refine h.forM_literals (fun definition t ht {d₁ e₁ e₂} h₁ hy => ?_) hy
  obtain ⟨n', e₃, hpath, hy⟩ := yields_bind.1 hy
  obtain ⟨ok, e₄, hclaim, hy⟩ := yields_bind.1 hy
  obtain ⟨n, d₂, hspell, h₂, hle, rfl, -, -⟩ := h₁.rootPath hf (hl t ht) hpath
  refine .after hspell hle ((h₂.claim hf hclaim).bind fun d₃ h₃ _ => ?_)
  cases ok with
  | true => exact h₃.behave hf hy fun _ _ hb => ⟨hb.fallback, .literal _, hb.run⟩
  | false =>
    obtain ⟨-, rfl⟩ := yields_pure.1 hy
    exact follows_pure h₃ _

/-- All punctuation is built alike in both. -/
theorem buildPunctuation (h : d.Mirrors f out e) (hf : Renames f)
    (hl : ∀ t ∈ literalsOf lexicon.punctuation, Admits out t)
    (hy : lexicon.buildPunctuation.Yields e ⟨⟩ e') :
    d.Follows f out lexicon.buildPunctuation ⟨⟩ e' := by
  refine h.forM_literals (fun definition t ht {d₁ e₁ e₂} h₁ hy => ?_) hy
  obtain ⟨n', e₃, hpath, hy⟩ := yields_bind.1 hy
  obtain ⟨ok, e₄, hclaim, hy⟩ := yields_bind.1 hy
  obtain ⟨n, d₂, hspell, h₂, hle, rfl, -, hroot⟩ := h₁.rootPath hf (hl t ht) hpath
  refine .after hspell hle ((h₂.claim hf hclaim).bind fun d₃ h₃ _ => ?_)
  cases ok with
  | true =>
    obtain ⟨⟨⟩, e₅, hprune, hy⟩ := yields_bind.1 hy
    rw [if_pos rfl]
    exact (h₃.prune hf hroot hprune).bind fun d₄ h₄ _ =>
      h₄.behave hf hy fun _ _ hb => ⟨rfl, .none, hb.run⟩
  | false =>
    obtain ⟨-, rfl⟩ := yields_pure.1 hy
    exact follows_pure h₃ _

/-- The decimal point is bound in both. -/
theorem bindLeadingPoint (h : d.Mirrors f out e) (hpoint : ¬out (.char '.'))
    (hy : lexicon.bindLeadingPoint.Yields e ⟨⟩ e') :
    ∃ d', lexicon.bindLeadingPoint.Yields d ⟨⟩ d' := by
  have hchild := h.trie.root hpoint
  rw [Lexicon.bindLeadingPoint] at hy ⊢
  split at hy
  · next hleading =>
    rw [if_pos hleading]
    exact ⟨d, yields_pure.2 ⟨rfl, rfl⟩⟩
  · next hleading =>
    rw [if_neg hleading]
    obtain ⟨_, _, hget, hy⟩ := yields_bind.1 hy
    obtain ⟨rfl, rfl⟩ := yields_get.1 hget
    cases hc : d.trie.child? .root (.char '.') with
    | none =>
      refine ⟨{ d with trie := d.trie.setChild .root (.char '.') .float },
        yields_bind.2 ⟨d, d, yields_get.2 ⟨rfl, rfl⟩, ?_⟩⟩
      rw [hc]
      exact yields_modify.2 rfl
    | some child =>
      rw [hchild, hc] at hy
      cases hpolicy : lexicon.conflicts with
      | reject =>
        rw [hpolicy] at hy
        obtain ⟨_, _, hthrow, -⟩ := yields_bind.1 hy
        exact absurd hthrow not_yields_throw
      | lastWins =>
        refine ⟨{ d.warn (.leadingPoint (d.claim? child)) with
            trie := d.trie.setChild .root (.char '.') .float },
          yields_bind.2 ⟨d, d, yields_get.2 ⟨rfl, rfl⟩, ?_⟩⟩
        rw [hc]
        exact yields_bind.2 ⟨⟨⟩, _, yields_modify.2 rfl, yields_modify.2 rfl⟩

end Mirrors

end Draft

/-! ### The whole -/

/-- An automaton and its image. -/
structure StateGraph.Mirrors (f : NodeId → NodeId) (out : Symbol → Prop) (g g' : StateGraph) :
    Prop where
  child? {n : NodeId} {s : Symbol} (h : Trie.Keeps out n s) :
    g'.trie.child? (f n) s = (g.trie.child? n s).map f
  behaviour (n : NodeId) : (g.behaviour n).Mirrors f (g'.behaviour (f n))
  identifierStart : g'.identifierStart = g.identifierStart
  identifierContinue : g'.identifierContinue = g.identifierContinue
  unnamed : g'.unnamed = g.unnamed

namespace Draft

variable {f : NodeId → NodeId} {out : Symbol → Prop} {d d' e e' : Draft} {lexicon : Lexicon}
  {t u : Trie Site} {n k : NodeId}

theorem edges_settleOpener (d : Draft) (n k m : NodeId) :
    (d.settleOpener n k).trie.edges m = d.trie.edges m := by
  rw [settleOpener]
  split
  · exact edges_redirectWithin ..
  · rfl

theorem size_redirectWithin (body : NodeId) (depth : Nat) (t : Trie Site) (n : NodeId) :
    (redirectWithin body depth t n).size = t.size := by
  induction depth generalizing t n with
  | zero => rfl
  | succ depth ih =>
    rw [redirectWithin]
    generalize t.edges n = edges
    induction edges generalizing t with
    | nil => rfl
    | cons e edges ihe =>
      rw [List.foldl_cons, ihe]
      split
      · rfl
      · rw [ih, Trie.size_modifyContent]

theorem size_settleOpener (d : Draft) (n k : NodeId) :
    (d.settleOpener n k).trie.size = d.trie.size := by
  rw [settleOpener]
  split
  · exact size_redirectWithin ..
  · rfl

/-- An opener is settled alike in both. -/
theorem mirrors_settleOpener (h : d.trie.Mirrors f out e.trie) (hf : Renames f) (hn : n ≠ .root)
    (hd : d.trie.Within n d.trie.size) :
    (d.settleOpener n k).trie.Mirrors f out (e.settleOpener (f n) (f k)).trie := by
  have hiff : (e.site (f n)).behaviour.fallback = .reroute (f k) ↔
      (d.site n).behaviour.fallback = .reroute k := by
    rw [site, site, (h.content n).behaviour.fallback]
    cases (d.trie.content n).behaviour.fallback <;> simp [Fallback.rename, hf.eq_iff]
  rw [settleOpener, settleOpener]
  by_cases hsettle : (d.site n).behaviour.fallback = .reroute k
  · rw [if_pos hsettle, if_pos (hiff.2 hsettle)]
    exact mirrors_redirectWithin h hf hn hd (hd.mono h.le)
  · rw [if_neg hsettle, if_neg (mt hiff.1 hsettle)]
    exact h

/-- All openers are settled alike in both. -/
theorem mirrors_settle (h : d.trie.Mirrors f out e.trie) (hf : Renames f)
    (openers : List (NodeId × NodeId))
    (ho : ∀ o ∈ openers, o.1 ≠ .root ∧ d.trie.Within o.1 d.trie.size) :
    (openers.foldl (fun d o => d.settleOpener o.1 o.2) d).trie.Mirrors f out
      ((openers.map fun o => (f o.1, f o.2)).foldl (fun d o => d.settleOpener o.1 o.2) e).trie := by
  induction openers generalizing d e with
  | nil => exact h
  | cons o openers ih =>
    rw [List.forall_mem_cons] at ho
    refine ih (mirrors_settleOpener h hf ho.1.1 ho.1.2) fun o' ho' => ⟨(ho.2 o' ho').1, ?_⟩
    rw [size_settleOpener]
    exact (ho.2 o' ho').2.congr fun k => edges_settleOpener ..

/-- Paths that never come to the root do not change when the root gets a child. -/
theorem within_setChild_root (h : t.Mirrors f out u) {s : Symbol} {depth : Nat} (hn : n ≠ .root)
    (hd : t.Within n depth) : (t.setChild .root s k).Within n depth := by
  intro path m hp
  suffices hpath : t.follow? n path = some m from hd path m hpath
  clear hd
  induction path generalizing n with
  | nil => exact hp
  | cons v path ih =>
    rw [Trie.follow?_cons] at hp ⊢
    obtain ⟨j, hj, hp⟩ := Option.bind_eq_some_iff.1 hp
    have hroot : NodeId.root < t.size := h.pos
    rw [Trie.child?_setChild _ _ _ _ _ _ hroot, if_neg fun hk => hn hk.1] at hj
    rw [hj]
    exact ih (h.parent hj) hp

/-- The automata of a draft and of its image. -/
theorem Mirrors.finish (h : d.Mirrors f out e) (hf : Renames f) (hp : Pointed lexicon d d')
    (hp' : Pointed lexicon e e') :
    (lexicon.finish d').toStateGraph.Mirrors f out (lexicon.finish e').toStateGraph := by
  have htrie : d'.trie.Mirrors f out e'.trie := by
    rw [hp.trie, hp'.trie]
    split
    · exact h.trie
    · have hset := h.trie.setChild hf (n := .root) (s := .char '.') (m := .float) (by decide)
      rwa [hf.root, hf.float] at hset
  have hsettle := mirrors_settle htrie hf d'.openers fun o ho => by
    rw [hp.openers] at ho
    refine ⟨h.opener ho, ?_⟩
    rw [hp.trie]
    split
    · exact h.tame.short o.1
    · rw [Trie.size_setChild]
      exact within_setChild_root h.trie (h.opener ho) (h.tame.short o.1)
  have hroot : (Trie.modifyContent _ .root fun site =>
      { site with behaviour := { site.behaviour with fallback := .dispatch } }).Mirrors f out
      (Trie.modifyContent _ (f .root) fun site =>
        { site with behaviour := { site.behaviour with fallback := .dispatch } }) :=
    hsettle.modifyContent hf fun hs => ⟨⟨rfl, hs.behaviour.action, hs.behaviour.run⟩, hs.claim⟩
  rw [hf.root] at hroot
  have hopeners : e'.openers = d'.openers.map fun o => (f o.1, f o.2) := by
    rw [hp'.openers, h.openers, hp.openers]
  rw [← hopeners] at hroot
  refine ⟨fun {n s} hk => ?_, fun n => ?_, rfl, rfl, rfl⟩
  · have hchild := hroot.child? hf hk
    simpa only [Lexicon.finish, Trie.child?_map, Draft.modifyBehaviour] using hchild
  · have hcontent := (hroot.content n).behaviour
    simpa only [Lexicon.finish, StateGraph.behaviour, Draft.modifyBehaviour,
      Trie.content_map _ _ Site.behaviour rfl] using hcontent

end Draft

namespace Lexicon

open Assembly (yields_bind)

variable {lexicon : Lexicon} {matchers : List (GreedyMatcher Compilation)}
  {f : NodeId → NodeId} {out : Symbol → Prop} {d e e' : Draft}

/-- What is built after the keywords. -/
def buildRest (lexicon : Lexicon) (matchers : List (GreedyMatcher Compilation)) :
    Assembly Unit := do
  lexicon.buildMatchers matchers
  lexicon.buildDelimiters
  lexicon.buildPunctuation
  lexicon.bindLeadingPoint

/-- What is built after the keywords does not begin with a symbol that is kept out. -/
structure Admitted (lexicon : Lexicon) (matchers : List (GreedyMatcher Compilation))
    (out : Symbol → Prop) : Prop where
  opener {m : GreedyMatcher Compilation} (h : m ∈ matchers) : Admits out m.startsWith
  delimiter {t : String} (h : t ∈ literalsOf lexicon.delimiters) : Admits out t
  punctuation {t : String} (h : t ∈ literalsOf lexicon.punctuation) : Admits out t
  point : ¬out (.char '.')

/-- What is built after the keywords is built alike in both. -/
theorem mirrors_buildRest (h : d.Mirrors f out e) (hf : Renames f)
    (hl : lexicon.Admitted matchers out) (hy : (lexicon.buildRest matchers).Yields e ⟨⟩ e') :
    ∃ d', (lexicon.buildRest (matchers.map .flat)).Yields d ⟨⟩ d' ∧
      (lexicon.finish d').toStateGraph.Mirrors f out (lexicon.finish e').toStateGraph := by
  obtain ⟨⟨⟩, e₁, hmatchers, hy⟩ := yields_bind.1 hy
  obtain ⟨⟨⟩, e₂, hdelimiters, hy⟩ := yields_bind.1 hy
  obtain ⟨⟨⟩, e₃, hpunctuation, hpoint⟩ := yields_bind.1 hy
  obtain ⟨d₁, hmatchers, h₁, -⟩ := h.buildMatchers hf (fun _ hm => hl.opener hm) hmatchers
  obtain ⟨d₂, hdelimiters, h₂, -⟩ := h₁.buildDelimiters hf (fun _ ht => hl.delimiter ht) hdelimiters
  obtain ⟨d₃, hpunctuation, h₃, -⟩ :=
    h₂.buildPunctuation hf (fun _ ht => hl.punctuation ht) hpunctuation
  obtain ⟨d₄, hpoint'⟩ := h₃.bindLeadingPoint hl.point hpoint
  exact ⟨d₄, yields_bind.2 ⟨⟨⟩, d₁, hmatchers, yields_bind.2 ⟨⟨⟩, d₂, hdelimiters,
    yields_bind.2 ⟨⟨⟩, d₃, hpunctuation, hpoint'⟩⟩⟩,
    h₃.finish hf (Draft.pointed_of_yields hpoint') (Draft.pointed_of_yields hpoint)⟩

end Lexicon

/-- A lexicon is assembled by building its parts. -/
theorem Lexicon.assemble_eq_ok {lexicon : Lexicon} {matchers : List (GreedyMatcher Compilation)}
    {a : Automaton} : (lexicon.assemble matchers).result = .ok a ↔
      ∃ d, (lexicon.build matchers).Yields .start ⟨⟩ d ∧ lexicon.finish d = a := by
  simp only [assemble, Assembly.Yields]
  cases (lexicon.build matchers).run.run .start with
  | mk result d =>
    cases result with
    | error e => exact ⟨(fun h => by cases h), by rintro ⟨_, ⟨⟩, _⟩⟩
    | ok u => exact ⟨fun h => ⟨d, rfl, Except.ok.inj h⟩, by rintro ⟨_, ⟨⟩, rfl⟩; rfl⟩

/-- A grammar compiles if it is valid and its parts can be built. -/
theorem Grammar.compile_eq_ok {g : Grammar} {a : Automaton} : g.compile.result = .ok a ↔
    g.validate = .ok () ∧
      (g.toLexicon.assemble (compileMatchers g.greedyMatchers)).result = .ok a := by
  obtain ⟨lexicon, matchers⟩ := g
  rw [compile]
  cases Grammar.validate ⟨lexicon, matchers⟩ with
  | error e => exact ⟨(fun h => by cases h), by rintro ⟨⟨⟩, _⟩⟩
  | ok u => exact ⟨fun h => ⟨rfl, h⟩, fun h => h.2⟩

/-! ### The walk -/

/-- A walk makes one reroute at most: text that is rerouted goes on as what it is. -/
theorem Charted.resolve_eq {lexicon : Lexicon} {matchers : List (GreedyMatcher Compilation)}
    {a : Automaton} {place : NodeId → Locus} (h : Charted lexicon matchers a place) (n : NodeId)
    (s : Symbol) : a.resolve n s = a.resolveWithin 1 n s := by
  obtain ⟨hops, hsize⟩ := Nat.exists_eq_succ_of_ne_zero (Nat.ne_of_gt h.size_pos)
  have hrest {k : NodeId} (hk : (place k).IsRest) (i j : Nat) :
      a.resolveWithin i k s = a.resolveWithin j k s := by
    rw [StateGraph.resolveWithin, StateGraph.resolveWithin, (h.fallback k).eq_stay hk]
  rw [StateGraph.resolve, hsize, StateGraph.resolveWithin, StateGraph.resolveWithin]
  split
  · rfl
  · have hfit := h.fallback n
    cases hfall : (a.behaviour n).fallback with
    | reroute k =>
      rw [hfall] at hfit
      refine hrest ?_ hops 0
      cases hfit with
      | unknown => exact h.place_unknown ▸ Locus.isRest_unknown
      | enter hb => exact hb ▸ Locus.isRest_body ..
      | back hb => exact hb ▸ Locus.isRest_body ..
    | _ => rfl

/-- No text is rerouted to the root. -/
theorem Charted.ne_root_of_reroute {lexicon : Lexicon}
    {matchers : List (GreedyMatcher Compilation)} {a : Automaton} {place : NodeId → Locus}
    (h : Charted lexicon matchers a place) {n target : NodeId}
    (hr : (a.behaviour n).fallback = .reroute target) : target ≠ .root := by
  have hfit := h.fallback n
  rw [hr] at hfit
  rintro rfl
  cases hfit with
  | enter hb | back hb =>
    rw [h.place_root] at hb
    cases hb

/-- A step to the image of its node. -/
def Step.rename (f : NodeId → NodeId) : Step → Step
  | node n => .node (f n)
  | release label => .release label

namespace StateGraph

variable {f : NodeId → NodeId} {out : Symbol → Prop} {g g' : StateGraph} {n : NodeId} {s : Symbol}

theorem Mirrors.dispatch (h : g.Mirrors f out g') (hf : Renames f) (s : Symbol) :
    g'.dispatch s = f (g.dispatch s) := by
  cases s with
  | endOfInput => exact hf.unknown.symm
  | char c =>
    rw [StateGraph.dispatch, StateGraph.dispatch, h.identifierStart]
    split
    · exact hf.identifier.symm
    · split
      · exact hf.number.symm
      · exact hf.unknown.symm

theorem Mirrors.passes (h : g.Mirrors f out g') (test : CharTest) (s : Symbol) :
    g'.passes test s = g.passes test s := by
  cases s with
  | endOfInput => cases test <;> rfl
  | char c =>
    cases test with
    | identifierContinue => exact congrArg (·.contains c) h.identifierContinue
    | digit => rfl

theorem Mirrors.resolveWithin (h : g.Mirrors f out g') (hf : Renames f)
    (hroot : ∀ {n target}, (g.behaviour n).fallback = .reroute target → target ≠ .root)
    (hops : Nat) (hn : Trie.Keeps out n s) :
    g'.resolveWithin hops (f n) s = (g.resolveWithin hops n s).rename f := by
  induction hops generalizing n with
  | zero =>
    rw [StateGraph.resolveWithin, StateGraph.resolveWithin, h.child? hn,
      (h.behaviour n).fallback]
    cases g.trie.child? n s with
    | some m => rfl
    | none =>
      cases (g.behaviour n).fallback with
      | classify test hit miss =>
        simp only [Option.map_none, Fallback.rename, h.passes, Step.rename]
        split <;> rfl
      | dispatch => exact congrArg Step.node (h.dispatch hf s)
      | _ => rfl
  | succ hops ih =>
    rw [StateGraph.resolveWithin, StateGraph.resolveWithin, h.child? hn,
      (h.behaviour n).fallback]
    cases g.trie.child? n s with
    | some m => rfl
    | none =>
      cases hfall : (g.behaviour n).fallback with
      | classify test hit miss =>
        simp only [Option.map_none, Fallback.rename, h.passes, Step.rename]
        split <;> rfl
      | dispatch => exact congrArg Step.node (h.dispatch hf s)
      | reroute target => exact ih fun htarget => absurd htarget (hroot hfall)
      | _ => rfl

/-- A symbol leads from the image of a node to the image of where it leads from the node. -/
theorem Mirrors.resolve {lexicon lexicon' : Lexicon}
    {matchers matchers' : List (GreedyMatcher Compilation)} {a a' : Automaton}
    {place place' : NodeId → Locus} (h : a.toStateGraph.Mirrors f out a'.toStateGraph)
    (hf : Renames f) (ha : Charted lexicon matchers a place)
    (ha' : Charted lexicon' matchers' a' place') (hn : Trie.Keeps out n s) :
    a'.resolve (f n) s = (a.resolve n s).rename f := by
  rw [ha.resolve_eq, ha'.resolve_eq]
  exact h.resolveWithin hf ha.ne_root_of_reroute 1 hn

end StateGraph

end TrieLexer
