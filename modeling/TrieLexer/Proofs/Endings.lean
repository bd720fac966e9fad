import TrieLexer.Proofs.Compiled

/-!
# Ways out at the end of input

Text that is open when the input ends has to go out. Every part of a grammar that leaves text open
also builds an end of input for it: the ends of open-ended tokens and of runs are spelled by all
terminators and the empty literal, and a role that takes a node over either ends its text at once
or leads on to a node with an end. So in a finished automaton every node at which text may stand
open has a child for the end of input, and every such child acts.

## Main definitions

* `Lexicon.Proper` — no literal and no opener is empty.
* `Draft.IsOpen` — a node at which text may stand open.
* `Draft.Ended` — the open nodes that owe nothing have an end, and every end acts.
* `StateGraph.Ended` — the same for automata.

## Main results

* `Draft.Ended.modifyBehaviour`, `Draft.Ended.bind`, `Draft.Ended.prune` — the single steps.
* `Draft.Stages.ended` — nothing is owed when everything is built.
* `Grammar.ended_compile` — the automaton of a grammar that compiles.
-/

namespace TrieLexer

open Text (byteLength)

/-! ### Valid grammars -/

/-- No literal and no opener is empty. -/
structure Lexicon.Proper (lexicon : Lexicon) (matchers : List (GreedyMatcher Compilation)) :
    Prop where
  keyword {t : String} (h : t ∈ literalsOf lexicon.keywords) : t ≠ ""
  punctuation {t : String} (h : t ∈ literalsOf lexicon.punctuation) : t ≠ ""
  delimiter {t : String} (h : t ∈ literalsOf lexicon.delimiters) : t ≠ ""
  opener {m : GreedyMatcher Compilation} (h : m ∈ matchers) : m.startsWith ≠ ""

theorem ne_empty_of_refuse {kind : LiteralKind} {definitions : List Definition}
    (h : refuseEmptyLiteral kind definitions = .ok ()) {t : String}
    (ht : t ∈ literalsOf definitions) : t ≠ "" := by
  rw [refuseEmptyLiteral] at h
  split at h
  · cases h
  · next hany =>
    rintro rfl
    exact hany (List.any_eq_true.2 ⟨"", ht, rfl⟩)

theorem startsWith_ne_of_validate {m : GreedyMatcher Grammar} (h : validateMatcher m = .ok ()) :
    m.startsWith ≠ "" := by
  obtain ⟨kind, startsWith, endsWith, haltsWith, escapesWith, interior⟩ := m
  rw [validateMatcher] at h
  obtain ⟨⟨⟩, hm, -⟩ := bind_eq_ok.1 h
  rw [GreedyMatcher.validate] at hm
  rintro rfl
  cases hm

theorem startsWith_ne_of_validateMatchers {ms : List (GreedyMatcher Grammar)}
    (h : validateMatchers ms = .ok ()) {m : GreedyMatcher Grammar} (hm : m ∈ ms) :
    m.startsWith ≠ "" := by
  induction ms with
  | nil => cases hm
  | cons x ms ih =>
    rw [validateMatchers] at h
    obtain ⟨⟨⟩, hx, hms⟩ := bind_eq_ok.1 h
    rcases List.mem_cons.1 hm with rfl | hm
    · exact startsWith_ne_of_validate hx
    · exact ih hms hm

theorem startsWith_compileMatcher (m : GreedyMatcher Grammar) :
    (compileMatcher m).startsWith = m.startsWith := by
  obtain ⟨kind, startsWith, endsWith, haltsWith, escapesWith, interior⟩ := m
  rw [compileMatcher]

/-- A grammar that compiles is proper. -/
theorem Grammar.proper_compile {g : Grammar} {a : Automaton} (h : g.compile.result = .ok a) :
    g.toLexicon.Proper (compileMatchers g.greedyMatchers) := by
  obtain ⟨lexicon, matchers⟩ := g
  rw [compile] at h
  split at h
  · cases h
  · next hvalid =>
    rw [Grammar.validate] at hvalid
    obtain ⟨⟨⟩, hlexicon, hmatchers⟩ := bind_eq_ok.1 hvalid
    obtain ⟨⟨⟩, hkeyword, hrest⟩ := bind_eq_ok.1 hlexicon
    obtain ⟨⟨⟩, hpunctuation, hdelimiter⟩ := bind_eq_ok.1 hrest
    refine ⟨ne_empty_of_refuse hkeyword, ne_empty_of_refuse hpunctuation,
      ne_empty_of_refuse hdelimiter, fun hm => ?_⟩
    rw [compileMatchers_eq] at hm
    obtain ⟨x, hx, rfl⟩ := List.mem_map.1 hm
    rw [startsWith_compileMatcher]
    exact startsWith_ne_of_validateMatchers hmatchers hx

/-- What each literal of definitions keeps holds when all are built. -/
theorem Assembly.Yields.forM_literals {f : Definition → String → Assembly PUnit}
    {definitions : List Definition} {d d' : Draft} (Inv : Draft → Prop)
    (hstep : ∀ definition literal d₁ d₂, literal ∈ literalsOf definitions → Inv d₁ →
      (f definition literal).Yields d₁ ⟨⟩ d₂ → Inv d₂) (h : Inv d)
    (hy : (definitions.forM fun definition => definition.literals.forM (f definition)).Yields
      d ⟨⟩ d') : Inv d' := by
  refine hy.forM_definitions (fun _ d => Inv d) (fun _ => id) ?_ (fun _ => False) h
  intro definition hd literal hl _ d₁ d₂ h₁ hy₁
  exact hstep definition literal d₁ d₂ (List.mem_flatMap.2 ⟨definition, hd, hl⟩) h₁ hy₁

/-! ### Drafts -/

namespace Draft

open Assembly (yields_bind yields_pure yields_get yields_modify yields_modifyGet
  yields_pureExcept not_yields_throw)

/-- Text that stands open at a node has to get out at the end of input: the node is that of unknown
text, one that tells what text goes on as, or one that others lead to. -/
inductive IsOpen (d : Draft) (n : NodeId) : Prop
  | unknown (hn : n = .unknown)
  | classify {test : CharTest} {hit miss : NodeId}
      (hn : (d.site n).behaviour.fallback = .classify test hit miss)
  | target {k : NodeId} (hk : (d.site k).behaviour.fallback = .reroute n)
  | body {k : NodeId} {c : Close} (hk : (d.site k).behaviour.action = .close c) (hc : c.body = n)

/-- Every end of input acts, and every open node has one, unless it is still owing. -/
structure Ended (owing : NodeId → Prop) (d : Draft) : Prop where
  acts {n m : NodeId} (h : d.trie.child? n .endOfInput = some m) :
    (d.site m).behaviour.action ≠ .none
  ends {n : NodeId} (h : d.IsOpen n) (hn : ¬owing n) : ∃ m, d.trie.child? n .endOfInput = some m

variable {lexicon : Lexicon} {matchers : List (GreedyMatcher Compilation)}
  {pointed : Prop} {marked : String → Prop} {loose owing : NodeId → Prop} {d d' d₁ d₂ d₃ : Draft}
  {place place' : NodeId → Locus} {n k : NodeId} {steps : List Trie.Step}
  {literal terminator : String}

theorem Ended.owe (h : Ended owing d) {owing' : NodeId → Prop} (ho : ∀ n, owing n → owing' n) :
    Ended owing' d :=
  ⟨h.acts, fun hopen hn => h.ends hopen fun hn' => hn (ho _ hn')⟩

/-- A node that has got its end owes nothing. -/
theorem Ended.pay (h : Ended (fun k => owing k ∨ k = n) d)
    (hn : ∃ m, d.trie.child? n .endOfInput = some m) : Ended owing d := by
  refine ⟨h.acts, fun {k} hopen hk => ?_⟩
  by_cases hkn : k = n
  · exact hkn ▸ hn
  · exact h.ends hopen (by simp [hk, hkn])

theorem IsOpen.congr (h : d'.IsOpen n) (hb : ∀ k, (d'.site k).behaviour = (d.site k).behaviour) :
    d.IsOpen n := by
  cases h with
  | unknown hn => exact .unknown hn
  | classify hn => exact .classify (hb _ ▸ hn)
  | target hk => exact .target (hb _ ▸ hk)
  | body hk hc => exact .body (hb _ ▸ hk) hc

/-- What the ends of input depend on. -/
theorem Ended.congr (h : Ended owing d) (hc : ∀ n, d'.trie.child? n .endOfInput =
      d.trie.child? n .endOfInput)
    (hb : ∀ n, (d'.site n).behaviour = (d.site n).behaviour) : Ended owing d' := by
  refine ⟨fun hm => ?_, fun hopen hn => ?_⟩
  · rw [hb]
    exact h.acts (hc _ ▸ hm)
  · rw [hc]
    exact h.ends (hopen.congr hb) hn

theorem child?_bindNew' (d : Draft) (n : NodeId) (s u : Symbol) (k : NodeId) (hu : u ≠ s) :
    (d.bindNew n s).trie.child? k u = d.trie.child? k u := by
  rw [bindNew, Trie.child?, Trie.edges_setChild, Trie.edges_alloc, Trie.child?]
  split
  · rw [Edges.find?_insert, if_neg hu]
  · rfl

/-- Spelling characters does not touch the ends of input. -/
theorem Ended.extend (h : Ended owing d) {symbols : List Symbol} (hs : Symbol.endOfInput ∉ symbols)
    {t : Trie Site} (he : d.trie.extend n symbols = (t, steps)) :
    Ended owing { d with trie := t } := by
  induction symbols generalizing d n t steps with
  | nil =>
    cases he
    exact h
  | cons s symbols ih =>
    rw [List.mem_cons, not_or] at hs
    rw [Trie.extend, Trie.addChild] at he
    cases hc : d.trie.child? n s with
    | some m =>
      rw [hc] at he
      cases hrest : d.trie.extend m symbols with
      | mk t' steps' =>
        dsimp only at he
        rw [hrest] at he
        cases he
        exact ih h hs.2 hrest
    | none =>
      rw [hc] at he
      cases hrest : (d.bindNew n s).trie.extend d.trie.size symbols with
      | mk t' steps' =>
        rw [bindNew] at hrest
        dsimp only [Trie.alloc_snd] at he
        rw [hrest] at he
        cases he
        refine ih (d := d.bindNew n s) (h.congr (fun k => child?_bindNew' d n s _ k hs.1)
          fun k => ?_) hs.2 hrest
        rw [site_bindNew]

theorem endOfInput_not_mem_spelling (h : literal ≠ "") :
    Symbol.endOfInput ∉ spelling literal.toList := by
  rw [spelling, if_neg (by simpa using h)]
  simp

theorem Ended.path (h : Ended owing d) (hl : literal ≠ "")
    (hy : (Assembly.path n literal.toList).Yields d steps d') : Ended owing d' := by
  have hrun := yields_modifyGet.1 hy
  rw [Trie.path] at hrun
  cases he : d.trie.extend n (spelling literal.toList) with
  | mk t steps₁ =>
    rw [he] at hrun
    cases hrun
    exact h.extend (endOfInput_not_mem_spelling hl) he

/-- Which nodes are open when a node has got its behaviour. -/
theorem IsOpen.of_modifyBehaviour {f : Behaviour → Behaviour}
    (h : (d.modifyBehaviour n f).IsOpen k) (hn : n < d.trie.size) (hk : ¬owing k)
    (hclassify : ∀ test hit miss, (f (d.site n).behaviour).fallback = .classify test hit miss →
      d.IsOpen n ∨ owing n)
    (htarget : ∀ j, (f (d.site n).behaviour).fallback = .reroute j → d.IsOpen j ∨ owing j)
    (hbody : ∀ c, (f (d.site n).behaviour).action = .close c → d.IsOpen c.body ∨ owing c.body) :
    d.IsOpen k := by
  have hb := behaviour_modifyBehaviour hn f
  cases h with
  | unknown hn => exact .unknown hn
  | classify hc =>
    rw [hb] at hc
    split at hc
    · next heq =>
      subst heq
      exact (hclassify _ _ _ hc).resolve_right hk
    · exact .classify hc
  | target hj =>
    rw [hb] at hj
    split at hj
    · next heq =>
      subst heq
      exact (htarget _ hj).resolve_right hk
    · exact .target hj
  | body hj hc =>
    rw [hb] at hj
    split at hj
    · next heq =>
      subst heq
      exact hc ▸ (hbody _ hj).resolve_right (hc ▸ hk)
    · exact .body hj hc

/-- A node gets its behaviour. -/
theorem Ended.modifyBehaviour (h : Ended owing d) (hn : n < d.trie.size)
    {f : Behaviour → Behaviour}
    (hacts : (∃ k, d.trie.child? k .endOfInput = some n) →
      (f (d.site n).behaviour).action ≠ .none)
    (hclassify : ∀ test hit miss, (f (d.site n).behaviour).fallback = .classify test hit miss →
      d.IsOpen n ∨ owing n)
    (htarget : ∀ k, (f (d.site n).behaviour).fallback = .reroute k → d.IsOpen k ∨ owing k)
    (hbody : ∀ c, (f (d.site n).behaviour).action = .close c → d.IsOpen c.body ∨ owing c.body) :
    Ended owing (d.modifyBehaviour n f) := by
  refine ⟨fun {k m} hm => ?_, fun {k} hopen hk => ?_⟩
  · rw [child?_modifyBehaviour] at hm
    rw [behaviour_modifyBehaviour hn f]
    split
    · next heq =>
      subst heq
      exact hacts ⟨k, hm⟩
    · exact h.acts hm
  · rw [child?_modifyBehaviour]
    exact h.ends (hopen.of_modifyBehaviour hn hk hclassify htarget hbody) hk

theorem Ended.claim (h : Ended owing d) {policy : ConflictPolicy} {role : Role} {ok : Bool}
    (hy : (Assembly.claim policy n literal role).Yields d ok d₁) : Ended owing d₁ := by
  rcases hy.claim with ⟨-, ⟨ws, rfl⟩, -⟩ | ⟨-, rfl, -⟩
  · exact h.congr (fun k => child?_recordClaim role k _) (behaviour_recordClaim role)
  · exact h

theorem size_of_claim {policy : ConflictPolicy} {role : Role} {ok : Bool}
    (hy : (Assembly.claim policy n literal role).Yields d ok d₁) : d₁.trie.size = d.trie.size := by
  rcases hy.claim with ⟨-, ⟨ws, rfl⟩, -⟩ | ⟨-, rfl, -⟩
  · exact size_recordClaim role
  · rfl

theorem behaviour_of_claim {policy : ConflictPolicy} {role : Role} {ok : Bool}
    (hy : (Assembly.claim policy n literal role).Yields d ok d₁) (k : NodeId) :
    (d₁.site k).behaviour = (d.site k).behaviour := by
  rcases hy.claim with ⟨-, ⟨ws, rfl⟩, -⟩ | ⟨-, rfl, -⟩
  · exact behaviour_recordClaim role k
  · rfl

theorem child?_of_claim {policy : ConflictPolicy} {role : Role} {ok : Bool}
    (hy : (Assembly.claim policy n literal role).Yields d ok d₁) (k : NodeId) (s : Symbol) :
    d₁.trie.child? k s = d.trie.child? k s := by
  rcases hy.claim with ⟨-, ⟨ws, rfl⟩, -⟩ | ⟨-, rfl, -⟩
  · exact child?_recordClaim role k s
  · rfl

theorem size_rerouteCreated {target : NodeId}
    (hy : (Lexicon.rerouteCreated steps target).Yields d ⟨⟩ d') : d'.trie.size = d.trie.size := by
  refine hy.forM (fun _ d₁ => d₁.trie.size = d.trie.size) ?_ rfl
  intro step left d₁ d₂ hsize hy₁
  split at hy₁
  · obtain rfl := yields_modify.1 hy₁
    rwa [size_modifyBehaviour]
  · obtain ⟨-, rfl⟩ := yields_pure.1 hy₁
    exact hsize

/-- The new nodes on the way to the end of a run or of an open-ended token. -/
theorem Ended.rerouteCreated (h : Ended owing d) {target : NodeId}
    (hsteps : ∀ step ∈ steps, step.node < d.trie.size)
    (htarget : d.IsOpen target ∨ owing target)
    (hy : (Lexicon.rerouteCreated steps target).Yields d ⟨⟩ d') :
    Ended owing d' ∧ (d'.IsOpen target ∨ owing target) := by
  suffices hloop : Ended owing d' ∧ (∀ step ∈ ([] : List Trie.Step), step.node < d'.trie.size) ∧
      (d'.IsOpen target ∨ owing target) from ⟨hloop.1, hloop.2.2⟩
  refine hy.forM (fun left d => Ended owing d ∧ (∀ step ∈ left, step.node < d.trie.size) ∧
    (d.IsOpen target ∨ owing target)) ?_
      ⟨h, fun step hstep => hsteps step (List.dropLast_subset _ hstep), htarget⟩
  rintro step left d₁ d₂ ⟨h₁, hsteps₁, htarget₁⟩ hy₁
  have hleft (step' : Trie.Step) (hstep' : step' ∈ left) :=
    hsteps₁ step' (List.mem_cons_of_mem _ hstep')
  split at hy₁
  · obtain rfl := yields_modify.1 hy₁
    have hn := hsteps₁ step List.mem_cons_self
    refine ⟨h₁.modifyBehaviour hn (fun ⟨k, hk⟩ => h₁.acts hk) nofun ?_ ?_, fun s hs => ?_, .inl ?_⟩
    · rintro k ⟨⟩
      exact htarget₁
    · exact fun c hc => .inl (.body hc rfl)
    · simpa using hleft s hs
    · refine .target (k := step.node) ?_
      rw [behaviour_modifyBehaviour hn, if_pos rfl]
  · obtain ⟨-, rfl⟩ := yields_pure.1 hy₁
    exact ⟨h₁, hleft, htarget₁⟩

/-- The end of input is spelled by one symbol. -/
theorem path_end (hy : (Assembly.path n "".toList).Yields d steps d₁) :
    (∃ m, d.trie.child? n .endOfInput = some m ∧ steps = [⟨m, false⟩] ∧ d₁ = d) ∨
      d.trie.child? n .endOfInput = none ∧ steps = [⟨d.trie.size, true⟩] ∧
        d₁ = d.bindNew n .endOfInput := by
  have hrun := yields_modifyGet.1 hy
  change ((d.trie.extend n [.endOfInput]).2,
    ({ d with trie := (d.trie.extend n [.endOfInput]).1 } : Draft)) = _ at hrun
  rw [Trie.extend, Trie.addChild] at hrun
  cases hc : d.trie.child? n .endOfInput with
  | some m =>
    rw [hc] at hrun
    cases hrun
    exact .inl ⟨m, rfl, rfl, rfl⟩
  | none =>
    rw [hc] at hrun
    cases hrun
    exact .inr ⟨rfl, rfl, rfl⟩

/-- The end of input gets its behaviour. -/
theorem Ended.bindEnd (he : Ended owing d)
    (h : Charted lexicon matchers pointed marked loose d place) (hn : n < d.trie.size)
    (hpath : (Assembly.path n "".toList).Yields d steps d₁) {last : Trie.Step}
    (hlast : steps.getLast? = some last) {policy : ConflictPolicy} {role : Role} {ok : Bool}
    (hclaim : (Assembly.claim policy last.node literal role).Yields d₁ ok d₂)
    {f : Behaviour → Behaviour} (hstay : ∀ b, (f b).fallback = .stay)
    (hacts : ∀ b, (f b).action ≠ .none)
    (hbody : ∀ b c, (f b).action = .close c → d.IsOpen c.body ∨ owing c.body)
    (hd : d' = if ok then d₂.modifyBehaviour last.node f else d₂) :
    Ended owing d' ∧ ∃ m, d'.trie.child? n .endOfInput = some m := by
  have hchild (k : NodeId) (s : Symbol) : d'.trie.child? k s = d₁.trie.child? k s := by
    rw [hd, ← child?_of_claim hclaim]
    split <;> simp
  rcases path_end hpath with ⟨m, hm, rfl, rfl⟩ | ⟨hnone, rfl, rfl⟩
  · cases hlast
    refine ⟨?_, m, (hchild _ _).trans hm⟩
    rw [hd]
    split
    · refine (he.claim hclaim).modifyBehaviour ?_ (fun _ => hacts _) (fun _ _ _ hc => ?_)
        (fun _ hc => ?_) fun c hc => ?_
      · exact size_of_claim hclaim ▸ (h.child hm).1
      · cases (hstay _).symm.trans hc
      · cases (hstay _).symm.trans hc
      · exact (hbody _ c hc).imp_left fun ho => ho.congr fun k => (behaviour_of_claim hclaim k).symm
    · exact he.claim hclaim
  · obtain rfl : ⟨d.trie.size, true⟩ = last := Option.some.inj hlast
    dsimp only at hclaim hd
    have hnew : (d.bindNew n .endOfInput).trie.child? n .endOfInput = some d.trie.size := by
      rw [child?_bindNew hn, if_pos ⟨rfl, rfl⟩]
    cases ok with
    | false =>
      rcases hclaim.claim with ⟨⟨⟩, -⟩ | ⟨-, -, -, r, hr, -⟩
      rw [claim?, site_bindNew, site_of_size_le (Nat.le_refl _)] at hr
      cases hr
    | true =>
      rw [if_pos rfl] at hd
      have hsize : d.trie.size < d₂.trie.size := by
        rw [size_of_claim hclaim]
        simp [bindNew]
      have hb (k : NodeId) : (d₂.site k).behaviour = (d.site k).behaviour := by
        rw [behaviour_of_claim hclaim, site_bindNew]
      refine ⟨⟨fun {k m} hm => ?_, fun {k} hopen hk => ?_⟩, _, (hchild _ _).trans hnew⟩
      · rw [hd, behaviour_modifyBehaviour hsize]
        split
        · exact hacts _
        · next hne =>
          rw [hchild, child?_bindNew hn] at hm
          split at hm
          · exact absurd (Option.some.inj hm) hne
          · exact hb m ▸ he.acts hm
      · rw [hchild, child?_bindNew hn]
        split
        · exact ⟨_, rfl⟩
        · rw [hd] at hopen
          refine he.ends ((hopen.of_modifyBehaviour hsize hk ?_ ?_ ?_).congr hb) hk
          · exact fun _ _ _ hc => by cases (hstay _).symm.trans hc
          · exact fun _ hc => by cases (hstay _).symm.trans hc
          · exact fun c hc => (hbody _ c hc).imp_left fun ho => ho.congr fun k => (hb k).symm

/-- A terminator is spelled below a node, and its end gets its behaviour. -/
theorem Ended.bind (he : Ended owing d)
    (h : Charted lexicon matchers pointed marked loose d place) (hn : n < d.trie.size)
    {target : NodeId} (htarget : d.IsOpen target ∨ owing target)
    (hpath : (Assembly.path n terminator.toList).Yields d steps d₁)
    (hre : (Lexicon.rerouteCreated steps target).Yields d₁ ⟨⟩ d₂) {last : Trie.Step}
    (hlast : steps.getLast? = some last) {policy : ConflictPolicy} {role : Role} {ok : Bool}
    (hclaim : (Assembly.claim policy last.node literal role).Yields d₂ ok d₃)
    {f : Behaviour → Behaviour} (hstay : ∀ b, (f b).fallback = .stay)
    (hacts : ∀ b, (f b).action ≠ .none)
    (hbody : ∀ b c, (f b).action = .close c → c.body = target)
    (hd : d' = if ok then d₃.modifyBehaviour last.node f else d₃) :
    Ended owing d' ∧ (terminator = "" → ∃ m, d'.trie.child? n .endOfInput = some m) := by
  obtain ⟨place₁, h₁, hg₁, htrail⟩ := h.path hn hpath
  obtain ⟨last', hlast', hfollow⟩ := htrail.getLast? (spelling_ne_nil _)
  cases hlast'.symm.trans hlast
  by_cases hempty : terminator = ""
  · subst hempty
    have hsingle : steps.dropLast = [] := by
      rcases path_end hpath with ⟨m, -, rfl, -⟩ | ⟨-, rfl, -⟩ <;> rfl
    rw [Lexicon.rerouteCreated, hsingle] at hre
    obtain ⟨-, rfl⟩ := yields_pure.1 hre
    obtain ⟨he', hm⟩ := he.bindEnd h hn hpath hlast hclaim hstay hacts
      (fun b c hc => hbody b c hc ▸ htarget) hd
    exact ⟨he', fun _ => hm⟩
  · refine ⟨?_, fun h => absurd h hempty⟩
    obtain ⟨he₂, htarget₂⟩ := (he.path hempty hpath).rerouteCreated
      (fun step hstep => (h₁.trail htrail hstep).1)
      (htarget.imp_left fun ho => ho.congr fun k => by rw [site_of_path hpath]) hre
    have he₃ := he₂.claim hclaim
    rw [hd]
    split
    · refine he₃.modifyBehaviour ?_ (fun _ => hacts _) (fun _ _ _ hc => ?_) (fun _ hc => ?_)
        fun c hc => ?_
      · rw [size_of_claim hclaim, size_rerouteCreated hre]
        exact (h₁.follow? hfollow (Nat.lt_of_lt_of_le hn hg₁.size)).1
      · cases (hstay _).symm.trans hc
      · cases (hstay _).symm.trans hc
      · rw [hbody _ c hc]
        exact htarget₂.imp_left fun ho => ho.congr fun k => (behaviour_of_claim hclaim k).symm
    · exact he₃

/-- The end of an open-ended token. -/
theorem Ended.endBefore (he : Ended owing d)
    (h : Charted lexicon matchers pointed marked loose d place) (hn : n < d.trie.size)
    {label : Label} {weak : Bool}
    (hy : (lexicon.endBefore n label weak terminator).Yields d ⟨⟩ d') :
    Ended owing d' ∧ (terminator = "" → ∃ m, d'.trie.child? n .endOfInput = some m) := by
  obtain ⟨steps, d₁, hpath, hy₁⟩ := yields_bind.1 hy
  obtain ⟨⟨⟩, d₂, hre, hy₂⟩ := yields_bind.1 hy₁
  obtain ⟨-, -, -, htrail⟩ := h.path hn hpath
  obtain ⟨last, hlast, -⟩ := htrail.getLast? (spelling_ne_nil _)
  rw [hlast] at hy₂
  obtain ⟨ok, d₃, hclaim, hy₃⟩ := yields_bind.1 hy₂
  refine he.bind h hn (.inl (.unknown rfl)) hpath hre hlast hclaim
    (f := fun b =>
      { b with action := .boundary label (byteLength terminator.toList), fallback := .stay })
    (fun _ => rfl) (fun _ => nofun) (fun _ _ => nofun) ?_
  cases ok with
  | false => exact (yields_pure.1 hy₃).2.symm
  | true => exact (yields_modify.1 hy₃).symm

/-- The ends of an open-ended token, the end of input among them. -/
theorem Ended.endBeforeTerminators (he : Ended owing d)
    (h : Charted lexicon matchers pointed marked loose d place) (hn : n < d.trie.size)
    (hbody : ¬(place n).origin.IsBody) {label : Label} {weak : Bool}
    (hweak : weak = true ∨ ¬∃ t, marked t) (hpoint : pointed → (place n).origin ≠ .number)
    (hy : (lexicon.endBeforeTerminators n label weak).Yields d ⟨⟩ d') :
    Ended owing d' ∧ ∃ m, d'.trie.child? n .endOfInput = some m := by
  suffices Ended owing d' ∧ ∀ t ∈ lexicon.terminators, t ∉ ([] : List String) → t = "" →
      ∃ m, d'.trie.child? n .endOfInput = some m by
    refine ⟨this.1, this.2 "" ?_ List.not_mem_nil rfl⟩
    simp [Lexicon.terminators]
  have hloop := hy.forM (fun left d₁ =>
    (∃ place₁, Charted lexicon matchers pointed marked loose d₁ place₁ ∧
      d.Grows place d₁ place₁) ∧ (∀ t ∈ left, t ∈ lexicon.terminators) ∧ Ended owing d₁ ∧
      ∀ t ∈ lexicon.terminators, t ∉ left → t = "" → ∃ m, d₁.trie.child? n .endOfInput = some m)
    ?_ ⟨⟨place, h, .refl d place⟩, fun _ ht => ht, he, fun t ht hnot => absurd ht hnot⟩
  · exact ⟨hloop.2.2.1, hloop.2.2.2⟩
  rintro t left d₁ d₂ ⟨⟨place₁, h₁, hg₁⟩, hleft, he₁, hdone⟩ hy₁
  have hn₁ := Nat.lt_of_lt_of_le hn hg₁.size
  rw [← hg₁.place hn] at hbody hpoint
  obtain ⟨place₂, h₂, hg₂⟩ := h₁.endBefore hn₁ hbody (hleft t List.mem_cons_self) hweak hpoint hy₁
  obtain ⟨he₂, hend⟩ := he₁.endBefore h₁ hn₁ hy₁
  refine ⟨⟨place₂, h₂, hg₁.trans hg₂⟩, fun u hu => hleft u (List.mem_cons_of_mem _ hu), he₂,
    fun u hu hnot hempty => ?_⟩
  by_cases hut : u = t
  · exact hend (hut ▸ hempty)
  · obtain ⟨m, hm⟩ := hdone u hu (by simp [hut, hnot]) hempty
    exact ⟨m, hg₂.child hm⟩

/-! ### Words -/

/-- A node at the end of a character is no end of input. -/
theorem Charted.not_end (h : Charted lexicon matchers pointed marked loose d place) {q : Locus}
    {c : Char} (hn : place n = q.down (.char c)) (k : NodeId) :
    d.trie.child? k .endOfInput ≠ some n := by
  intro hk
  have hp := (h.child hk).2
  rw [hn] at hp
  obtain hd | ⟨-, ⟨⟩, -⟩ := (place k).down_eq_or .endOfInput
  rw [hd] at hp
  obtain hq | ⟨-, -, hq⟩ := q.down_eq_or (.char c)
  · rw [hq] at hp
    cases (List.append_inj' (Locus.mk.inj hp).2 rfl).2
  · rw [hq] at hp
    exact absurd (Locus.mk.inj hp).2.symm (by simp)

/-- The symbols of a literal are characters. -/
theorem exists_char (hl : literal ≠ "") {path : List Symbol} {s : Symbol}
    (h : path ++ [s] <+: spelling literal.toList) : ∃ c, s = .char c := by
  cases s with
  | char c => exact ⟨c, rfl⟩
  | endOfInput =>
    exact absurd (h.subset (List.mem_append_right _ List.mem_cons_self))
      (endOfInput_not_mem_spelling hl)

/-- A word so far, with its ends. -/
theorem Ended.openEnded (he : Ended owing d)
    (h : Charted lexicon matchers pointed marked loose d place) (hn : n < d.trie.size)
    (hroot : (place n).origin = .root) (hend : ∀ k, d.trie.child? k .endOfInput ≠ some n)
    {policy : ConflictPolicy} {role : Role} {ok : Bool}
    (hclaim : (Assembly.claim policy n literal role).Yields d ok d₁)
    {label : Label} {weak : Bool} (hweak : weak = true ∨ ¬∃ t, marked t)
    (hrole : role.isWeak ∨ ¬∃ t, marked t)
    (hacts : ∀ b : Behaviour,
      role.Acts { b with action := .none, fallback := Lexicon.identifierFallback })
    (hy : (if ok = true then do
        Assembly.modifyBehaviour n fun b =>
          { b with action := .none, fallback := Lexicon.identifierFallback }
        lexicon.endBeforeTerminators n label weak
      else pure PUnit.unit : Assembly PUnit).Yields d₁ ⟨⟩ d') : Ended owing d' := by
  cases ok with
  | false =>
    obtain ⟨-, rfl⟩ := yields_pure.1 hy
    exact he.claim hclaim
  | true =>
    obtain ⟨⟨⟩, d₂, hmod, hy₂⟩ := yields_bind.1 hy
    obtain rfl := yields_modify.1 hmod
    have hn₁ : n < d₁.trie.size := size_of_claim hclaim ▸ hn
    have he₁ : Ended (fun k => owing k ∨ k = n) d₁ := (he.claim hclaim).owe fun _ => .inl
    have he₂ := he₁.modifyBehaviour hn₁
      (f := fun b => { b with action := .none, fallback := Lexicon.identifierFallback })
      (fun ⟨k, hk⟩ => absurd ((child?_of_claim hclaim _ _).symm.trans hk) (hend k))
      (fun _ _ _ _ => .inr (.inr rfl)) (fun _ => nofun) fun _ => nofun
    obtain ⟨he', hm⟩ := he₂.endBeforeTerminators (h.assignWord hn hroot hclaim hrole hacts)
      (by simpa using hn₁) (Locus.isFree_of_root hroot).1 hweak
      (fun _ => by rw [hroot]; exact nofun) hy₂
    exact he'.pay hm

/-- A proper beginning of a keyword. -/
theorem Ended.buildPrefix (he : Ended owing d)
    (h : Charted lexicon matchers pointed marked loose d place) (hn : n < d.trie.size)
    (hroot : (place n).origin = .root) (hend : ∀ k, d.trie.child? k .endOfInput ≠ some n)
    {text : String} (hy : (lexicon.buildPrefix n text).Yields d ⟨⟩ d') : Ended owing d' := by
  obtain ⟨_, _, hget, hy₁⟩ := yields_bind.1 hy
  obtain ⟨rfl, rfl⟩ := yields_get.1 hget
  split at hy₁
  · obtain ⟨-, rfl⟩ := yields_pure.1 hy₁
    exact he
  · obtain ⟨ok, d₂, hclaim, hy₂⟩ := yields_bind.1 hy₁
    exact he.openEnded h hn hroot hend hclaim (.inl rfl) (.inl rfl) (fun _ => ⟨rfl, nofun⟩) hy₂

/-- A keyword. -/
theorem Ended.buildKeyword (he : Ended owing d)
    (h : Charted lexicon matchers pointed marked loose d place) (hmarked : ¬∃ t, marked t)
    (hl : literal ≠ "") {label : Label}
    (hy : (lexicon.buildKeyword label literal).Yields d ⟨⟩ d') : Ended owing d' := by
  obtain ⟨steps, d₁, hpath, hy₁⟩ := yields_bind.1 hy
  obtain ⟨⟨⟩, d₂, hloop, hy₂⟩ := yields_bind.1 hy₁
  obtain ⟨place₁, h₁, hg₁, htrail⟩ := h.path h.root_lt_size hpath
  have hstep {step : Trie.Step} (hmem : step ∈ steps) : step.node < d₁.trie.size ∧
      (place₁ step.node).origin = .root ∧
      ∃ (q : Locus) (c : Char), place₁ step.node = q.down (.char c) := by
    obtain ⟨hsize, path, s, hprefix, hp⟩ := h₁.trail htrail hmem
    obtain ⟨c, rfl⟩ := exists_char hl hprefix
    exact ⟨hsize, by rw [hp, h₁.place_root, Locus.origin_down_walk_root], _, c, hp⟩
  have hwords := hloop.forM (fun left d => (∀ x ∈ left, x.1 ∈ steps) ∧ Ended owing d ∧
      ∃ loose place, Charted lexicon matchers pointed marked loose d place ∧
        d₁.Grows place₁ d place) ?_ ⟨fun x hx => mem_of_mem_properPrefixes hx, he.path hl hpath, _,
          place₁, h₁, .refl d₁ place₁⟩
  · obtain ⟨-, he₂, loose₂, place₂, h₂, hg₂⟩ := hwords
    obtain ⟨last, hlast, -⟩ := htrail.getLast? (spelling_ne_nil _)
    obtain ⟨hsize, hroot, q, c, hp⟩ := hstep (List.mem_of_getLast? hlast)
    rw [hlast] at hy₂
    obtain ⟨ok, d₃, hclaim, hy₃⟩ := yields_bind.1 hy₂
    rw [← hg₂.place hsize] at hroot hp
    exact he₂.openEnded h₂ (Nat.lt_of_lt_of_le hsize hg₂.size) hroot (h₂.not_end hp) hclaim
      (.inr hmarked) (.inr hmarked) (fun _ => ⟨rfl, nofun⟩) hy₃
  · rintro x left d₂ d₃ ⟨hleft, he₂, loose₂, place₂, h₂, hg₂⟩ hy₂
    obtain ⟨hsize, hroot, q, c, hp⟩ := hstep (hleft x List.mem_cons_self)
    rw [← hg₂.place hsize] at hroot hp
    have hsize₂ := Nat.lt_of_lt_of_le hsize hg₂.size
    obtain ⟨place₃, h₃, hg₃⟩ := h₂.buildPrefix hsize₂ hroot hy₂
    exact ⟨fun y hy => hleft y (List.mem_cons_of_mem _ hy),
      he₂.buildPrefix h₂ hsize₂ hroot (h₂.not_end hp) hy₂, _, place₃, h₃, hg₂.trans hg₃⟩

/-- A literal that is spelled from the root. -/
theorem Ended.rootPath (he : Ended owing d)
    (h : Charted lexicon matchers pointed marked loose d place) (hl : literal ≠ "")
    (hy : (lexicon.rootPath literal).Yields d n d') : Ended owing d' := by
  obtain ⟨steps, d₁, hpath, hy₁⟩ := yields_bind.1 hy
  obtain ⟨⟨⟩, d₂, hloop, hy₂⟩ := yields_bind.1 hy₁
  obtain ⟨rfl, rfl⟩ := yields_pure.1 hy₂
  obtain ⟨place₁, h₁, hg₁, htrail⟩ := h.path h.root_lt_size hpath
  refine (hloop.forM (fun left d => (∀ x ∈ left, x.1 ∈ steps) ∧ Ended owing d ∧
      ∃ loose place, Charted lexicon matchers pointed marked loose d place ∧
        d₁.Grows place₁ d place) ?_ ⟨fun x hx => mem_of_mem_properPrefixes hx, he.path hl hpath, _,
          place₁, h₁, .refl d₁ place₁⟩).2.1
  rintro ⟨step, text⟩ left d₂ d₃ ⟨hleft, he₂, loose₂, place₂, h₂, hg₂⟩ hy₂
  have hrest (y : Trie.Step × String) (hy : y ∈ left) := hleft y (List.mem_cons_of_mem _ hy)
  obtain ⟨hsize, path, s, hprefix, hp⟩ := h₁.trail htrail (hleft _ List.mem_cons_self)
  obtain ⟨c, rfl⟩ := exists_char hl hprefix
  have hroot : (place₁ step.node).origin = .root := by
    rw [hp, h₁.place_root, Locus.origin_down_walk_root]
  rw [← hg₂.place hsize] at hp hroot
  have hsize₂ := Nat.lt_of_lt_of_le hsize hg₂.size
  dsimp only at hy₂
  split at hy₂
  · obtain ⟨-, rfl⟩ := yields_pure.1 hy₂
    exact ⟨hrest, he₂, _, place₂, h₂, hg₂⟩
  · split at hy₂
    · obtain ⟨place₃, h₃, hg₃⟩ := h₂.buildPrefix hsize₂ hroot hy₂
      exact ⟨hrest, he₂.buildPrefix h₂ hsize₂ hroot (h₂.not_end hp) hy₂, _, place₃, h₃,
        hg₂.trans hg₃⟩
    · obtain rfl := yields_modify.1 hy₂
      have h₃ := h₂.reroute hsize₂ (f := .reroute .unknown) nofun
        (.unknown (Locus.isFree_of_root hroot))
      refine ⟨hrest,
        he₂.modifyBehaviour hsize₂ (fun ⟨k, hk⟩ => absurd hk (h₂.not_end hp k)) nofun ?_ ?_,
        _, place₂, h₃, hg₂.trans ((Grows.refl d₂ place₂).modifyBehaviour _)⟩
      · rintro k ⟨⟩
        exact .inl (.unknown rfl)
      · exact fun c hc => .inl (.body hc rfl)

/-! ### Greedy runs -/

/-- The end of a greedy run. -/
theorem Ended.endRun (he : Ended owing d)
    (h : Charted lexicon matchers pointed marked loose d place) {close : Close}
    (hn : close.body < d.trie.size) (hopen : d.IsOpen close.body ∨ owing close.body)
    (hy : (lexicon.endRun terminator close).Yields d ⟨⟩ d') :
    Ended owing d' ∧ (terminator = "" → ∃ m, d'.trie.child? close.body .endOfInput = some m) := by
  obtain ⟨steps, d₁, hpath, hy₁⟩ := yields_bind.1 hy
  obtain ⟨⟨⟩, d₂, hre, hy₂⟩ := yields_bind.1 hy₁
  obtain ⟨-, -, -, htrail⟩ := h.path hn hpath
  obtain ⟨last, hlast, -⟩ := htrail.getLast? (spelling_ne_nil _)
  rw [hlast] at hy₂
  obtain ⟨ok, d₃, hclaim, hy₃⟩ := yields_bind.1 hy₂
  refine he.bind h hn hopen hpath hre hlast hclaim
    (f := fun b => { b with fallback := .stay, action := .close close })
    (fun _ => rfl) (fun _ => nofun) (fun _ _ hc => by cases hc; rfl) ?_
  cases ok with
  | false => exact (yields_pure.1 hy₃).2.symm
  | true => exact (yields_modify.1 hy₃).symm

/-- Pruning takes ends from the pruned node only. -/
theorem Ended.prune (he : Ended owing d) (hp : Prunes n d d') :
    Ended (fun k => owing k ∨ k = n) d' := by
  refine ⟨fun hm => ?_, fun hopen hk => ?_⟩
  · rw [hp.behaviour]
    exact he.acts (hp.child hm)
  · rw [not_or] at hk
    rw [Trie.child?, hp.edges hk.2]
    exact he.ends (hopen.congr hp.behaviour) hk.1

/-- A node that is not open owes nothing. -/
theorem Ended.excuse (he : Ended (fun k => owing k ∨ k = n) d) (hn : ¬d.IsOpen n) :
    Ended owing d :=
  ⟨he.acts, fun hopen hk => he.ends hopen fun hor =>
    hor.elim hk fun heq => hn (heq ▸ hopen)⟩

/-- A literal from the root is only open if it tells what text goes on as. -/
theorem Charted.not_isOpen (h : Charted lexicon matchers pointed marked loose d place)
    (hn : (place n).origin = .root)
    (hclassify : ∀ test hit miss, (d.site n).behaviour.fallback ≠ .classify test hit miss) :
    ¬d.IsOpen n := by
  have hbody {b : NodeId} {m : GreedyMatcher Compilation} {nested : Option RunId}
      {path : List Symbol} (hp : place n = ⟨.body b m nested, path⟩) : False := by
    rw [hp] at hn
    cases hn
  have hunknown : n ≠ .unknown := by
    rintro rfl
    have hp := h.origin (o := .unknown) (Origin.not_isBody_of_mem (by simp))
    cases hn.symm.trans (congrArg Locus.origin hp)
  rintro (hn' | hc | @⟨k, hk⟩ | @⟨k, _, hk, rfl⟩)
  · exact hunknown hn'
  · exact hclassify _ _ _ hc
  · have hfit := h.fallback k
    rw [hk] at hfit
    cases hfit with
    | unknown => exact hunknown rfl
    | enter hb => exact hbody hb
    | back hb => exact hbody hb
  · have hfit := h.action k
    rw [hk] at hfit
    cases hfit with
    | close hp hc => exact hbody (hc.body ▸ h.place_body hp)

/-- A literal from the root is claimed, loses the ends of what it was before, and gets its
behaviour. -/
theorem Ended.occupy (he : Ended owing d)
    (h : Charted lexicon matchers pointed marked loose d place) (hl : literal ≠ "")
    (hn : place n = ⟨.root, spelling literal.toList⟩) {policy : ConflictPolicy} {role : Role}
    (hclaim : (Assembly.claim policy n literal role).Yields d true d₁) (hp : Prunes n d₁ d₂)
    {f : Behaviour → Behaviour} (hbody : ∀ b c, (f b).action ≠ .close c)
    (hclassify : ∀ b test hit miss, (f b).fallback ≠ .classify test hit miss)
    (htarget : ∀ b k, (f b).fallback = .reroute k → owing k) {loose' : NodeId → Prop}
    (h' : Charted lexicon matchers pointed marked loose' (d₂.modifyBehaviour n f) place) :
    Ended owing (d₂.modifyBehaviour n f) := by
  have hsize : n < d₂.trie.size := by
    rw [hp.size, size_of_claim hclaim]
    exact h.lt_size (by rw [hn]; simp)
  have hend (k : NodeId) : d.trie.child? k .endOfInput ≠ some n := by
    obtain ⟨front, s, hsplit⟩ :=
      (List.eq_nil_or_concat _).resolve_left (spelling_ne_nil literal.toList)
    rw [List.concat_eq_append] at hsplit
    obtain ⟨c, rfl⟩ := exists_char hl ⟨[], by rw [List.append_nil, hsplit]⟩
    refine h.not_end (q := ⟨.root, front⟩) (c := c) ?_ k
    rw [hn, hsplit, Locus.down_of_origin_ne (by simp)]
  have he' := ((he.claim hclaim).prune hp).modifyBehaviour hsize
    (f := f)
    (fun ⟨k, hk⟩ => absurd ((child?_of_claim hclaim _ _).symm.trans (hp.child hk)) (hend k))
    (fun _ _ _ hc => absurd hc (hclassify _ _ _ _)) (fun _ hc => .inr (.inl (htarget _ _ hc)))
    fun _ hc => absurd hc (hbody _ _)
  refine he'.excuse (h'.not_isOpen (by rw [hn]) fun test hit miss => ?_)
  rw [behaviour_modifyBehaviour hsize, if_pos rfl]
  exact hclassify _ _ _ _

/-- The body of a run is not open when it is created. -/
theorem Ended.addBody (he : Ended owing d)
    (h : Charted lexicon matchers pointed marked loose d place)
    (runs : Array (NestedRun Automaton)) (ws : Array Warning) (nested : Option RunId) :
    Ended owing (d.bindBody runs ws nested) := by
  have hchild (k : NodeId) (s : Symbol) :
      (d.bindBody runs ws nested).trie.child? k s = d.trie.child? k s := by
    simp [bindBody]
  refine ⟨fun hk => ?_, fun {k} hopen hk => ?_⟩
  · rw [hchild] at hk
    rw [site_bindBody, if_neg (Nat.ne_of_lt (h.child hk).1)]
    exact he.acts hk
  · rw [hchild]
    refine he.ends ?_ hk
    cases hopen with
    | unknown hn => exact .unknown hn
    | classify hc =>
      rw [site_bindBody] at hc
      split at hc
      · cases hc
      · exact .classify hc
    | target hj =>
      rw [site_bindBody] at hj
      split at hj
      · cases hj
      · exact .target hj
    | body hj hc =>
      rw [site_bindBody] at hj
      split at hj
      · cases hj
      · exact .body hj hc

theorem Ended.addOpener (he : Ended owing d) :
    Ended owing { d with openers := d.openers ++ [(n, k)] } :=
  he.congr (fun _ => rfl) fun _ => rfl

/-- A greedy run with a terminator. -/
theorem Ended.buildRun {m : GreedyMatcher Compilation} (he : Ended owing d)
    (h : Charted lexicon matchers pointed marked loose d place) (hmarked : ¬∃ t, marked t)
    (hm : m ∈ matchers) (hl : m.startsWith ≠ "") (ht : m.terminator = some terminator)
    (hy : (lexicon.buildRun m terminator).Yields d ⟨⟩ d') : Ended owing d' := by
  obtain ⟨opener, d₁, hopener, hy⟩ := yields_bind.1 hy
  obtain ⟨body, d₂, hbody, hy⟩ := yields_bind.1 hy
  obtain ⟨escape, d₃, hescape, hy⟩ := yields_bind.1 hy
  obtain ⟨nested, d₄, hnested, hy⟩ := yields_bind.1 hy
  obtain ⟨⟨⟩, d₅, hrun, hy⟩ := yields_bind.1 hy
  obtain ⟨place₁, h₁, -, hsize₁, hp₁, -⟩ := h.rootPath hopener
  cases yields_modifyGet.1 hbody
  obtain ⟨hchar, rfl⟩ := yields_pureExcept.1 hescape
  obtain ⟨more, ws, rfl, hnests, hmore⟩ := nests_of_yields ht hnested
  obtain rfl := yields_modify.1 hrun
  obtain ⟨place₅, h₅, hg₅, hb₅⟩ := h₁.addBody hm hnests hmore ws
  have he₅ :
      Ended (fun k => owing k ∨ k = d₁.trie.size) (d₁.bindBody (d₁.runs ++ more) ws nested) :=
    ((he.rootPath h hl hopener).addBody h₁ ..).owe fun _ => .inl
  have hp₅ := (hg₅.place hsize₁).trans hp₁
  have hsize₅ := Nat.lt_of_lt_of_le hsize₁ hg₅.size
  obtain ⟨ok, d₆, hclaim, hy⟩ := yields_bind.1 hy
  cases ok with
  | false => cases isWeak_of_yields hclaim
  | true =>
    obtain ⟨⟨⟩, d₇, hprune, hy⟩ := yields_bind.1 hy
    obtain rfl := yields_modify.1 hprune
    obtain ⟨⟨⟩, d₈, hmod, hy⟩ := yields_bind.1 hy
    obtain rfl := yields_modify.1 hmod
    obtain ⟨⟨⟩, d₉, hmod, hy⟩ := yields_bind.1 hy
    obtain rfl := yields_modify.1 hmod
    have hprunes := prunes_pruneBoundaries (h₅.sorted_of_yields hclaim opener)
    have h₈ := (h₅.assignOpener hclaim hmarked hb₅ hp₅ fun _ => ⟨rfl, nofun⟩).loosen fun k hk =>
      hk.1.resolve_right hk.2
    have he₈ := he₅.occupy h₅ hl hp₅ hclaim hprunes
      (f := fun b => { b with action := .none, fallback := .reroute d₁.trie.size })
      (fun _ _ => nofun) (fun _ _ _ _ => nofun) (fun _ _ hc => by cases hc; exact .inr rfl) h₈
    have h₉ := h₈.addOpener hb₅ hp₅
    have he₉ := he₈.addOpener (n := opener) (k := d₁.trie.size)
    obtain ⟨⟨⟩, d₁₀, hend, hy⟩ := yields_bind.1 hy
    obtain ⟨place₁₀, h₁₀, hg₁₀⟩ := h₉.endRun hmarked hb₅
      ⟨rfl, rfl, rfl, rfl, .inl ⟨ht, rfl, rfl, hchar⟩⟩ hend
    have hsize₉ := h₉.lt_size (n := d₁.trie.size) (by rw [hb₅]; simp)
    have hb₁₀ := (hg₁₀.place hsize₉).trans hb₅
    have hsize₁₀ := h₁₀.lt_size (n := d₁.trie.size) (by rw [hb₁₀]; simp)
    have he₁₀ := (he₉.endRun h₉ hsize₉ (.inr (.inr rfl)) hend).1
    obtain ⟨⟨⟩, d₁₁, hend, hy⟩ := yields_bind.1 hy
    obtain ⟨place₁₁, h₁₁, hg₁₁⟩ := h₁₀.endRun hmarked hb₁₀
      ⟨rfl, rfl, rfl, rfl, .inr (.inl ⟨rfl, rfl, rfl, rfl⟩)⟩ hend
    have hb₁₁ := (hg₁₁.place hsize₁₀).trans hb₁₀
    obtain ⟨he₁₁, hout⟩ := he₁₀.endRun h₁₀ hsize₁₀ (.inr (.inr rfl)) hend
    split at hy
    · obtain ⟨-, rfl⟩ := yields_pure.1 hy
      exact he₁₁.pay (hout rfl)
    · have hsize₁₁ := h₁₁.lt_size (n := d₁.trie.size) (by rw [hb₁₁]; simp)
      obtain ⟨place₁₂, -, hg₁₂⟩ := h₁₁.endRun hmarked hb₁₁
        ⟨rfl, rfl, rfl, rfl, .inr (.inr ⟨‹_›, rfl, rfl, hchar⟩)⟩ hy
      obtain ⟨k, hk⟩ := hout rfl
      exact (he₁₁.endRun h₁₁ hsize₁₁ (.inr (.inr rfl)) hy).1.pay ⟨k, hg₁₂.child hk⟩

/-- All greedy matchers. -/
theorem Ended.buildMatchers (he : Ended owing d)
    (h : Charted lexicon matchers pointed marked loose d place) (hmarked : ¬∃ t, marked t)
    (hproper : lexicon.Proper matchers) (hy : (lexicon.buildMatchers matchers).Yields d ⟨⟩ d') :
    Ended owing d' := by
  refine (hy.forM (fun ms d => Ended owing d ∧ (∀ m ∈ ms, m ∈ matchers) ∧
    ∃ place, Charted lexicon matchers pointed marked loose d place) ?_
    ⟨he, fun _ hm => hm, place, h⟩).1
  rintro m ms d₁ d₂ ⟨he₁, hms, place₁, h₁⟩ hy₁
  have hm := hms m List.mem_cons_self
  have hrest (m' : GreedyMatcher Compilation) (hm' : m' ∈ ms) := hms m' (List.mem_cons_of_mem _ hm')
  split at hy₁
  · obtain ⟨place₂, h₂, -⟩ := h₁.buildKeyword hmarked hy₁
    exact ⟨he₁.buildKeyword h₁ hmarked (hproper.opener hm) hy₁, hrest, place₂, h₂⟩
  · next terminator ht =>
    exact ⟨he₁.buildRun h₁ hmarked hm (hproper.opener hm) ht hy₁, hrest,
      h₁.buildRun hmarked hm ht hy₁⟩

/-! ### Literals -/

/-- All keywords. -/
theorem Ended.buildKeywords (he : Ended owing d)
    (h : Charted lexicon matchers pointed marked loose d place) (hmarked : ¬∃ t, marked t)
    (hproper : lexicon.Proper matchers) (hy : lexicon.buildKeywords.Yields d ⟨⟩ d') :
    Ended owing d' := by
  refine (hy.forM_literals (fun d => Ended owing d ∧
    ∃ place, Charted lexicon matchers pointed marked loose d place) ?_ ⟨he, place, h⟩).1
  rintro definition literal d₁ d₂ hliteral ⟨he₁, place₁, h₁⟩ hy₁
  obtain ⟨place₂, h₂, -⟩ := h₁.buildKeyword hmarked hy₁
  exact ⟨he₁.buildKeyword h₁ hmarked (hproper.keyword hliteral) hy₁, place₂, h₂⟩

/-- A delimiter. -/
theorem Ended.buildDelimiter (he : Ended owing d)
    (h : Charted lexicon matchers pointed marked loose d place) (hl : literal ≠ "")
    {label : Option Label} (hy : (lexicon.buildDelimiter label literal).Yields d ⟨⟩ d') :
    Ended owing d' := by
  obtain ⟨n, d₁, hpath, hy⟩ := yields_bind.1 hy
  obtain ⟨place₁, h₁, -, hsize, -⟩ := h.rootPath hpath
  have he₁ := he.rootPath h hl hpath
  obtain ⟨ok, d₂, hclaim, hy⟩ := yields_bind.1 hy
  cases ok with
  | false => cases isWeak_of_yields hclaim
  | true =>
    obtain rfl := yields_modify.1 hy
    exact (he₁.claim hclaim).modifyBehaviour (size_of_claim hclaim ▸ hsize) (fun _ => nofun)
      (fun _ _ _ hc => .inl (.classify hc)) (fun _ hk => .inl (.target hk)) fun _ => nofun

/-- A punctuation literal. -/
theorem Ended.buildMark (he : Ended owing d)
    (h : Charted lexicon matchers pointed marked loose d place) (hl : literal ≠ "")
    {label : Label} (hy : (lexicon.buildMark label literal).Yields d ⟨⟩ d') : Ended owing d' := by
  obtain ⟨n, d₁, hpath, hy⟩ := yields_bind.1 hy
  obtain ⟨place₁, h₁, -, hsize, hp, -⟩ := h.rootPath hpath
  have he₁ := he.rootPath h hl hpath
  obtain ⟨ok, d₂, hclaim, hy⟩ := yields_bind.1 hy
  cases ok with
  | false => cases isWeak_of_yields hclaim
  | true =>
    obtain ⟨⟨⟩, d₃, hprune, hy⟩ := yields_bind.1 hy
    obtain rfl := yields_modify.1 hprune
    obtain rfl := yields_modify.1 hy
    have hprunes := prunes_pruneBoundaries (h₁.sorted_of_yields hclaim n)
    have h₂ := h₁.assign hclaim hprunes hsize (by rw [hp]; simp)
      (fun b => { b with action := .none, fallback := .release label })
      (fun _ => rfl) (.release (by rw [hp]) (by rw [hp]; exact spelling_ne_nil _) label)
      .none ⟨rfl, nofun⟩ (.inl trivial) fun _ => h₁.ne_float hp
    exact he₁.occupy h₁ hl hp hclaim hprunes (fun _ _ => nofun) (fun _ _ _ _ => nofun)
      (fun _ _ => nofun) h₂

/-! ### The whole -/

theorem ended_start :
    Ended (fun k => ((k = .float ∨ k = .number) ∨ k = .identifier) ∨ k = .unknown) start := by
  refine ⟨fun hm => ?_, fun {n} hopen hn => ?_⟩
  · rw [Trie.child?, edges_start] at hm
    split at hm <;> cases hm
  · cases hopen with
    | unknown hu => exact absurd (.inr hu) hn
    | classify hc => rw [site_start] at hc; cases hc
    | target hk => rw [site_start] at hk; cases hk
    | body hk => rw [site_start] at hk; cases hk

theorem Charted.origin_not_end (h : Charted lexicon matchers pointed marked loose d place)
    {o : Origin} (ho : ¬o.IsBody) (k : NodeId) : d.trie.child? k .endOfInput ≠ some o.node := by
  intro hk
  have hp := (h.child hk).2
  rw [h.origin ho] at hp
  obtain hd | ⟨-, ⟨⟩, -⟩ := (place k).down_eq_or .endOfInput
  rw [hd] at hp
  exact absurd (Locus.mk.inj hp).2.symm (by simp)

/-- An open-ended category tells what text goes on as. -/
theorem Ended.classify (he : Ended owing d) (hn : n < d.trie.size)
    (hend : ∀ k, d.trie.child? k .endOfInput ≠ some n) (howing : owing n)
    {f : Behaviour → Behaviour} {test : CharTest} {hit miss : NodeId}
    (hf : ∀ b, (f b).fallback = .classify test hit miss)
    (ha : ∀ b c, (f b).action = .close c → b.action = .close c) :
    Ended owing (d.modifyBehaviour n f) := by
  refine he.modifyBehaviour hn (fun ⟨k, hk⟩ => absurd hk (hend k)) (fun _ _ _ _ => .inr howing)
    (fun k hk => ?_) fun c hc => .inl (.body (ha _ c hc) rfl)
  cases (hf _).symm.trans hk

/-- The ends of the tokens of a category. -/
theorem Ended.endCategory (he : Ended (fun k => owing k ∨ k = n) d)
    (h : Charted lexicon matchers pointed marked loose d place) (hmarked : ¬∃ t, marked t)
    {o : Origin} (hn : o.node = n) (ho : ¬o.IsBody) (hpoint : pointed → o ≠ .number)
    {label : Label} (hy : (lexicon.endBeforeTerminators n label false).Yields d ⟨⟩ d') :
    Ended owing d' := by
  subst hn
  have hp := h.origin ho
  obtain ⟨he', hend⟩ := he.endBeforeTerminators h (h.origin_lt_size ho) (hp ▸ ho) (.inr hmarked)
    (fun hpointed => by rw [hp]; exact hpoint hpointed) hy
  exact he'.pay hend

/-- The open-ended categories. -/
theorem Ended.buildCategories
    (he : Ended (fun k => ((k = .float ∨ k = .number) ∨ k = .identifier) ∨ k = .unknown) d)
    (h : Charted lexicon matchers False (fun _ => False)
      (fun k => k = .identifier ∨ k = .number ∨ k = .float) d place)
    (hy : lexicon.buildCategories.Yields d ⟨⟩ d') : Ended (fun _ => False) d' := by
  have hmarked : ¬∃ t : String, (fun _ => False) t := fun ⟨_, h⟩ => h
  have hidentifier : ¬Origin.identifier.IsBody := Origin.not_isBody_of_mem (by simp)
  have hnumber : ¬Origin.number.IsBody := Origin.not_isBody_of_mem (by simp)
  have hfloat : ¬Origin.float.IsBody := Origin.not_isBody_of_mem (by simp)
  obtain ⟨chart, unknown, chart₁, identifier, chart₂, number, chart₃, claim, chart₄, float, -⟩ :=
    h.categories hy
  have he₁ := he.classify (h.origin_lt_size hidentifier) (h.origin_not_end hidentifier)
    (f := fun b => { b with fallback := Lexicon.identifierFallback }) (.inl (.inr rfl))
    (fun _ => rfl) fun _ _ hc => hc
  have he₂ := he₁.classify (n := Origin.number.node) (by simpa using h.origin_lt_size hnumber)
    (by simpa using h.origin_not_end hnumber)
    (f := fun b => { b with fallback := .classify .digit .number .unknown })
    (.inl (.inl (.inr rfl)))
    (fun _ => rfl) fun _ _ hc => hc
  have he₃ := he₂.endCategory chart hmarked (o := .unknown) rfl
    (Origin.not_isBody_of_mem (by simp)) nofun unknown
  have he₄ := he₃.endCategory chart₁ hmarked (o := .identifier) rfl hidentifier nofun identifier
  have he₅ := he₄.endCategory chart₂ hmarked (o := .number) rfl hnumber nofun number
  have he₆ := (he₅.claim claim).classify (n := .float)
    (size_of_claim claim ▸ chart₃.origin_lt_size hfloat)
    (fun k => child?_of_claim claim k _ ▸ chart₃.origin_not_end hfloat k)
    (f := fun b => { b with action := .none, fallback := .classify .digit .float .unknown }) rfl
    (fun _ => rfl) fun _ _ hc => nomatch hc
  exact (he₆.owe fun _ => .inr).endCategory chart₄ hmarked (o := .float) rfl hfloat (fun _ => nofun)
    float

/-- The draft that is built has a way out of every open node. -/
theorem Stages.ended (h : Stages lexicon matchers d') (hproper : lexicon.Proper matchers) :
    ∃ d place, Charted lexicon matchers True
        (fun t => t ∈ literalsOf lexicon.delimiters ∨ t ∈ literalsOf lexicon.punctuation)
        (fun _ => False) d place ∧ Pointed lexicon d d' ∧ Ended (fun _ => False) d := by
  have hmarked : ¬∃ t : String, (fun _ => False) t := fun ⟨_, h⟩ => h
  obtain ⟨categories, chart₁, keywords, chart₂, runs, chart₃, delimiters, chart₄, punctuation,
    chart₅, point⟩ := h
  have hstart : Charted lexicon matchers False (fun _ => False)
      (fun k => k = .identifier ∨ k = .number ∨ k = .float) start startPlace := charted_start
  have he₁ := ended_start.buildCategories hstart categories
  have he₂ := he₁.buildKeywords chart₁ hmarked hproper keywords
  have he₃ := he₂.buildMatchers chart₂ hmarked hproper runs
  refine ⟨_, _, chart₅, point, ?_⟩
  have he₄ := (delimiters.forM_literals (fun d => Ended (fun _ => False) d ∧
      ∃ marked place, Charted lexicon matchers True marked (fun _ => False) d place) ?_
    ⟨he₃, _, _, chart₃⟩).1
  · refine (punctuation.forM_literals (fun d => Ended (fun _ => False) d ∧
      ∃ marked place, Charted lexicon matchers True marked (fun _ => False) d place) ?_
      ⟨he₄, _, _, chart₄⟩).1
    rintro definition literal d₁ d₂ hliteral ⟨he, marked, place, h⟩ hy
    obtain ⟨place', h'⟩ := h.buildMark hy
    exact ⟨he.buildMark h (hproper.punctuation hliteral) hy, _, place', h'⟩
  · rintro definition literal d₁ d₂ hliteral ⟨he, marked, place, h⟩ hy
    obtain ⟨place', h'⟩ := h.buildDelimiter hy
    exact ⟨he.buildDelimiter h (hproper.delimiter hliteral) hy, _, place', h'⟩

end Draft

/-! ### Automata -/

/-- Every end of input acts, and there is one wherever text may stand open: at the node of unknown
text, at nodes that tell what text goes on as, at nodes that others lead to, and in every run. -/
structure StateGraph.Ended (g : StateGraph) : Prop where
  acts {n m : NodeId} (h : g.trie.child? n .endOfInput = some m) : (g.behaviour m).action ≠ .none
  unknown : ∃ m, g.trie.child? .unknown .endOfInput = some m
  classify {n : NodeId} {test : CharTest} {hit miss : NodeId}
    (hn : (g.behaviour n).fallback = .classify test hit miss) :
    ∃ m, g.trie.child? n .endOfInput = some m
  target {n k : NodeId} (hk : (g.behaviour k).fallback = .reroute n) :
    ∃ m, g.trie.child? n .endOfInput = some m
  body {k : NodeId} {c : Close} (hk : (g.behaviour k).action = .close c) :
    ∃ m, g.trie.child? c.body .endOfInput = some m

/-- The automaton of a draft has the ways out of the draft. -/
theorem Draft.Finishes.ended {lexicon : Lexicon} {d : Draft} {place : NodeId → Locus}
    {a : Automaton} (hf : Draft.Finishes lexicon d place a) (he : Draft.Ended (fun _ => False) d) :
    a.toStateGraph.Ended := by
  have hchild (n : NodeId) : a.trie.child? n .endOfInput = d.trie.child? n .endOfInput := by
    rw [hf.child?, if_neg (by rintro ⟨-, -, ⟨⟩⟩)]
  have hends {n : NodeId} (h : d.IsOpen n) : ∃ m, a.trie.child? n .endOfInput = some m := by
    rw [hchild]
    exact he.ends h id
  have hfallback {n : NodeId} {f : Fallback} (hn : (a.behaviour n).fallback = f)
      (hroot : f ≠ .dispatch) : (d.site n).behaviour.fallback = f ∨ ∃ b,
        (∃ k, (d.site k).behaviour.fallback = .reroute b) ∧ f = .reroute b := by
    have hne : n ≠ .root := by
      rintro rfl
      exact hroot (hn.symm.trans hf.root)
    rcases hf.fallback hne with hsame | ⟨-, b, hk, -, hb⟩
    · exact .inl (hsame.symm.trans hn)
    · exact .inr ⟨b, hk, hn.symm.trans hb⟩
  refine ⟨fun hm => ?_, hends (.unknown rfl), fun hn => ?_, fun hk => ?_, fun hk => ?_⟩
  · rw [hf.action]
    exact he.acts (hchild _ ▸ hm)
  · rcases hfallback hn nofun with hn | ⟨b, -, ⟨⟩⟩
    exact hends (.classify hn)
  · rcases hfallback hk nofun with hk | ⟨b, ⟨k, hk⟩, ⟨⟩⟩ <;> exact hends (.target hk)
  · exact hends (.body ((hf.action _).symm.trans hk) rfl)

/-- The automaton of a grammar that compiles has a way out of every open node. -/
theorem Grammar.ended_compile {g : Grammar} {a : Automaton} (h : g.compile.result = .ok a) :
    a.toStateGraph.Ended := by
  obtain ⟨d', hstages, rfl⟩ := Lexicon.stages_assemble (assemble_of_compile h)
  obtain ⟨d, place, hchart, hpoint, hended⟩ := hstages.ended (proper_compile h)
  exact (hchart.finishes hpoint).ended hended

end TrieLexer
