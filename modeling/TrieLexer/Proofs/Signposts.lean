import TrieLexer.Proofs.Clearing
import TrieLexer.Proofs.Seals

/-!
# Where a walk through a plain grammar may stand

A node that does nothing stands at the root, in a run, where open-ended text stands, on the way to
the end of such text, or on the way to a literal that is no word. Where open-ended text stands, all
its ends act, and on the way to an end the walk has come from such a node. So it is known at every
node where symbols without a child lead.

## Main definitions

* `Fallback.Falls` — symbols without a child are sent elsewhere on the way to literals only.
* `Locus.Arises` — the places of nodes that do nothing.
* `StateGraph.Stops` — open-ended text ends at this node before every terminator.
* `Signposted` — what is known of the nodes of an automaton.

## Main results

* `Survey.Step.falls` — every step of building keeps the fallbacks of nodes fitting.
* `Grammar.signposted_compile` — the automaton of a plain grammar.
-/

namespace TrieLexer

/-! ### Fallbacks -/

/-- Symbols without a child are sent elsewhere where they pass through, and at the opener of a
run. -/
def Fallback.Falls (lexicon : Lexicon) (matchers : List (GreedyMatcher Compilation)) (p : Locus)
    (f : Fallback) : Prop :=
  ∀ b, f = .reroute b → p.Passes lexicon matchers ∨
    ∃ m ∈ matchers, m.terminator ≠ none ∧ p = ⟨.root, spelling m.startsWith.toList⟩

namespace Survey

variable {lexicon : Lexicon} {matchers : List (GreedyMatcher Compilation)} {s s' : Survey}

/-- The fallbacks of all nodes fit their places. -/
def Falls (lexicon : Lexicon) (matchers : List (GreedyMatcher Compilation)) (s : Survey) : Prop :=
  ∀ n, (s.draft.site n).behaviour.fallback.Falls lexicon matchers (s.place n)

/-- A node gets a behaviour whose fallback fits its place. -/
theorem Falls.behave (h : s.Falls lexicon matchers) {d : Draft} {n : NodeId} (hn : n < d.trie.size)
    (hb : ∀ k, (d.site k).behaviour = (s.draft.site k).behaviour) {f : Behaviour → Behaviour}
    (hf : (f (s.draft.site n).behaviour).fallback.Falls lexicon matchers (s.place n)) (k : NodeId) :
    ((d.modifyBehaviour n f).site k).behaviour.fallback.Falls lexicon matchers (s.place k) := by
  rw [Draft.behaviour_modifyBehaviour hn, hb]
  split
  · next hk => exact hk ▸ hf
  · exact h k

/-- Every step of building keeps the fallbacks of nodes fitting. -/
theorem Step.falls (h : Step lexicon matchers s s') (hs : s.Falls lexicon matchers) :
    s'.Falls lexicon matchers := by
  cases h with
  | grow hg hchild hsite =>
    intro k
    dsimp only
    rw [(hsite k).2.2]
    by_cases hk : k < s.draft.trie.size
    · rw [hg.place hk]
      exact hs k
    · rw [Draft.site_of_size_le (Nat.le_of_not_lt hk)]
      exact nofun
  | through hn hp => exact hs.behave hn (fun _ => rfl) fun _ _ => .inl hp
  | classify ho hn hf =>
    obtain ⟨test, hit, rfl⟩ := hf
    exact hs.behave hn (fun _ => rfl) nofun
  | take hn hrole =>
    refine hs.behave (by simpa using hn) (Draft.behaviour_recordClaim _) ?_
    cases hrole with
    | delimiter => exact hs _
    | _ => exact nofun
  | clear hn hP hrole =>
    refine hs.behave (by rw [hP.size]; simpa using hn)
      (fun k => by rw [hP.behaviour, Draft.behaviour_recordClaim]) ?_
    cases hrole with
    | opener hm ht hn => exact fun _ _ => .inr ⟨_, hm, ht, hn⟩
    | punctuation => exact nofun
  | decline => exact hs
  | waive => exact hs

theorem falls_of_builds (h : Builds lexicon matchers s s') (hs : s.Falls lexicon matchers) :
    s'.Falls lexicon matchers := by
  induction h with
  | refl => exact hs
  | tail _ hstep ih => exact hstep.falls ih

theorem falls_start (owing : NodeId → String → Prop) :
    Falls lexicon matchers ⟨.start, Draft.startPlace, owing⟩ := by
  intro k
  dsimp only
  rw [Draft.site_start]
  exact nofun

end Survey

/-! ### Places -/

/-- The places of nodes that do nothing. -/
inductive Locus.Arises (lexicon : Lexicon) (matchers : List (GreedyMatcher Compilation))
    (p : Locus) : Prop
  | root (hp : p = ⟨.root, []⟩)
  | body (hp : p.origin.IsBody)
  | home (hp : p.IsHome lexicon)
  | ending (hp : p.IsEnd lexicon)
  | sign {t : String} {text : List Char} (ht : lexicon.Signs matchers t)
      (hfront : text <+: t.toList) (hne : text ≠ []) (hp : p = ⟨.root, text.map .char⟩)

namespace Locus

variable {lexicon : Lexicon} {matchers : List (GreedyMatcher Compilation)} {p : Locus}

theorem Passes.arises (h : p.Passes lexicon matchers) (hp : lexicon.IsPlain matchers) :
    p.Arises lexicon matchers := by
  cases h with
  | @ends q label t path s hq ht hpath heq =>
    refine .ending ⟨q, t, path ++ [s], hq.isHome hp, ht, by simp, hpath, ?_⟩
    rw [heq, walk_append]
    rfl
  | @sign text _ hl hfront _ heq =>
    by_cases hne : text = []
    · subst hne
      exact .root heq
    · exact .sign hl hfront hne heq
  | run hbody => exact .body hbody

/-- The path from the origin leads to open-ended text. -/
theorem IsHome.walk_eq (h : p.IsHome lexicon) : walk ⟨p.origin, []⟩ p.path = p := by
  cases h with
  | category => rfl
  | word => exact walk_of_origin_ne (by simp) _

/-- A place at which a literal that is no word is complete. -/
theorem isMark_of_signs (hp : lexicon.IsPlain matchers) {t : String} (ht : lexicon.Signs matchers t)
    (heq : p = ⟨.root, spelling t.toList⟩) : p.IsMark lexicon :=
  ⟨t, hp.signs ht, heq⟩

end Locus

/-- Something happens at this node before every terminator. -/
def StateGraph.Stops (g : StateGraph) (lexicon : Lexicon) (j : NodeId) : Prop :=
  ∀ t ∈ lexicon.terminators, ∃ k, g.trie.follow? j (spelling t.toList) = some k ∧
    (g.behaviour k).action ≠ .none

/-- What is known of the nodes of an automaton. -/
structure Signposted (lexicon : Lexicon) (matchers : List (GreedyMatcher Compilation))
    (a : Automaton) (place : NodeId → Locus) : Prop where
  plain : lexicon.IsPlain matchers
  proper : lexicon.Proper matchers
  chart : Charted lexicon matchers a place
  titled : Titled lexicon matchers a.behaviour place
  resumes : a.Resumes place
  unnamed : a.unnamed = lexicon.unnamedLabel
  /-- Complete text leaves the end of a literal that is no word. -/
  leaves {t : String} {n : NodeId} (ht : lexicon.Signs matchers t)
    (hn : a.trie.follow? .root (spelling t.toList) = some n) : (a.behaviour n).Leaves
  arises {n : NodeId} (ha : (a.behaviour n).action = .none) : (place n).Arises lexicon matchers
  unknown : a.Stops lexicon .unknown
  /-- A symbol is only classified where open-ended text stands. -/
  classify {n : NodeId} {test : CharTest} {hit miss : NodeId} (hn : a.Clear place n)
    (hf : (a.behaviour n).fallback = .classify test hit miss) : a.Stops lexicon n
  /-- The walk to a node below open-ended text has come past a node at which such text stands. -/
  hangs {n : NodeId} {q : Locus} {path : List Symbol} (hn : a.Clear place n)
    (hq : q.IsHome lexicon) (hplace : place n = ⟨q.origin, q.path ++ path⟩) (hpath : path ≠ []) :
    ∃ j, a.Stops lexicon j ∧ a.trie.follow? j path = some n

/-! ### The finished automaton -/

namespace Draft

variable {lexicon : Lexicon} {matchers : List (GreedyMatcher Compilation)} {pointed : Prop}
  {marked : String → Prop} {d : Draft} {place : NodeId → Locus} {owing : NodeId → String → Prop}
  {a : Automaton} {n : NodeId}

/-- A node that goes on as what it is and does nothing stands at rest. -/
theorem Charted.isRest_of_stay
    (h : Charted lexicon matchers pointed marked (fun _ => False) d place) (hn : n ≠ .root)
    (hf : (d.site n).behaviour.fallback = .stay)
    (ha : (d.site n).behaviour.action = .none) : (place n).IsRest := by
  cases hc : d.claim? n with
  | none => exact h.settled id hn hc hf ha
  | some role => exact absurd ha ((h.claimed hc).busy hf)

/-- The place of a node that does nothing. -/
theorem Charted.arises (h : Charted lexicon matchers pointed marked (fun _ => False) d place)
    (hs : Survey.Filled lexicon ⟨d, place, owing⟩)
    (ht : Survey.Titled lexicon matchers ⟨d, place, owing⟩)
    (hfalls : Survey.Falls lexicon matchers ⟨d, place, owing⟩) (hp : lexicon.IsPlain matchers)
    (hproper : lexicon.Proper matchers) (ha : (d.site n).behaviour.action = .none) :
    (place n).Arises lexicon matchers := by
  have hcomplete {t : String} (hsign : lexicon.Signs matchers t) (hne : t ≠ "")
      (hplace : place n = ⟨.root, spelling t.toList⟩) : (place n).Arises lexicon matchers := by
    have hne' : t.toList ≠ [] := fun hnil => hne (String.toList_eq_nil_iff.1 hnil)
    exact .sign hsign List.prefix_rfl hne' (by rw [hplace, spelling_of_ne_nil hne'])
  have hreroute {b : NodeId} (hf : (d.site n).behaviour.fallback = .reroute b) :
      (place n).Arises lexicon matchers := by
    rcases hfalls n b hf with hpasses | ⟨m, hm, hterminated, hplace⟩
    · exact hpasses.arises hp
    · exact hcomplete (.opener hm hterminated) (hproper.opener hm) hplace
  have hfit := h.fallback n
  generalize hf : (d.site n).behaviour.fallback = f at hfit
  cases hfit with
  | stay =>
    by_cases hroot : n = .root
    · exact .root (hroot ▸ h.place_root)
    · obtain ⟨hpath, ho | ho⟩ := h.isRest_of_stay hroot hf ha
      · refine .home ?_
        rw [show place n = ⟨.unknown, []⟩ from Locus.ext ho hpath]
        exact .category (.inl rfl)
      · exact .body ho
  | unknown | enter | back => exact hreroute hf
  | identifier => exact .home (hs.home (.inr (.inr (.inr (.inr hf)))))
  | digit hplace => exact .home (hplace ▸ .category (by simp))
  | decimal hplace => exact .home (hplace ▸ .category (by simp))
  | release _ _ label =>
    obtain ⟨t, hmark, hplace⟩ := ht.fallback n label hf
    exact hcomplete (.punctuation hmark) (hproper.punctuation hmark.mem_literalsOf) hplace
  | dispatch hplace => exact .root hplace

/-- Open-ended text stands at a node that is linked to such a place and does nothing. -/
theorem Charted.isOpenEnded (h : Charted lexicon matchers pointed marked (fun _ => False) d place)
    (ht : Survey.Titled lexicon matchers ⟨d, place, owing⟩)
    (hfalls : Survey.Falls lexicon matchers ⟨d, place, owing⟩) (hp : lexicon.IsPlain matchers)
    {q : Locus} (hq : q.IsHome lexicon) (hplace : place n = q)
    (hn : d.trie.follow? q.origin.node q.path = some n)
    (ha : (d.site n).behaviour.action = .none) : d.IsOpenEnded n := by
  have hhome : (place n).IsHome lexicon := hplace ▸ hq
  have hwordly := hhome.isWordly
  cases hq with
  | category ho =>
    obtain rfl := (Option.some.inj hn)
    rcases ho with rfl | rfl | rfl | rfl
    · exact .inl rfl
    · exact .inr (.inl rfl)
    · exact .inr (.inr (.inl rfl))
    · exact .inr (.inr (.inr (.inl rfl)))
  | @word text hshape =>
    have hreroute {b : NodeId} (hf : (d.site n).behaviour.fallback = .reroute b) :
        d.IsOpenEnded n := by
      rcases hfalls n b hf with hpasses | ⟨m, hm, hterminated, hopener⟩
      · exact absurd hhome (hpasses.not_isHome hp)
      · exact absurd (Locus.isMark_of_signs hp (.opener hm hterminated) hopener) hwordly.not_isMark
    have hne : text.map Symbol.char ≠ [] := by
      rintro hnil
      rw [List.map_eq_nil_iff.1 hnil] at hshape
      cases hshape
    have hroot : n ≠ .root := by
      rintro rfl
      exact hne (congrArg Locus.path (hplace.symm.trans h.place_root))
    have hfit := h.fallback n
    generalize hf : (d.site n).behaviour.fallback = f at hfit
    cases hfit with
    | stay =>
      obtain ⟨hpath, -⟩ := h.isRest_of_stay hroot hf ha
      exact absurd ((congrArg Locus.path hplace).symm.trans hpath) hne
    | unknown | enter | back => exact hreroute hf
    | identifier => exact .inr (.inr (.inr (.inr hf)))
    | digit hnumber => cases hplace.symm.trans hnumber
    | decimal hfloat => cases hplace.symm.trans hfloat
    | release _ _ label =>
      obtain ⟨t, hmark, hmarked⟩ := ht.fallback n label hf
      exact absurd (Locus.isMark_of_signs hp (.punctuation hmark) hmarked) hwordly.not_isMark
    | dispatch hdispatch => exact absurd (congrArg Locus.path (hplace.symm.trans hdispatch)) hne

/-- All ends act where open-ended text stands. -/
theorem Finishes.stops (hf : Finishes lexicon d place a)
    (hs : Survey.Filled lexicon ⟨d, place, fun _ _ => False⟩) (hn : d.IsOpenEnded n) :
    a.Stops lexicon n := by
  intro t ht
  obtain ⟨k, hk, ha⟩ := (hs.filled hn ht).resolve_left id
  have hroot : place n ≠ ⟨.root, []⟩ := fun hroot => by
    obtain ⟨c, path, hpath, -⟩ := (hs.home hn).isWordly (congrArg Locus.origin hroot)
    exact List.cons_ne_nil _ _ (hpath.symm.trans (congrArg Locus.path hroot))
  exact ⟨k, (hf.follow?_eq hs hroot _).trans hk, by rw [hf.action]; exact ha⟩

/-- A symbol is only classified where open-ended text stands. -/
theorem Finishes.isOpenEnded_of_classify (hf : Finishes lexicon d place a)
    (h : Charted lexicon matchers pointed marked (fun _ => False) d place) (hn : a.Clear place n)
    {test : CharTest} {hit miss : NodeId}
    (hclassify : (a.behaviour n).fallback = .classify test hit miss) : d.IsOpenEnded n := by
  have hroot : n ≠ .root := by
    rintro rfl
    cases hf.root.symm.trans hclassify
  have hnode {o : Origin} (ho : place n = ⟨o, []⟩) : n = o.node := by
    have hlink := hn.path
    rw [ho] at hlink
    exact (Option.some.inj hlink).symm
  rcases hf.fallback hroot with hsame | ⟨-, b, -, -, hb⟩
  · rw [hsame] at hclassify
    have hfit := h.fallback n
    rw [hclassify] at hfit
    cases hfit with
    | identifier => exact .inr (.inr (.inr (.inr hclassify)))
    | digit hnumber => exact .inr (.inr (.inl (hnode hnumber)))
    | decimal hfloat => exact .inr (.inr (.inr (.inl (hnode hfloat))))
  · cases hb.symm.trans hclassify

/-- The walk to a node below open-ended text has come past a node at which such text stands. -/
theorem Finishes.hangs (hf : Finishes lexicon d place a)
    (h : Charted lexicon matchers pointed marked (fun _ => False) d place)
    (hchart : TrieLexer.Charted lexicon matchers a place)
    (hs : Survey.Filled lexicon ⟨d, place, fun _ _ => False⟩)
    (ht : Survey.Titled lexicon matchers ⟨d, place, fun _ _ => False⟩)
    (hfalls : Survey.Falls lexicon matchers ⟨d, place, fun _ _ => False⟩)
    (hp : lexicon.IsPlain matchers) {q : Locus} {path : List Symbol} (hn : a.Clear place n)
    (hq : q.IsHome lexicon) (hplace : place n = ⟨q.origin, q.path ++ path⟩) (hpath : path ≠ []) :
    ∃ j, a.Stops lexicon j ∧ a.trie.follow? j path = some n := by
  have hlink := hn.path
  rw [hplace] at hlink
  obtain ⟨j, hj, hjn⟩ := Option.bind_eq_some_iff.1 ((Trie.follow?_append ..).symm.trans hlink)
  have hj' : d.trie.follow? q.origin.node q.path = some j :=
    (hf.follow?_place hs hq.not_isBody hplace hlink).symm.trans hj
  have hplacej : place j = q := by
    have hwalk : place j = (place q.origin.node).walk q.path := hs.place_follow? hj'
    rw [hwalk, show place q.origin.node = ⟨q.origin, []⟩ from hs.origin hq.not_isBody]
    exact hq.walk_eq
  have hquiet : (a.behaviour j).action = .none := by
    by_cases hnil : q.path = []
    · by_cases hfloat : q = ⟨.float, []⟩
      · exact hchart.float (hplacej.trans hfloat)
      · refine hchart.action_eq_none (by rw [hplacej, hnil]) fun ho => hfloat ?_
        exact Locus.ext (hplacej ▸ ho) hnil
    · exact hn.quiet (congrArg Locus.path hplace) hnil hpath (by rw [hplace]; exact hj)
  rw [hf.action] at hquiet
  exact ⟨j, hf.stops hs (h.isOpenEnded ht hfalls hp hq hplacej hj' hquiet), hjn⟩

end Draft

/-- The automaton of a plain grammar. -/
theorem Grammar.signposted_compile {g : Grammar} {a : Automaton} (h : g.compile.result = .ok a)
    (hp : g.toLexicon.IsPlain g.greedyMatchers) : ∃ place,
      Signposted g.toLexicon (compileMatchers g.greedyMatchers) a place := by
  have hp' := hp.compileMatchers
  have hproper := proper_compile h
  obtain ⟨d', hstages, rfl⟩ := Lexicon.stages_assemble (assemble_of_compile h)
  obtain ⟨d, place, hchart, hpoint, hbuilds⟩ := hstages.builds
  have hfinishes := hchart.finishes hpoint
  have hfilled := Survey.filled_of_builds hbuilds hp' (Survey.filled_start _)
  have htitles := Survey.titled_of_builds hbuilds (Survey.titled_start _)
  have hfalls := Survey.falls_of_builds hbuilds (Survey.falls_start _)
  have hcharted := hfinishes.charted hchart
  have htitled := hfinishes.titled htitles
  refine ⟨place, hp', hproper, hcharted, htitled,
    hfinishes.resumes hfilled hcharted htitled hp' fun _ => hchart.float, rfl,
    fun ht hn => hstages.leaves hp' hproper ht hn, fun ha => ?_,
    hfinishes.stops hfilled (.inl rfl),
    fun hn hf => hfinishes.stops hfilled (hfinishes.isOpenEnded_of_classify hchart hn hf),
    hfinishes.hangs hchart hcharted hfilled htitles hfalls hp'⟩
  rw [hfinishes.action] at ha
  exact hchart.arises hfilled htitles hfalls hp' hproper ha

end TrieLexer
