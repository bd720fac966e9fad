import TrieLexer.Proofs.Naming
import TrieLexer.Proofs.Plain

/-!
# Ways on which nothing happens

A scan comes to a node along the path from the origin of its place, and rests at every node on the
way. So nothing happens at these nodes. In a plain grammar the end of an open-ended token is only
reached if no shorter terminator could have ended the token before. Therefore nothing happens either
when the terminator is read alone, until it is complete.

## Main definitions

* `StateGraph.Clear` — nothing happens on the way to a node.
* `StateGraph.Lands` — how a symbol leads to a node.
* `StateGraph.Resumes` — a terminator that ends a token is read again without anything happening.

## Main results

* `Charted.clear_resolve` — a scan only comes to nodes on whose way nothing happens.
* `Grammar.resumes_compile` — the automaton of a plain grammar resumes.
-/

namespace TrieLexer

open Text (byteLength)

/-- Nothing happens on the way to a node. -/
structure StateGraph.Clear (g : StateGraph) (place : NodeId → Locus) (n : NodeId) : Prop where
  path : g.trie.follow? (place n).origin.node (place n).path = some n
  quiet {front back : List Symbol} {k : NodeId} (hpath : (place n).path = front ++ back)
    (hfront : front ≠ []) (hback : back ≠ [])
    (hk : g.trie.follow? (place n).origin.node front = some k) : (g.behaviour k).action = .none

/-- How a symbol leads from one node to another: along an edge, nowhere, to an origin, or from an
origin along an edge. -/
inductive StateGraph.Lands (g : StateGraph) (place : NodeId → Locus) (n : NodeId) (s : Symbol) :
    NodeId → Prop
  | child {m : NodeId} (h : g.trie.child? n s = some m) : Lands g place n s m
  | stay : Lands g place n s n
  | origin {o : Origin} (ho : place o.node = ⟨o, []⟩) : Lands g place n s o.node
  | below {o : Origin} {m : NodeId} (ho : place o.node = ⟨o, []⟩) (hroot : o ≠ .root)
      (hnumber : o ≠ .number) (h : g.trie.child? o.node s = some m) : Lands g place n s m

namespace Charted

variable {lexicon : Lexicon} {matchers : List (GreedyMatcher Compilation)} {a : Automaton}
  {place : NodeId → Locus} {n m k : NodeId} {s : Symbol} {o : Origin}

/-- Unknown text and runs lead to a child or go on as what they are. -/
theorem resolveWithin_rest (h : Charted lexicon matchers a place) (hn : (place n).IsRest)
    (hops : Nat) (s : Symbol) :
    a.resolveWithin hops n s = .node ((a.trie.child? n s).getD n) := by
  rw [StateGraph.resolveWithin]
  cases a.trie.child? n s with
  | some m => rfl
  | none => rw [(h.fallback n).eq_stay hn]; rfl

theorem lands_rest (h : Charted lexicon matchers a place) (ho : place o.node = ⟨o, []⟩)
    (hrest : Locus.IsRest ⟨o, []⟩) {hops : Nat}
    (hr : a.resolveWithin hops o.node s = .node m) : a.Lands place n s m := by
  rw [h.resolveWithin_rest (ho ▸ hrest)] at hr
  cases hr
  obtain ⟨hroot, hnumber, -⟩ := hrest.origin_ne
  cases hc : a.trie.child? o.node s with
  | some k => exact .below ho hroot hnumber hc
  | none => exact .origin ho

theorem place_category (h : Charted lexicon matchers a place) {o : Origin}
    (ho : o = .root ∨ o = .unknown ∨ o = .identifier ∨ o = .number ∨ o = .float) :
    place o.node = ⟨o, []⟩ :=
  h.origin (Origin.not_isBody_of_mem ho)

theorem lands_dispatch (h : Charted lexicon matchers a place) (s : Symbol) :
    a.Lands place n s (a.dispatch s) := by
  cases s with
  | endOfInput => exact .origin (o := .unknown) (h.place_category (by simp))
  | char c =>
    rw [StateGraph.dispatch]
    split
    · exact .origin (o := .identifier) (h.place_category (by simp))
    · split
      · exact .origin (o := .number) (h.place_category (by simp))
      · exact .origin (o := .unknown) (h.place_category (by simp))

/-- How the walk goes on. -/
theorem lands (h : Charted lexicon matchers a place) (hr : a.resolve n s = .node m) :
    a.Lands place n s m := by
  have hunknown : place .unknown = ⟨.unknown, []⟩ := h.place_category (o := .unknown) (by simp)
  obtain ⟨hops, hsize⟩ := Nat.exists_eq_succ_of_ne_zero (Nat.ne_of_gt h.size_pos)
  rw [StateGraph.resolve, StateGraph.resolveWithin] at hr
  cases hc : a.trie.child? n s with
  | some child =>
    rw [hc] at hr
    cases hr
    exact .child hc
  | none =>
    rw [hc] at hr
    have hfit := h.fallback n
    generalize (a.behaviour n).fallback = f at hr hfit
    have hclassify (hit : Origin) (hhit : place hit.node = ⟨hit, []⟩) {test : CharTest}
        (hr : Step.node (if a.passes test s then hit.node else .unknown) = .node m) :
        a.Lands place n s m := by
      cases hr
      split
      · exact .origin hhit
      · exact .origin (o := .unknown) hunknown
    cases hfit with
    | stay =>
      cases hr
      exact .stay
    | unknown hp =>
      rw [hsize] at hr
      exact h.lands_rest (o := .unknown) hunknown Locus.isRest_unknown hr
    | identifier hp => exact hclassify .identifier (h.place_category (by simp)) hr
    | digit hp => exact hclassify .number (h.place_category (by simp)) hr
    | decimal hp => exact hclassify .float (h.place_category (by simp)) hr
    | @enter b m' nested path hb hp =>
      rw [hsize] at hr
      exact h.lands_rest (o := .body b m' nested) hb (Locus.isRest_body ..) hr
    | @back b m' nested path hb hp hpath =>
      rw [hsize] at hr
      exact h.lands_rest (o := .body b m' nested) hb (Locus.isRest_body ..) hr
    | release hp hpath label => cases hr
    | dispatch hp =>
      cases hr
      exact h.lands_dispatch s

end Charted

namespace StateGraph

variable {g : StateGraph} {place : NodeId → Locus} {n m k : NodeId} {s : Symbol} {o : Origin}
  {front back : List Symbol}

/-- There is no way to an origin. -/
theorem clear_origin (ho : place o.node = ⟨o, []⟩) : g.Clear place o.node := by
  refine ⟨by rw [ho]; rfl, fun hpath hfront => ?_⟩
  rw [ho] at hpath
  exact absurd (List.append_eq_nil_iff.1 hpath.symm).1 hfront

/-- The way goes on. -/
theorem Clear.down (h : g.Clear place n) (ha : (g.behaviour n).action = .none)
    (hc : g.trie.child? n s = some m)
    (hm : place m = ⟨(place n).origin, (place n).path ++ [s]⟩) : g.Clear place m := by
  refine ⟨?_, fun {front back k} hpath hfront hback hk => ?_⟩
  · rw [hm, Trie.follow?_append, h.path]
    exact (Trie.follow?_cons ..).trans (by rw [hc]; rfl)
  · rw [hm] at hpath hk
    obtain ⟨back', u, rfl⟩ := (List.eq_nil_or_concat back).resolve_left hback
    rw [List.concat_eq_append, ← List.append_assoc] at hpath
    have hfront' := (List.append_inj' hpath rfl).1
    by_cases hback' : back' = []
    · rw [hback', List.append_nil] at hfront'
      rw [← hfront', h.path] at hk
      cases hk
      exact ha
    · exact h.quiet hfront' hfront hback' hk

end StateGraph

/-- A scan only comes to nodes on whose way nothing happens. -/
theorem Charted.clear_resolve {lexicon : Lexicon} {matchers : List (GreedyMatcher Compilation)}
    {a : Automaton} {place : NodeId → Locus} {n m : NodeId} {s : Symbol}
    (h : Charted lexicon matchers a place) (hfloat : ∀ k, place k = ⟨.float, []⟩ → k = .float)
    (hn : a.Clear place n) (ha : (a.behaviour n).action = .none) (hr : a.resolve n s = .node m) :
    a.Clear place m := by
  have hpoint (hm : place m = ⟨.float, []⟩) : a.Clear place m :=
    hfloat m hm ▸ StateGraph.clear_origin (o := .float) (h.place_category (by simp))
  cases h.lands hr with
  | child hc =>
    rcases h.child hc with hd | ⟨-, -, hd⟩
    · obtain hdown | ⟨-, -, hdown⟩ := (place n).down_eq_or s
      · exact hn.down ha hc (hd.trans hdown)
      · exact hpoint (hd.trans hdown)
    · exact hpoint hd
  | stay => exact hn
  | origin ho => exact StateGraph.clear_origin ho
  | @below o m ho hroot hnumber hc =>
    have hd : place m = ⟨(place o.node).origin, (place o.node).path ++ [s]⟩ := by
      rcases h.child hc with hd | ⟨hplace, -, -⟩
      · rw [hd, Locus.down_of_origin_ne (by rw [ho]; exact hnumber)]
      · rw [ho] at hplace
        exact absurd (congrArg Locus.origin hplace) hroot
    refine (StateGraph.clear_origin ho).down ?_ hc hd
    by_cases hf : o = .float
    · subst hf
      exact h.float ho
    · exact h.action_eq_none (by rw [ho]) (by rw [ho]; exact hf)

/-! ### Terminators -/

theorem Locus.walk_ne_root (p : Locus) {path : List Symbol} (h : path ≠ []) :
    p.walk path ≠ ⟨.root, []⟩ := by
  obtain ⟨front, s, rfl⟩ := (List.eq_nil_or_concat path).resolve_left h
  rw [List.concat_eq_append, walk_append]
  exact down_ne_root _ s

namespace Draft

variable {lexicon : Lexicon} {matchers : List (GreedyMatcher Compilation)} {d : Draft}
  {place : NodeId → Locus} {owing : NodeId → String → Prop} {a : Automaton} {n : NodeId}
  {o : Origin} {path front back : List Symbol}

/-- Paths that do not begin at the root are the same in the draft. -/
theorem Finishes.follow?_eq (hf : Finishes lexicon d place a)
    (hs : Survey.Filled lexicon ⟨d, place, owing⟩) (hn : place n ≠ ⟨.root, []⟩)
    (path : List Symbol) : a.trie.follow? n path = d.trie.follow? n path := by
  refine Trie.follow?_of_child? fun front s back k _ hk => ?_
  rw [hf.child?, if_neg]
  rintro ⟨-, rfl, -⟩
  have hplace := (hs.origin (o := .root) (Origin.not_isBody_of_mem (by simp))).symm.trans
    (hs.place_follow? hk)
  by_cases hfront : front = []
  · rw [hfront] at hplace
    exact hn hplace.symm
  · exact (place n).walk_ne_root hfront hplace.symm

/-- So are paths from the root to their places. The decimal point leads to a place of its own. -/
theorem Finishes.follow?_place (hf : Finishes lexicon d place a)
    (hs : Survey.Filled lexicon ⟨d, place, owing⟩) (ho : ¬o.IsBody)
    (hplace : place n = ⟨o, front ++ back⟩) (hn : a.trie.follow? o.node (front ++ back) = some n) :
    a.trie.follow? o.node front = d.trie.follow? o.node front := by
  have horigin := hs.origin ho
  by_cases hroot : place o.node = ⟨.root, []⟩
  case neg => exact hf.follow?_eq hs hroot front
  obtain rfl : o = .root := congrArg Locus.origin (horigin.symm.trans hroot)
  cases front with
  | nil => rfl
  | cons s front =>
    have hchild : a.trie.child? .root s = d.trie.child? .root s := by
      rw [hf.child?, if_neg]
      rintro ⟨hleading, -, rfl⟩
      have hfloat := hs.origin (o := .float) (Origin.not_isBody_of_mem (by simp))
      rw [List.cons_append, Trie.follow?_cons, Origin.node, hf.child?, if_pos ⟨hleading, rfl, rfl⟩]
        at hn
      change a.trie.follow? .float (front ++ back) = some n at hn
      rw [hf.follow?_eq hs (by rw [show place .float = _ from hfloat]; simp)] at hn
      have hwalk : place n = (place .float).walk (front ++ back) := hs.place_follow? hn
      rw [show place .float = _ from hfloat, Locus.walk_of_origin_ne (by simp)] at hwalk
      cases hplace.symm.trans hwalk
    rw [Trie.follow?_cons, Trie.follow?_cons, Origin.node, hchild]
    cases hc : d.trie.child? .root s with
    | none => rfl
    | some m =>
      have hdown : place m = (place .root).down s := hs.child hc
      exact hf.follow?_eq hs (hdown ▸ Locus.down_ne_root _ s) front

/-- No shorter terminator ends a token before its end. -/
theorem Finishes.eq_of_prefix (hf : Finishes lexicon d place a)
    (hs : Survey.Filled lexicon ⟨d, place, fun _ _ => False⟩) (hp : lexicon.IsPlain matchers)
    (hn : a.Clear place n) {label : Label} {length : Nat}
    (ha : (a.behaviour n).action = .boundary label length) : ∃ t ∈ lexicon.terminators,
      byteLength t.toList = length ∧ (∃ front, (place n).path = front ++ spelling t.toList) ∧
      ∀ u ∈ lexicon.terminators, u ≠ "" → u.toList <+: t.toList → u = t := by
  obtain ⟨j, t, hj, ht, hlength, hfollow⟩ := hs.ends ((hf.action n).symm.trans ha)
  have hhome := hs.home hj
  have hplace : place n = ⟨(place j).origin, (place j).path ++ spelling t.toList⟩ :=
    (hs.place_follow? hfollow).trans ((place j).walk_end hp ht List.prefix_rfl)
  have hbody : ¬(place j).origin.IsBody := hhome.not_isBody
  refine ⟨t, ht, hlength.symm, ⟨_, congrArg Locus.path hplace⟩, fun u hu hne hprefix => ?_⟩
  refine Classical.byContradiction fun hut => ?_
  obtain ⟨rest, hrest⟩ := hprefix
  have hu' : u.toList ≠ [] := fun h => hne (String.toList_eq_nil_iff.1 h)
  have hrest' : rest ≠ [] := by
    rintro rfl
    rw [List.append_nil] at hrest
    exact hut (String.toList_inj.1 hrest)
  have hspell : spelling t.toList = spelling u.toList ++ rest.map .char := by
    rw [← hrest, spelling, spelling, if_neg (by simp [hu']), if_neg (by simp [hu']),
      List.map_append]
  rw [hspell, ← List.append_assoc] at hplace
  have hpath := hn.path
  rw [hplace] at hpath
  obtain ⟨k, hk, hacts⟩ := (hs.filled hj hu).resolve_left id
  have hlinked := hs.linked hj
  refine hacts ?_
  dsimp only
  rw [← hf.action]
  refine hn.quiet (congrArg Locus.path hplace) (by simp [spelling_ne_nil])
    (by simpa using hrest') ?_
  rw [hplace, hf.follow?_place hs hbody hplace hpath, Trie.follow?_append, hlinked]
  exact hk

end Draft

namespace Charted

variable {lexicon : Lexicon} {matchers : List (GreedyMatcher Compilation)} {a : Automaton}
  {place : NodeId → Locus} {n k : NodeId} {path : List Symbol}

/-- Paths that do not begin at the root lead down. -/
theorem place_follow? (h : Charted lexicon matchers a place) (hn : place n ≠ ⟨.root, []⟩)
    (hp : a.trie.follow? n path = some k) : place k = (place n).walk path := by
  induction path generalizing n with
  | nil =>
    cases hp
    rfl
  | cons s path ih =>
    rw [Trie.follow?_cons] at hp
    obtain ⟨m, hm, hp⟩ := Option.bind_eq_some_iff.1 hp
    have hd : place m = (place n).down s := (h.child hm).resolve_right fun hroot => hn hroot.1
    rw [ih (hd ▸ Locus.down_ne_root _ s) hp, hd]
    rfl

/-- So do paths from the root that do not begin with a point. -/
theorem place_of_root (h : Charted lexicon matchers a place)
    (hpoint : path.head? ≠ some (.char '.'))
    (hp : a.trie.follow? .root path = some k) : place k = ⟨.root, path⟩ := by
  cases path with
  | nil =>
    cases hp
    exact h.place_root
  | cons s path =>
    rw [Trie.follow?_cons] at hp
    obtain ⟨m, hm, hp⟩ := Option.bind_eq_some_iff.1 hp
    have hd : place m = ⟨.root, [s]⟩ := by
      rcases h.child hm with hd | ⟨-, hs, -⟩
      · rw [hd, h.place_root]
        rfl
      · exact absurd (congrArg some hs) hpoint
    rw [h.place_follow? (by rw [hd]; simp) hp, hd, Locus.walk_of_origin_ne (by simp)]
    rfl

/-- Nothing happens on the way to a mark that no shorter delimiter begins. -/
theorem clear_mark (h : Charted lexicon matchers a place)
    (ht : Titled lexicon matchers a.behaviour place) (hp : lexicon.IsPlain matchers) {t : String}
    (hmem : t ∈ lexicon.terminators)
    (hfirst : ∀ u ∈ lexicon.terminators, u ≠ "" → u.toList <+: t.toList → u = t) :
    ∃ m, a.trie.follow? .root (t.toList.map .char) = some m ∧ (a.behaviour m).action.EndsMark ∧
      a.Clear place m ∧ place m = ⟨.root, t.toList.map .char⟩ := by
  by_cases hne : t = ""
  · subst hne
    exact ⟨.root, rfl, .inl h.action_root, StateGraph.clear_origin (o := .root) h.place_root,
      h.place_root⟩
  obtain ⟨m, hm, hends⟩ := h.mark hmem hne (hp.lonePoint t hmem)
  have hoff := hp.terminators hmem
  have hpoint {front back : List Symbol} (hpath : t.toList.map .char = front ++ back) :
      front.head? ≠ some (.char '.') := by
    intro hhead
    obtain ⟨c, cs, hlist⟩ := List.exists_cons_of_ne_nil fun hnil =>
      hne (String.toList_eq_nil_iff.1 hnil)
    cases front with
    | nil => cases hhead
    | cons s front =>
      rw [hlist, List.map_cons, List.cons_append, List.cons_eq_cons] at hpath
      rw [List.head?_cons, ← hpath.1] at hhead
      cases hhead
      exact (hoff '.' (by rw [hlist]; rfl)).1 rfl
  have hplace := h.place_of_root (hpoint (List.append_nil _).symm) hm
  refine ⟨m, hm, hends, ⟨by rw [hplace]; exact hm, fun {front back k} hpath hfront hback hk => ?_⟩,
    hplace⟩
  rw [hplace] at hpath hk
  have hplace' := h.place_of_root (hpoint hpath) hk
  obtain ⟨v, rest, hv, hvfront, hrest⟩ := List.map_eq_append_iff.1 hpath
  have hvne : v ≠ [] := by
    rintro rfl
    exact hfront hvfront.symm
  generalize hact : (a.behaviour k).action = action
  have htitle := ht.action k
  rw [hact] at htitle
  cases htitle with
  | none => rfl
  | @literal label u hdelimits hu =>
    have hspell : spelling u.toList = front := congrArg Locus.path (hu.symm.trans hplace')
    have huv : u.toList = v := by
      rw [← pathText_spelling u.toList, hspell, ← hvfront, pathText_map_char]
    have huterminator : u ∈ lexicon.terminators :=
      Lexicon.mem_terminators.2 (.inr (List.mem_append_left _ hdelimits.mem_literalsOf))
    obtain rfl := hfirst u huterminator (fun hnil => hvne (by rw [← huv, hnil]; rfl))
      ⟨rest, by rw [hv, huv]⟩
    rw [hv] at huv
    have hnil := List.append_right_eq_self.1 huv
    rw [hnil] at hrest
    exact absurd hrest.symm hback
  | @boundary q label u hq hu =>
    have hwordly := (hq.isHome hp).isWordly.walk (spelling u.toList)
    rw [← hu, hplace'] at hwordly
    obtain ⟨c, path, hfirst, hc⟩ := hwordly rfl
    rw [show front = _ from hfirst] at hvfront
    obtain ⟨c', cs, rfl, hcc, -⟩ := List.map_eq_cons_iff.1 hvfront
    obtain rfl := Symbol.char.inj hcc
    rw [(hoff _ (by rw [hv]; rfl)).2.1] at hc
    cases hc
  | close hterminated hbody => cases hplace'.symm.trans hbody

end Charted

/-- A terminator that ends a token is read again from the root without anything happening. -/
structure StateGraph.Resumes (g : StateGraph) (place : NodeId → Locus) : Prop where
  float {n : NodeId} (h : place n = ⟨.float, []⟩) : n = .float
  again {n : NodeId} {label : Label} {length : Nat} (hn : g.Clear place n)
    (ha : (g.behaviour n).action = .boundary label length) : ∃ (t : String) (m : NodeId),
      byteLength t.toList = length ∧ (∃ front, (place n).path = front ++ spelling t.toList) ∧
      g.trie.follow? .root (t.toList.map .char) = some m ∧ (g.behaviour m).action.EndsMark ∧
      g.Clear place m ∧ place m = ⟨.root, t.toList.map .char⟩

/-- The words and openers of a grammar stay the same when its interiors are compiled. -/
theorem Lexicon.IsPlain.compileMatchers {lexicon : Lexicon} {ms : List (GreedyMatcher Grammar)}
    (h : lexicon.IsPlain ms) : lexicon.IsPlain (TrieLexer.compileMatchers ms) where
  words hw := h.words hw.of_compileMatchers
  marks := h.marks
  openers m hm ht := by
    obtain ⟨x, hx, -, hopener, hterminator, -⟩ := exists_of_mem_compileMatchers hm
    rw [hopener]
    exact h.openers x hx (hterminator ▸ ht)

/-- The automaton of a draft in which the ends of open-ended tokens act resumes. -/
theorem Draft.Finishes.resumes {lexicon : Lexicon} {matchers : List (GreedyMatcher Compilation)}
    {d : Draft} {place : NodeId → Locus} {a : Automaton} (hf : Finishes lexicon d place a)
    (hs : Survey.Filled lexicon ⟨d, place, fun _ _ => False⟩)
    (h : TrieLexer.Charted lexicon matchers a place)
    (ht : Titled lexicon matchers a.behaviour place) (hp : lexicon.IsPlain matchers)
    (hfloat : ∀ n, place n = ⟨.float, []⟩ → n = .float) : a.Resumes place := by
  refine ⟨fun hn => hfloat _ hn, fun hn ha => ?_⟩
  obtain ⟨t, hmem, hlength, hpath, hfirst⟩ := hf.eq_of_prefix hs hp hn ha
  obtain ⟨m, hm⟩ := h.clear_mark ht hp hmem hfirst
  exact ⟨t, m, hlength, hpath, hm⟩

/-- The automaton of a plain grammar resumes. -/
theorem Grammar.resumes_compile {g : Grammar} {a : Automaton} (h : g.compile.result = .ok a)
    (hp : g.toLexicon.IsPlain g.greedyMatchers) : ∃ place,
      Charted g.toLexicon (compileMatchers g.greedyMatchers) a place ∧ a.Resumes place := by
  have hp' := hp.compileMatchers
  obtain ⟨-, d, place, hchart, hfinishes, hbuilds⟩ := exists_builds h
  have hfilled := Survey.filled_of_builds hbuilds hp' (Survey.filled_start _)
  have htitled := hfinishes.titled (Survey.titled_of_builds hbuilds (Survey.titled_start _))
  have hcharted := hfinishes.charted hchart
  exact ⟨place, hcharted, hfinishes.resumes hfilled hcharted htitled hp' fun _ => hchart.float⟩

end TrieLexer
