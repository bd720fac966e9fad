import TrieLexer.Proofs.Claims
import TrieLexer.Proofs.Endings

/-!
# Well-formed automata

Nothing in an automaton bounds the walk by itself: a fallback may reroute to a node that reroutes
again, a release takes the symbol again from the root, and the end of an open-ended token takes its
terminator again. What bounds them is the shape of the automaton. Only unknown text and the bodies
of runs are rerouted to, and those stay what they are; only the root dispatches, and so it neither
reroutes nor releases.

The relations of this module follow the walk for as long as it goes on and count its turns, without
a bound on them.

## Main definitions

* `StateGraph.IsRunBody` — the body of a run.
* `Automaton.WellFormed` — the shape of an automaton.
* `StateGraph.Resolves`, `Automaton.Transits`, `Automaton.Fires` — a symbol at a node, a move of the
  walk and what a node does, with the number of reroutes, of releases and of ends of tokens.
* `Automaton.Terminating` — all of these come to an end, after one turn at most.
* `Automaton.Sound` — an automaton is well-formed and terminating, and so are its nested runs.

## Main results

* `Automaton.WellFormed.terminates` — a well-formed automaton is terminating.
* `Grammar.wellFormed_compile` — the automaton of a grammar that compiles is well-formed.
* `Grammar.sound_compile` — it is sound.
-/

namespace TrieLexer

/-! ### The shape of an automaton -/

/-- The nodes to which a fallback may lead. -/
def Fallback.targets : Fallback → List NodeId
  | stay | release _ => []
  | reroute target => [target]
  | classify _ hit miss => [hit, miss]
  | dispatch => [.identifier, .number, .unknown]

/-- The body of a run: the node that an end of the run returns to. -/
def StateGraph.IsRunBody (g : StateGraph) (b : NodeId) : Prop :=
  ∃ n c, (g.behaviour n).action = .close c ∧ c.body = b

/-- The shape of an automaton: all nodes and runs that it names are there, every node but that of
numbers with a point has one parent at most, no path comes back, reroutes lead to nodes that stay,
and only the root dispatches. -/
structure Automaton.WellFormed (a : Automaton) : Prop where
  child_lt {n m : NodeId} {s : Symbol} (h : a.trie.child? n s = some m) : m < a.trie.size
  target_lt {n m : NodeId} (h : m ∈ (a.behaviour n).fallback.targets) : m < a.trie.size
  body_lt {n : NodeId} {c : Close} (h : (a.behaviour n).action = .close c) : c.body < a.trie.size
  run_lt {n : NodeId} {id : RunId} (h : (a.behaviour n).run = some id) : id < a.runs.length
  nested_lt {n : NodeId} {c : Close} {id : RunId} (h : (a.behaviour n).action = .close c)
    (hid : c.nested = some id) : id < a.runs.length
  parent {n k m : NodeId} {s u : Symbol} (hm : m ≠ .float) (h : a.trie.child? n s = some m)
    (h' : a.trie.child? k u = some m) : n = k ∧ s = u
  decimal : a.trie.child? .number (.char '.') = some .float
  parent_float {n : NodeId} {s : Symbol} (h : a.trie.child? n s = some .float) :
    s = .char '.' ∧ (n = .number ∨ n = .root)
  acyclic {n : NodeId} {p : List Symbol} (hp : p ≠ []) : a.trie.follow? n p ≠ some n
  reroute {n m : NodeId} (h : (a.behaviour n).fallback = .reroute m) :
    m = .unknown ∨ a.IsRunBody m
  stay {n : NodeId} (h : n = .unknown ∨ a.IsRunBody n) : (a.behaviour n).fallback = .stay
  dispatch (n : NodeId) : (a.behaviour n).fallback = .dispatch ↔ n = .root

/-! ### Following the walk -/

/-- A symbol is followed from a node to the step that it makes, over so many reroutes. -/
inductive StateGraph.Resolves (g : StateGraph) (s : Symbol) : NodeId → Nat → Step → Prop
  | child {n m : NodeId} (hc : g.trie.child? n s = some m) : Resolves g s n 0 (.node m)
  | stay {n : NodeId} (hc : g.trie.child? n s = none) (hf : (g.behaviour n).fallback = .stay) :
      Resolves g s n 0 (.node n)
  | classify {n hit miss : NodeId} {test : CharTest} (hc : g.trie.child? n s = none)
      (hf : (g.behaviour n).fallback = .classify test hit miss) :
      Resolves g s n 0 (.node (if g.passes test s then hit else miss))
  | dispatch {n : NodeId} (hc : g.trie.child? n s = none)
      (hf : (g.behaviour n).fallback = .dispatch) : Resolves g s n 0 (.node (g.dispatch s))
  | release {n : NodeId} {label : Label} (hc : g.trie.child? n s = none)
      (hf : (g.behaviour n).fallback = .release label) : Resolves g s n 0 (.release label)
  | reroute {n target : NodeId} {k : Nat} {step : Step} (hc : g.trie.child? n s = none)
      (hf : (g.behaviour n).fallback = .reroute target) (h : Resolves g s target k step) :
      Resolves g s n (k + 1) step

/-- A symbol makes one step, over one number of reroutes. -/
theorem StateGraph.Resolves.unique {g : StateGraph} {s : Symbol} {n : NodeId} {k k' : Nat}
    {step step' : Step} (h : g.Resolves s n k step) (h' : g.Resolves s n k' step') :
    k' = k ∧ step' = step := by
  induction h generalizing k' with
  | reroute hc hf h ih =>
    cases h' with
    | reroute hc' hf' h' =>
      cases hf.symm.trans hf'
      obtain ⟨rfl, rfl⟩ := ih h'
      exact ⟨rfl, rfl⟩
    | _ => grind
  | _ => cases h' <;> grind

namespace Automaton

variable {τ : Type} (a : Automaton) (sink : Sink τ) (inner : InnerScan)

/-- The walk moves along a symbol that begins at `start`, over so many releases. Each of them gives
out the text before the symbol and takes the symbol again from the root. -/
inductive Transits (s : Symbol) (start : Nat) :
    Progress → τ → Nat → Except ScanFault (Progress × τ) → Prop
  | node {p : Progress} {out : τ} {n : NodeId} (h : a.resolve p.node s = .node n) :
      Transits s start p out 0 (.ok ({ p with node := n }, out))
  | fault {p : Progress} {out : τ} {label : Label} {e : ScanFault}
      (h : a.resolve p.node s = .release label)
      (hsend : p.send sink out start (some label) = .error e) : Transits s start p out 1 (.error e)
  | release {p p' : Progress} {out out' : τ} {label : Label} {k : Nat}
      {r : Except ScanFault (Progress × τ)} (h : a.resolve p.node s = .release label)
      (hsend : p.send sink out start (some label) = .ok (p', out'))
      (hrest : Transits s start { p' with node := .root } out' k r) :
      Transits s start p out (k + 1) r

/-- The text before a terminator is given out, and the terminator is taken again from the root. -/
def cutOff (p : Progress) (out : τ) (stop : Nat) (label : Label) (length : Nat) :
    Except ScanFault (Progress × τ) := do
  let cut ← difference stop length
  let (p, out) ← p.send sink out cut (some label)
  let terminator ← p.stretch cut stop
  a.replay sink p out cut terminator.toList

/-- A node acts, and with it every node at which the walk arrives when a terminator is taken again;
so many ends of open-ended tokens are carried out. `replaying` tells that this is such an arrival,
where the end of another open-ended token is passed over. -/
inductive Fires (stop : Nat) :
    Bool → Progress → τ → Nat → Except ScanFault (Progress × τ) → Prop
  | other {replaying : Bool} {p : Progress} {out : τ}
      (h : ∀ label length, (a.behaviour p.node).action ≠ .boundary label length) :
      Fires stop replaying p out 0 (a.settle sink inner p out stop)
  | passed {p : Progress} {out : τ} {label : Label} {length : Nat}
      (h : (a.behaviour p.node).action = .boundary label length) :
      Fires stop true p out 0 (.ok (p, out))
  | fault {p : Progress} {out : τ} {label : Label} {length : Nat} {e : ScanFault}
      (h : (a.behaviour p.node).action = .boundary label length)
      (hcut : a.cutOff sink p out stop label length = .error e) :
      Fires stop false p out 1 (.error e)
  | boundary {p p' : Progress} {out out' : τ} {label : Label} {length k : Nat}
      {r : Except ScanFault (Progress × τ)}
      (h : (a.behaviour p.node).action = .boundary label length)
      (hcut : a.cutOff sink p out stop label length = .ok (p', out'))
      (hrest : Fires stop true p' out' k r) : Fires stop false p out (k + 1) r

variable {a sink inner}

/-- A move has one outcome, after one number of releases. -/
theorem Transits.unique {s : Symbol} {start k k' : Nat} {p : Progress} {out : τ}
    {r r' : Except ScanFault (Progress × τ)} (h : a.Transits sink s start p out k r)
    (h' : a.Transits sink s start p out k' r') : k' = k ∧ r' = r := by
  induction h generalizing k' with
  | release h hsend hrest ih =>
    cases h' with
    | release h' hsend' hrest' =>
      cases h.symm.trans h'
      cases hsend.symm.trans hsend'
      obtain ⟨rfl, rfl⟩ := ih hrest'
      exact ⟨rfl, rfl⟩
    | _ => grind
  | _ => cases h' <;> grind

/-- A node does one thing, with one number of ends of tokens. -/
theorem Fires.unique {stop k k' : Nat} {replaying : Bool} {p : Progress} {out : τ}
    {r r' : Except ScanFault (Progress × τ)} (h : a.Fires sink inner stop replaying p out k r)
    (h' : a.Fires sink inner stop replaying p out k' r') : k' = k ∧ r' = r := by
  induction h generalizing k' with
  | boundary h hcut hrest ih =>
    cases h' with
    | boundary h' hcut' hrest' =>
      cases h.symm.trans h'
      cases hcut.symm.trans hcut'
      obtain ⟨rfl, rfl⟩ := ih hrest'
      exact ⟨rfl, rfl⟩
    | _ => grind
  | _ => cases h' <;> grind

variable (a) in
/-- The walk comes to an end: at every node a symbol is followed over one reroute at most, the root
releases nothing, a move releases once at most, and where a terminator is taken again no end of
another token is carried out. What is followed is what the scan does. -/
structure Terminating : Prop where
  resolve (n : NodeId) (s : Symbol) : ∃ k ≤ 1, ∀ k' step,
    a.Resolves s n k' step ↔ k' = k ∧ step = a.resolve n s
  root (s : Symbol) (label : Label) : a.resolve .root s ≠ .release label
  transition {τ : Type} (sink : Sink τ) (p : Progress) (out : τ) (s : Symbol) (start : Nat) :
    ∃ k ≤ 1, ∀ k' r, a.Transits sink s start p out k' r ↔
      k' = k ∧ r = a.transition sink p out s start
  fire {τ : Type} (sink : Sink τ) (inner : InnerScan) (p : Progress) (out : τ) (stop : Nat) :
    ∃ k ≤ 1, ∀ k' r, a.Fires sink inner stop false p out k' r ↔
      k' = k ∧ r = a.fire sink inner p out stop

/-! ### Well-formed automata terminate -/

namespace WellFormed

theorem size_pos (h : a.WellFormed) : 0 < a.trie.size :=
  Nat.zero_lt_of_lt (h.child_lt h.decimal)

/-- A node that is rerouted to is not left for another one. -/
theorem resolves_of_stay {n : NodeId} (hn : (a.behaviour n).fallback = .stay) (hops : Nat)
    (s : Symbol) : a.Resolves s n 0 (a.resolveWithin hops n s) := by
  rw [StateGraph.resolveWithin]
  cases hc : a.trie.child? n s with
  | some m => exact .child hc
  | none =>
    rw [hn]
    exact .stay hc hn

/-- A symbol is followed over one reroute at most. -/
theorem resolves (h : a.WellFormed) (n : NodeId) (s : Symbol) :
    ∃ k ≤ 1, a.Resolves s n k (a.resolve n s) := by
  obtain ⟨hops, hsize⟩ := Nat.exists_eq_succ_of_ne_zero (Nat.ne_of_gt h.size_pos)
  rw [StateGraph.resolve, hsize, StateGraph.resolveWithin]
  cases hc : a.trie.child? n s with
  | some m => exact ⟨0, Nat.zero_le _, .child hc⟩
  | none =>
    cases hf : (a.behaviour n).fallback with
    | stay => exact ⟨0, Nat.zero_le _, .stay hc hf⟩
    | classify test hit miss => exact ⟨0, Nat.zero_le _, .classify hc hf⟩
    | dispatch => exact ⟨0, Nat.zero_le _, .dispatch hc hf⟩
    | release label => exact ⟨0, Nat.zero_le _, .release hc hf⟩
    | reroute target =>
      exact ⟨1, Nat.le_refl _, .reroute hc hf (resolves_of_stay (h.stay (h.reroute hf)) hops s)⟩

/-- The root has a child for a symbol or dispatches it. -/
theorem resolve_root (h : a.WellFormed) (s : Symbol) : ∃ n, a.resolve .root s = .node n := by
  obtain ⟨hops, hsize⟩ := Nat.exists_eq_succ_of_ne_zero (Nat.ne_of_gt h.size_pos)
  rw [StateGraph.resolve, hsize, StateGraph.resolveWithin]
  cases hc : a.trie.child? .root s with
  | some m => exact ⟨m, rfl⟩
  | none =>
    rw [(h.dispatch .root).2 rfl]
    exact ⟨_, rfl⟩

theorem transits (h : a.WellFormed) (sink : Sink τ) (p : Progress) (out : τ) (s : Symbol)
    (start : Nat) : ∃ k ≤ 1, a.Transits sink s start p out k (a.transition sink p out s start) := by
  rw [transition]
  cases hr : a.resolve p.node s with
  | node n => exact ⟨0, Nat.zero_le _, .node hr⟩
  | release label =>
    refine ⟨1, Nat.le_refl _, ?_⟩
    dsimp only
    cases hsend : p.send sink out start (some label) with
    | error e => exact .fault hr hsend
    | ok sent =>
      obtain ⟨n, hn⟩ := h.resolve_root s
      rw [ok_bind, hn]
      exact .release hr hsend (.node hn)

end WellFormed

/-- Where an open-ended token ends, the node that the walk arrives at acts next. -/
theorem fire_of_boundary {p : Progress} {out : τ} {stop length : Nat} {label : Label}
    (hb : (a.behaviour p.node).action = .boundary label length) :
    a.fire sink inner p out stop = a.cutOff sink p out stop label length >>= fun r =>
      a.settle sink inner r.1 r.2 stop := by
  rw [fire, hb]
  simp only [cutOff, bind_assoc]

/-- No end of a token is carried out while another one is. -/
theorem exists_fires (sink : Sink τ) (inner : InnerScan) (p : Progress) (out : τ) (stop : Nat) :
    ∃ k ≤ 1, a.Fires sink inner stop false p out k (a.fire sink inner p out stop) := by
  cases hb : (a.behaviour p.node).action with
  | boundary label length =>
    refine ⟨1, Nat.le_refl _, ?_⟩
    rw [fire_of_boundary hb]
    cases hcut : a.cutOff sink p out stop label length with
    | error e => exact .fault hb hcut
    | ok cut =>
      refine .boundary hb hcut ?_
      cases hnext : (a.behaviour cut.1.node).action with
      | boundary label' length' =>
        rw [ok_bind, settle, hnext]
        exact .passed hnext
      | _ => exact .other fun _ _ => by simp [hnext]
  | _ =>
    refine ⟨0, Nat.zero_le _, ?_⟩
    rw [fire, hb]
    exact .other fun _ _ => by simp [hb]

/-- A well-formed automaton is terminating. -/
theorem WellFormed.terminates (h : a.WellFormed) : a.Terminating where
  resolve n s := by
    obtain ⟨k, hk, hr⟩ := h.resolves n s
    refine ⟨k, hk, fun k' step => ⟨hr.unique, ?_⟩⟩
    rintro ⟨rfl, rfl⟩
    exact hr
  root s label := by
    obtain ⟨n, hn⟩ := h.resolve_root s
    rw [hn]
    nofun
  transition sink p out s start := by
    obtain ⟨k, hk, hr⟩ := h.transits sink p out s start
    refine ⟨k, hk, fun k' r => ⟨hr.unique, ?_⟩⟩
    rintro ⟨rfl, rfl⟩
    exact hr
  fire sink inner p out stop := by
    obtain ⟨k, hk, hr⟩ := exists_fires (a := a) sink inner p out stop
    refine ⟨k, hk, fun k' r => ⟨hr.unique, ?_⟩⟩
    rintro ⟨rfl, rfl⟩
    exact hr

end Automaton

/-! ### Compiled grammars -/

/-- Where every edge leads up, so does every path. -/
theorem Trie.le_of_follow? {t : Trie Behaviour} {n m : NodeId} {p : List Symbol}
    (hup : ∀ {n m : NodeId} {s : Symbol}, t.child? n s = some m → n < m)
    (h : t.follow? n p = some m) : n ≤ m := by
  induction p generalizing n with
  | nil =>
    cases h
    exact Nat.le_refl _
  | cons s p ih =>
    rw [follow?_cons] at h
    obtain ⟨k, hk, h⟩ := Option.bind_eq_some_iff.1 h
    exact Nat.le_of_lt (Nat.lt_of_lt_of_le (hup hk) (ih h))

/-- The automaton of a draft has the nodes of the draft. -/
theorem Draft.Charted.size_finish {lexicon : Lexicon} {matchers : List (GreedyMatcher Compilation)}
    {pointed : Prop} {marked : String → Prop} {loose : NodeId → Prop} {d d' : Draft}
    {place : NodeId → Locus} (h : Draft.Charted lexicon matchers pointed marked loose d place)
    (hp : d.Pointed lexicon d') : (lexicon.finish d').trie.size = d.trie.size := by
  rw [Lexicon.trie_finish, Trie.size_map, Draft.size_modifyBehaviour,
    (h.redirects_settled hp).size, hp.trie]
  split
  · rfl
  · exact Trie.size_setChild ..

namespace Charted

variable {lexicon : Lexicon} {matchers : List (GreedyMatcher Compilation)} {a : Automaton}
  {place : NodeId → Locus} {n b : NodeId}

/-- The end of input ends every run. -/
theorem isRunBody (h : Charted lexicon matchers a place) (he : a.Ended)
    {m : GreedyMatcher Compilation} {nested : Option RunId} (hb : place b = ⟨.body b m nested, []⟩)
    (hend : ∃ e, a.trie.child? b .endOfInput = some e) : a.IsRunBody b := by
  obtain ⟨e, hend⟩ := hend
  have hplace : place e = ⟨.body b m nested, [.endOfInput]⟩ := h.place_of_follow? hb (by
    rw [Trie.follow?_cons, hend]
    rfl)
  have hacts := he.acts hend
  have hfit := h.action e
  cases haction : (a.behaviour e).action with
  | none => exact absurd haction hacts
  | literal label =>
    rw [haction] at hfit
    cases hfit with
    | literal ho => exact absurd ho (by simp [hplace])
  | boundary label length =>
    exact absurd ⟨b, m, nested, congrArg Locus.origin hplace⟩ (h.boundary_not_isBody haction)
  | close c =>
    obtain ⟨b', m', nested', t, hk, hends⟩ := h.close_ends haction
    cases congrArg Locus.origin (hplace.symm.trans hk)
    exact ⟨e, c, haction, hends.body⟩

/-- The body of a run is at the beginning of its own places. -/
theorem place_of_isRunBody (h : Charted lexicon matchers a place) (hb : a.IsRunBody b) :
    ∃ m nested, place b = ⟨.body b m nested, []⟩ := by
  obtain ⟨n, c, hc, rfl⟩ := hb
  obtain ⟨b, m, nested, t, hn, hends⟩ := h.close_ends hc
  exact ⟨m, nested, by rw [hends.body]; exact (h.body hn).1⟩

/-- The nested run of a place in a run is there. -/
theorem lt_length_runs (h : Charted lexicon matchers a place) {m : GreedyMatcher Compilation}
    {id : RunId} {path : List Symbol} (hn : place n = ⟨.body b m (some id), path⟩) :
    id < a.runs.length := by
  obtain ⟨-, -, -, _, _, _, -, -, -, hrun⟩ := h.body hn
  exact (List.getElem?_eq_some_iff.1 hrun).1

/-- Nodes that are rerouted to are those of unknown text and the bodies of runs. -/
theorem reroute_target (h : Charted lexicon matchers a place) (he : a.Ended)
    (hn : (a.behaviour n).fallback = .reroute b) : b = .unknown ∨ a.IsRunBody b := by
  have hfit := h.fallback n
  rw [hn] at hfit
  cases hfit with
  | unknown hp => exact .inl rfl
  | enter hb hp => exact .inr (h.isRunBody he hb (he.target hn))
  | back hb hp hpath => exact .inr (h.isRunBody he hb (he.target hn))

end Charted

/-- The automaton of a grammar that compiles is well-formed. -/
theorem Grammar.wellFormed_compile {g : Grammar} {a : Automaton}
    (h : g.compile.result = .ok a) : a.WellFormed := by
  have hended := ended_compile h
  obtain ⟨d', hstages, rfl⟩ := Lexicon.stages_assemble (assemble_of_compile h)
  obtain ⟨d, place, hdraft, hpoint, htruthful⟩ := hstages.truthful
  have hsize := hdraft.size_finish hpoint
  have hfinish := hdraft.finishes hpoint
  have hchart := hfinish.charted hdraft
  have hforest := htruthful.forest
  generalize g.toLexicon.finish d' = a at *
  have hnumber : place .number = ⟨.number, []⟩ :=
    hchart.origin (o := .number) (Origin.not_isBody_of_mem (by simp))
  have hdecimal := hdraft.decimal hnumber
  have hedge {n m : NodeId} {s : Symbol} (hc : a.trie.child? n s = some m) :
      (n = .root ∧ s = .char '.' ∧ m = .float) ∨ d.trie.child? n s = some m := by
    rw [hfinish.child?] at hc
    split at hc
    · next hpoint => exact .inl ⟨hpoint.2.1, hpoint.2.2, (Option.some.inj hc).symm⟩
    · exact .inr hc
  have hup {n m : NodeId} {s : Symbol} (hc : a.trie.child? n s = some m) :
      n < m ∧ m < a.trie.size := by
    rw [hsize]
    rcases hedge hc with ⟨rfl, -, rfl⟩ | hc
    · exact ⟨by decide, hdraft.float_lt_size⟩
    · exact hforest.up hc
  have hcategory {n : NodeId} (hn : n ≤ .float) : n < a.trie.size :=
    hsize ▸ Nat.lt_of_le_of_lt hn hdraft.float_lt_size
  have hends {n : NodeId} (hn : ∃ e, a.trie.child? n .endOfInput = some e) : n < a.trie.size := by
    obtain ⟨e, he⟩ := hn
    exact Trie.lt_size_of_child? he
  refine ⟨fun hc => (hup hc).2, fun {n m} hm => ?target, fun hc => hends (hended.body hc),
    fun hr => ?run, fun hc hid => ?nested, fun {n k m s u} hm hc hc' => ?parent, ?decimal,
    fun hc => ?float, fun {n p} hp hn => ?acyclic, hchart.reroute_target hended,
    fun {n} hn => ?stay, fun n => ⟨fun hn => ?dispatch, ?root⟩⟩
  case target =>
    have hfit := hchart.fallback n
    cases hf : (a.behaviour n).fallback with
    | reroute b =>
      rw [hf] at hm
      obtain rfl := List.mem_singleton.1 hm
      exact hends (hended.target hf)
    | classify test hit miss =>
      rw [hf] at hm hfit
      refine hcategory ?_
      cases hfit <;> rcases List.mem_pair.1 hm with rfl | rfl <;> decide
    | dispatch =>
      rw [hf] at hm
      refine hcategory ?_
      simp only [Fallback.targets, List.mem_cons, List.not_mem_nil, or_false] at hm
      rcases hm with rfl | rfl | rfl <;> decide
    | _ =>
      rw [hf] at hm
      cases hm
  case run =>
    obtain ⟨m, hn⟩ := hchart.run hr
    exact hchart.lt_length_runs hn
  case nested =>
    obtain ⟨b, m, nested, t, hn, hcends⟩ := hchart.close_ends hc
    cases hcends.nested.symm.trans hid
    exact hchart.lt_length_runs hn
  case parent =>
    exact hforest.parent ((hedge hc).resolve_left fun hpoint => hm hpoint.2.2)
      ((hedge hc').resolve_left fun hpoint => hm hpoint.2.2)
  case decimal =>
    rw [hfinish.child?, if_neg (by rintro ⟨-, ⟨⟩, -⟩), hdecimal]
  case float =>
    rcases hedge hc with ⟨rfl, rfl, -⟩ | hc
    · exact ⟨rfl, .inr rfl⟩
    · obtain ⟨rfl, rfl⟩ := hforest.parent hc hdecimal
      exact ⟨rfl, .inl rfl⟩
  case acyclic =>
    obtain ⟨s, p, rfl⟩ := List.exists_cons_of_ne_nil hp
    rw [Trie.follow?_cons] at hn
    obtain ⟨k, hk, hn⟩ := Option.bind_eq_some_iff.1 hn
    exact Nat.not_le_of_lt (hup hk).1 (Trie.le_of_follow? (fun hc => (hup hc).1) hn)
  case stay =>
    refine (hchart.fallback n).eq_stay ?_
    rcases hn with rfl | hn
    · exact hchart.place_unknown ▸ Locus.isRest_unknown
    · obtain ⟨m, nested, hplace⟩ := hchart.place_of_isRunBody hn
      exact hplace ▸ Locus.isRest_body ..
  case dispatch =>
    by_contra hne
    rcases hfinish.fallback hne with hsame | ⟨-, b, -, -, hb⟩
    · exact htruthful.claims.plain n (hsame.symm.trans hn)
    · cases hb.symm.trans hn
  case root =>
    rintro rfl
    exact hfinish.root

/-- An automaton is well-formed and terminating, and so are the automata of its nested runs. -/
inductive Automaton.Sound : Automaton → Prop
  | mk {a : Automaton} (wellFormed : a.WellFormed) (terminating : a.Terminating)
      (runs : ∀ run ∈ a.runs, Sound run.automaton) : Sound a

/-- The automaton of a grammar that compiles is sound. -/
theorem Grammar.sound_compile (g : Grammar) {a : Automaton} (h : g.compile.result = .ok a) :
    a.Sound := by
  induction g using Grammar.induct generalizing a with
  | step g ih =>
    have hwell := wellFormed_compile h
    obtain ⟨place, hchart⟩ := g.charted_compile h
    refine .mk hwell hwell.terminates fun run hrun => ?_
    obtain ⟨m, hm, s, hs, ha⟩ := hchart.exists_of_mem hrun
    exact ih m hm s hs ha

/-- A grammar with an interior. -/
theorem Grammar.sound_compile_bracketed :
    ∃ a, bracketed.compile.result = .ok a ∧ a.Sound ∧ a.runs.length = 1 := by
  have hruns : (bracketed.compile.result.toOption.map fun a => a.runs.length) = some 1 := by
    decide +kernel
  obtain ⟨a, ha, hlength⟩ := Option.map_eq_some_iff.1 hruns
  exact ⟨a, eq_ok_of_toOption ha, bracketed.sound_compile (eq_ok_of_toOption ha), hlength⟩

end TrieLexer
