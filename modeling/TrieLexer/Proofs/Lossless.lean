import TrieLexer.Proofs.Endings
import TrieLexer.Proofs.Fidelity
import TrieLexer.Proofs.Safety

/-!
# No text is left out

Wherever the walk comes to rest, the end of input leads to a node that gives out everything that is
pending. So nothing is left when a scan ends, and if unnamed delimiters are kept, the tokens of an
input put together are the input.

## Main definitions

* `Grammar.KeepsAll` — unnamed delimiters are kept at every depth.
* `StateGraph.Wakeful` — a node that the walk may come to rest on has a way out.
* `Reading.Live` — a scan between two symbols that can end.
* `Scanner.leftOpen` — what is still pending when the end of input has been scanned.

## Main results

* `Charted.move_endOfInput` — the end of input leads out of every node.
* `Reading.Live.pending_of_advance` — the end of input leaves nothing pending.
* `Grammar.lossless` — the tokens of an input put together are the input.
-/

namespace TrieLexer

open Text (byteLength)

/-- Unnamed delimiters are kept, in a grammar and in its interiors. -/
inductive Grammar.KeepsAll : Grammar → Prop
  | mk {g : Grammar} (h : g.includeUnnamedDelimiters = true)
      (hm : ∀ m ∈ g.greedyMatchers, ∀ s, m.subGrammar = some s → s.KeepsAll) : g.KeepsAll

theorem GreedyMatcher.terminator_ne {γ : Type} (m : GreedyMatcher γ) : m.terminator ≠ some "" := by
  simp [terminator, Option.filter_eq_some_iff]

theorem GreedyMatcher.haltMarker_ne {γ : Type} (m : GreedyMatcher γ) : m.haltMarker ≠ some "" := by
  simp [haltMarker, Option.filter_eq_some_iff]

/-! ### The end of input -/

/-- Only the end of input leads to where the end of input leads. -/
theorem Locus.eq_endOfInput_of_down {p q : Locus} {s : Symbol}
    (h : p.down s = q.down .endOfInput) : s = .endOfInput := by
  obtain hq | ⟨-, ⟨⟩, -⟩ := q.down_eq_or .endOfInput
  rw [hq] at h
  obtain hp | ⟨-, -, hp⟩ := p.down_eq_or s
  · rw [hp] at h
    exact (List.cons.inj (List.append_inj' (Locus.mk.inj h).2 rfl).2).1
  · rw [hp] at h
    exact absurd (Locus.mk.inj h).2.symm (by simp)

/-- Only the empty literal is spelled down to an end of input. -/
theorem Locus.eq_nil_of_walk {p q : Locus} {literal : List Char}
    (h : p.walk (spelling literal) = q.down .endOfInput) : literal = [] := by
  obtain ⟨front, s, hsplit⟩ := (List.eq_nil_or_concat _).resolve_left (spelling_ne_nil literal)
  rw [List.concat_eq_append] at hsplit
  rw [hsplit, walk_append] at h
  obtain rfl := eq_endOfInput_of_down h
  exact eq_nil_of_spelling_eq hsplit

/-- A node that the walk may come to rest on has a way out at the end of input. -/
def StateGraph.Wakeful (g : StateGraph) (place : NodeId → Locus) (n : NodeId) : Prop :=
  (place n).IsRest → ∃ m, g.trie.child? n .endOfInput = some m

namespace Charted

variable {lexicon : Lexicon} {matchers : List (GreedyMatcher Compilation)} {a : Automaton}
  {place : NodeId → Locus} {n m k : NodeId} {s : Symbol} {c c' : Cursor} {ls : List Lexeme}

theorem wakeful_origin (h : Charted lexicon matchers a place) (he : a.Ended) {o : Origin}
    (ho : ¬o.IsBody) : a.Wakeful place o.node := by
  rintro ⟨-, hrest⟩
  rw [h.origin ho] at hrest
  obtain rfl := hrest.resolve_right ho
  exact he.unknown

theorem wakeful_child (h : Charted lexicon matchers a place)
    (hc : a.trie.child? n s = some m) : a.Wakeful place m := by
  intro hrest
  rcases h.child hc with hd | ⟨-, -, hd⟩
  · rw [hd] at hrest
    exact absurd hrest (Locus.not_isRest_down _ s)
  · rw [hd] at hrest
    exact absurd rfl hrest.origin_ne.2.2

theorem wakeful_dispatch (h : Charted lexicon matchers a place) (he : a.Ended) (s : Symbol) :
    a.Wakeful place (a.dispatch s) := by
  have hunknown := h.wakeful_origin he (o := .unknown) (Origin.not_isBody_of_mem (by simp))
  cases s with
  | endOfInput => exact hunknown
  | char c =>
    rw [StateGraph.dispatch]
    split
    · exact h.wakeful_origin he (o := .identifier) (Origin.not_isBody_of_mem (by simp))
    · split
      · exact h.wakeful_origin he (o := .number) (Origin.not_isBody_of_mem (by simp))
      · exact hunknown

/-- A node that others lead to goes on as what it is. -/
theorem isRest_target (h : Charted lexicon matchers a place)
    (hf : (a.behaviour n).fallback = .reroute m) : (place m).IsRest := by
  have hfit := h.fallback n
  rw [hf] at hfit
  cases hfit with
  | unknown => exact h.place_unknown ▸ Locus.isRest_unknown
  | enter hb => exact hb ▸ Locus.isRest_body ..
  | back hb => exact hb ▸ Locus.isRest_body ..

/-- The walk comes to rest on wakeful nodes only. -/
theorem wakeful_resolve (h : Charted lexicon matchers a place) (he : a.Ended)
    (hn : a.Wakeful place n) (hr : a.resolve n s = .node m) : a.Wakeful place m := by
  obtain ⟨hops, hsize⟩ := Nat.exists_eq_succ_of_ne_zero (Nat.ne_of_gt h.size_pos)
  rw [StateGraph.resolve, StateGraph.resolveWithin] at hr
  cases hc : a.trie.child? n s with
  | some child =>
    rw [hc] at hr
    cases hr
    exact h.wakeful_child hc
  | none =>
    have hfit := h.fallback n
    rw [hc] at hr
    cases hf : (a.behaviour n).fallback with
    | stay =>
      rw [hf] at hr
      cases hr
      exact hn
    | classify test hit miss =>
      rw [hf] at hr hfit
      have hboth : a.Wakeful place hit ∧ a.Wakeful place miss := by
        have hunknown := h.wakeful_origin he (o := .unknown) (Origin.not_isBody_of_mem (by simp))
        cases hfit with
        | identifier =>
          exact ⟨h.wakeful_origin he (o := .identifier) (Origin.not_isBody_of_mem (by simp)),
            hunknown⟩
        | digit =>
          exact ⟨h.wakeful_origin he (o := .number) (Origin.not_isBody_of_mem (by simp)), hunknown⟩
        | decimal =>
          exact ⟨h.wakeful_origin he (o := .float) (Origin.not_isBody_of_mem (by simp)), hunknown⟩
      cases hr
      split
      · exact hboth.1
      · exact hboth.2
    | dispatch =>
      rw [hf] at hr
      cases hr
      exact h.wakeful_dispatch he s
    | release label =>
      rw [hf] at hr
      cases hr
    | reroute target =>
      rw [hf, hsize] at hr
      rcases h.resolveWithin_of_isRest (h.isRest_target hf) hops s with hu | ⟨k, hu, hk⟩
      · cases hu.symm.trans hr
        exact fun _ => he.target hf
      · cases hu.symm.trans hr
        intro hrest
        rw [hk] at hrest
        exact absurd hrest (Locus.not_isRest_down _ s)

/-- The end of input leads from every node to a node of its own, except from the root. -/
theorem resolve_endOfInput (h : Charted lexicon matchers a place) (he : a.Ended)
    (hn : a.Wakeful place n) (hrests : (a.behaviour n).action = .none)
    (hr : a.resolve n .endOfInput = .node m) :
    (∃ k, a.trie.child? k .endOfInput = some m) ∨ place n = ⟨.root, []⟩ ∧ m = .unknown := by
  obtain ⟨hops, hsize⟩ := Nat.exists_eq_succ_of_ne_zero (Nat.ne_of_gt h.size_pos)
  rw [StateGraph.resolve, StateGraph.resolveWithin] at hr
  cases hc : a.trie.child? n .endOfInput with
  | some child =>
    rw [hc] at hr
    cases hr
    exact .inl ⟨n, hc⟩
  | none =>
    have hstuck : ¬∃ m, a.trie.child? n .endOfInput = some m := by simp [hc]
    have hfit := h.fallback n
    rw [hc] at hr
    cases hf : (a.behaviour n).fallback with
    | stay => exact absurd (hn (h.settled hf hrests)) hstuck
    | classify test hit miss => exact absurd (he.classify hf) hstuck
    | dispatch =>
      rw [hf] at hr hfit
      cases hr
      cases hfit with
      | dispatch hp => exact .inr ⟨hp, rfl⟩
    | release label =>
      rw [hf] at hr
      cases hr
    | reroute target =>
      obtain ⟨child, hchild⟩ := he.target hf
      rw [hf, hsize] at hr
      dsimp only at hr
      rw [StateGraph.resolveWithin, hchild] at hr
      cases hr
      exact .inl ⟨target, hchild⟩

/-- The end of input leads out of every node, unless nothing is pending. -/
theorem move_endOfInput (h : Charted lexicon matchers a place) (he : a.Ended)
    (hspells : (place c.node).Spells c.pending) (hrests : (a.behaviour c.node).action = .none)
    (hn : a.Wakeful place c.node) (hm : a.move c .endOfInput = .ok (c', ls)) :
    (∃ k, a.trie.child? k .endOfInput = some c'.node) ∨
      c'.pending = [] ∧ (a.behaviour c'.node).action = .none := by
  have hunknown : (a.behaviour .unknown).action = .none :=
    h.action_eq_none (by rw [h.place_unknown]) (by rw [h.place_unknown]; exact nofun)
  rw [StateGraph.move] at hm
  split at hm
  · next hr =>
    cases hm
    refine (h.resolve_endOfInput he hn hrests hr).imp_right ?_
    rintro ⟨hroot, hto⟩
    obtain ⟨before, hopens, hpending⟩ := hspells
    rw [hroot] at hopens hpending
    obtain rfl : before = [] := hopens
    exact ⟨by simpa [Symbol.text] using hpending, by rw [hto]; exact hunknown⟩
  · split at hm
    · next hr =>
      cases hm
      refine (h.resolve_endOfInput he ?_ h.action_root hr).imp_right fun hto => ⟨rfl, ?_⟩
      · exact h.wakeful_origin he (o := .root) (Origin.not_isBody_of_mem (by simp))
      · rw [hto.2]
        exact hunknown
    · cases hm

theorem wakeful_move (h : Charted lexicon matchers a place) (he : a.Ended)
    (hn : a.Wakeful place c.node) (hm : a.move c s = .ok (c', ls)) :
    a.Wakeful place c'.node := by
  rw [StateGraph.move] at hm
  split at hm
  · next hr =>
    cases hm
    exact h.wakeful_resolve he hn hr
  · split at hm
    · next hr =>
      cases hm
      exact h.wakeful_resolve he
        (h.wakeful_origin he (o := .root) (Origin.not_isBody_of_mem (by simp))) hr
    · cases hm

theorem wakeful_retake (h : Charted lexicon matchers a place) (he : a.Ended) {text : List Char}
    (hn : a.Wakeful place c.node) (hm : a.retake c text = .ok (c', ls)) :
    a.Wakeful place c'.node := by
  induction text generalizing c ls with
  | nil =>
    cases hm
    exact hn
  | cons d text ih =>
    obtain ⟨⟨c₁, out⟩, hd, hm⟩ := bind_eq_ok.1 hm
    obtain ⟨⟨c₂, outs⟩, hr, hm⟩ := bind_eq_ok.1 hm
    cases hm
    exact ih (h.wakeful_move he hn hd) hr

end Charted

/-! ### What is given out -/

/-- Text is given out under a label. -/
def Lexeme.Labelled : Lexeme → Prop
  | .plain text label => text = [] ∨ label ≠ none
  | _ => True

namespace Reading

variable {lexicon : Lexicon} {matchers : List (GreedyMatcher Compilation)} {a : Automaton}
  {place : NodeId → Locus} {inner : InnerScan} {r r' : Reading} {ls : List Lexeme} {slack : Nat}
  {k : NodeId} {c : Close}

/-- A scan between two symbols that can end. -/
structure Live (a : Automaton) (place : NodeId → Locus) (r : Reading) : Prop
    extends r.Spelled a place where
  wakes : a.Wakeful place r.node

theorem live_root (h : Charted lexicon matchers a place) (he : a.Ended)
    (run : Option (NestedScan Progress)) (idle : Array (Option Progress)) :
    Reading.Live a place { run, idle } :=
  ⟨spelled_root h run idle,
    h.wakeful_origin he (o := .root) (Origin.not_isBody_of_mem (by simp))⟩

theorem live_park (h : Charted lexicon matchers a place) (he : a.Ended) (r : Reading) :
    r.park.Live a place := by
  rw [park]
  split <;> exact live_root h he _ _

omit inner in
theorem place_of_end (h : Charted lexicon matchers a place) {n : NodeId}
    (hk : a.trie.child? k .endOfInput = some n) : place n = (place k).down .endOfInput :=
  (h.child hk).resolve_right fun hpoint => nomatch hpoint.2.1

/-- The end of input ends a run, whatever stands before it. -/
theorem pending_of_close (h : Charted lexicon matchers a place)
    (hk : a.trie.child? k .endOfInput = some r.node) (hc : (a.behaviour r.node).action = .close c)
    (hs : r.close a inner c = .ok (r', ls)) : r'.pending = [] := by
  have hescape : c.escape = none := by
    obtain ⟨b, m, nested, t, hp, hends⟩ := h.close_ends hc
    have hwalk : Locus.walk ⟨.body b m nested, []⟩ (spelling t.toList) =
        (place k).down .endOfInput := by
      rw [Locus.walk_of_origin_ne (by simp), ← place_of_end h hk, hp]
      rfl
    obtain rfl : t = "" := String.toList_eq_nil_iff.1 (Locus.eq_nil_of_walk hwalk)
    rcases hends.way with ⟨ht, -⟩ | ⟨-, -, -, hescape⟩ | ⟨ht, -⟩
    · exact absurd ht m.terminator_ne
    · exact hescape
    · exact absurd ht m.haltMarker_ne
  rcases close_cases hs with ⟨hescaped, -⟩ | ⟨-, -, rfl, -⟩ | ⟨-, _, _, _, -, -, hgive⟩
  · rw [Close.isEscaped, hescape] at hescaped
    cases hescaped
  · rfl
  · obtain ⟨_, _, _, _, _, -, -, -, rfl, -⟩ := exists_of_giveOut hgive
    rfl

/-- An end of input gives out everything. -/
theorem pending_of_act (h : Charted lexicon matchers a place) (he : a.Ended)
    (hk : a.trie.child? k .endOfInput = some r.node) (hs : r.act a inner = .ok (r', ls)) :
    r'.pending = [] := by
  have hacts := he.acts hk
  rw [act] at hs
  cases hc : (a.behaviour r.node).action with
  | none => exact absurd hc hacts
  | boundary label length =>
    have hfit := h.action r.node
    rw [hc] at hs hfit
    cases hfit with
    | @boundary q t ht hq hp =>
      have hnil : t.toList = [] := Locus.eq_nil_of_walk (hp.symm.trans (place_of_end h hk))
      obtain ⟨⟨before, terminator⟩, hcut, hs⟩ := bind_eq_ok.1 hs
      obtain ⟨⟨cursor, released⟩, hretake, hs⟩ := bind_eq_ok.1 hs
      obtain ⟨⟨r₁, out⟩, hsettle, hs⟩ := bind_eq_ok.1 hs
      cases hs
      have hlength := (cutBack_eq_ok.1 hcut).2
      rw [hnil, Text.byteLength_nil] at hlength
      obtain rfl := Text.byteLength_eq_zero_iff.1 hlength
      cases hretake
      rw [settle, h.action_root] at hsettle
      cases hsettle
      rfl
  | literal label =>
    rw [hc] at hs
    dsimp only at hs
    rw [settle, hc] at hs
    cases hs
    rfl
  | close c =>
    rw [hc] at hs
    dsimp only at hs
    rw [settle, hc] at hs
    exact pending_of_close h hk hc hs

/-- The end of input leaves nothing pending. -/
theorem Live.pending_of_advance (hl : r.Live a place) (h : Charted lexicon matchers a place)
    (he : a.Ended) (hs : r.advance a inner .endOfInput = .ok (r', ls)) : r'.pending = [] := by
  obtain ⟨⟨c, released⟩, hm, hs⟩ := bind_eq_ok.1 hs
  obtain ⟨r₁, hr₁, hs⟩ := bind_eq_ok.1 hs
  obtain ⟨⟨r₂, out⟩, ha, hs⟩ := bind_eq_ok.1 hs
  obtain ⟨r₃, hf, hs⟩ := bind_eq_ok.1 hs
  cases hs
  rw [feed_toCursor hf]
  have hc := enter_toCursor hr₁
  rcases h.move_endOfInput he hl.spells hl.rests hl.wakes hm with ⟨k, hk⟩ | ⟨hpending, hnone⟩
  · exact pending_of_act h he (r := r₁) (by rw [hc]; exact hk) ha
  · rw [act, hc, hnone] at ha
    dsimp only at ha
    rw [settle, hc, hnone] at ha
    cases ha
    rw [hc]
    exact hpending

theorem wakeful_settle (h : Charted lexicon matchers a place) (he : a.Ended)
    (hn : a.Wakeful place r.node) (hs : r.settle a inner = .ok (r', ls)) :
    a.Wakeful place r'.node := by
  have hroot := h.wakeful_origin he (o := .root) (Origin.not_isBody_of_mem (by simp))
  rw [settle] at hs
  split at hs
  · cases hs
    exact hn
  · cases hs
    exact hn
  · cases hs
    exact hroot
  · next c hc =>
    rcases close_cases hs with ⟨-, rfl, -⟩ | ⟨-, -, rfl, -⟩ | ⟨-, _, _, _, -, -, hgive⟩
    · exact fun _ => he.body hc
    · exact hroot
    · obtain ⟨_, _, _, _, _, -, -, -, rfl, -⟩ := exists_of_giveOut hgive
      exact hroot

theorem wakeful_act (h : Charted lexicon matchers a place) (he : a.Ended)
    (hn : a.Wakeful place r.node) (hs : r.act a inner = .ok (r', ls)) :
    a.Wakeful place r'.node := by
  rw [act] at hs
  split at hs
  · obtain ⟨_, -, hs⟩ := bind_eq_ok.1 hs
    obtain ⟨⟨cursor, released⟩, hretake, hs⟩ := bind_eq_ok.1 hs
    obtain ⟨⟨r₁, out⟩, hsettle, hs⟩ := bind_eq_ok.1 hs
    cases hs
    refine wakeful_settle h he (r := { r with toCursor := cursor }) ?_ hsettle
    exact h.wakeful_retake he
      (h.wakeful_origin he (o := .root) (Origin.not_isBody_of_mem (by simp))) hretake
  · exact wakeful_settle h he hn hs

/-- A symbol leads to a scan that can end. -/
theorem Live.advance (hl : r.Live a place) (hr : r.Sound a place 0)
    (h : Charted lexicon matchers a place) (he : a.Ended) (hlone : lexicon.LonePoint) {s : Symbol}
    (hs : r.advance a inner s = .ok (r', ls)) : r'.Live a place := by
  refine ⟨(hl.toSpelled.advance hr h hlone hs).1, ?_⟩
  obtain ⟨⟨c, released⟩, hm, hs⟩ := bind_eq_ok.1 hs
  obtain ⟨r₁, hr₁, hs⟩ := bind_eq_ok.1 hs
  obtain ⟨⟨r₂, out⟩, ha, hs⟩ := bind_eq_ok.1 hs
  obtain ⟨r₃, hf, hs⟩ := bind_eq_ok.1 hs
  cases hs
  rw [feed_toCursor hf]
  refine wakeful_act h he ?_ ha
  rw [enter_toCursor hr₁]
  exact h.wakeful_move he hl.wakes hm

theorem Live.read (hl : r.Live a place) (hr : r.Sound a place 0)
    (h : Charted lexicon matchers a place) (he : a.Ended) (hlone : lexicon.LonePoint)
    {text : List Char} (hs : r.read a inner text = .ok (r', ls)) : r'.Live a place := by
  induction text generalizing r ls with
  | nil =>
    cases hs
    exact hl
  | cons c text ih =>
    obtain ⟨⟨r₁, out⟩, ha, hs⟩ := bind_eq_ok.1 hs
    obtain ⟨⟨r₂, outs⟩, hread, hs⟩ := bind_eq_ok.1 hs
    cases hs
    exact ih (hl.advance hr h he hlone ha) (hr.advance h ha) hread

/-- Scans can end at any time. -/
theorem Live.take (hl : r.Live a place) (hr : r.Sound a place 0)
    (h : Charted lexicon matchers a place) (he : a.Ended) (hlone : lexicon.LonePoint)
    {input : Input} (hs : r.take a inner input = .ok (r', ls)) : r'.Live a place := by
  cases input with
  | chunk text => exact hl.read hr h he hlone hs
  | done =>
    obtain ⟨⟨r₁, out⟩, -, hs⟩ := bind_eq_ok.1 hs
    cases hs
    exact live_park h he r₁

/-! ### Labels -/

variable (hunnamed : a.unnamed ≠ none)

include hunnamed

theorem labelled_settle (hs : r.settle a inner = .ok (r', ls)) : ∀ l ∈ ls, l.Labelled := by
  rw [settle] at hs
  split at hs
  · cases hs
    exact List.forall_mem_nil _
  · cases hs
    exact List.forall_mem_nil _
  · next label _ =>
    cases hs
    refine List.forall_mem_singleton.2 (.inr ?_)
    cases label with
    | none => exact hunnamed
    | some label => exact Option.some_ne_none _
  · rcases close_cases hs with ⟨-, -, rfl⟩ | ⟨-, -, -, rfl⟩ | ⟨-, _, _, _, -, -, hgive⟩
    · exact List.forall_mem_nil _
    · exact List.forall_mem_singleton.2 trivial
    · obtain ⟨_, _, _, _, _, -, -, -, -, rfl⟩ := exists_of_giveOut hgive
      exact List.forall_mem_singleton.2 trivial

/-- A symbol gives out labelled text. -/
theorem labelled_advance {s : Symbol} (hs : r.advance a inner s = .ok (r', ls)) :
    ∀ l ∈ ls, l.Labelled := by
  obtain ⟨⟨c, released⟩, hm, hs⟩ := bind_eq_ok.1 hs
  obtain ⟨r₁, -, hs⟩ := bind_eq_ok.1 hs
  obtain ⟨⟨r₂, out⟩, ha, hs⟩ := bind_eq_ok.1 hs
  obtain ⟨r₃, -, hs⟩ := bind_eq_ok.1 hs
  cases hs
  refine List.forall_mem_append.2
    ⟨StateGraph.forall_of_move (fun _ _ _ _ => .inr (Option.some_ne_none _)) hm, ?_⟩
  rw [act] at ha
  split at ha
  · obtain ⟨_, -, ha⟩ := bind_eq_ok.1 ha
    obtain ⟨⟨cursor, retaken⟩, hretake, ha⟩ := bind_eq_ok.1 ha
    obtain ⟨⟨r₄, rest⟩, hsettle, ha⟩ := bind_eq_ok.1 ha
    cases ha
    exact List.forall_mem_cons.2 ⟨.inr (Option.some_ne_none _), List.forall_mem_append.2
      ⟨StateGraph.forall_of_retake (fun _ _ _ _ => .inr (Option.some_ne_none _)) hretake,
        labelled_settle hunnamed hsettle⟩⟩
  · exact labelled_settle hunnamed ha

theorem labelled_read {text : List Char} (hs : r.read a inner text = .ok (r', ls)) :
    ∀ l ∈ ls, l.Labelled := by
  induction text generalizing r ls with
  | nil =>
    cases hs
    exact List.forall_mem_nil _
  | cons c text ih =>
    obtain ⟨⟨r₁, out⟩, ha, hs⟩ := bind_eq_ok.1 hs
    obtain ⟨⟨r₂, outs⟩, hread, hs⟩ := bind_eq_ok.1 hs
    cases hs
    exact List.forall_mem_append.2 ⟨labelled_advance hunnamed ha, ih hread⟩

/-- Scans that can end give out labelled text. -/
theorem Live.labelled_take (hl : r.Live a place) (h : Charted lexicon matchers a place)
    (he : a.Ended) {input : Input} (hs : r.take a inner input = .ok (r', ls)) :
    ∀ l ∈ ls, l.Labelled := by
  cases input with
  | chunk text => exact labelled_read hunnamed hs
  | done =>
    obtain ⟨⟨r₁, out⟩, ha, hs⟩ := bind_eq_ok.1 hs
    cases hs
    exact List.forall_mem_append.2 ⟨labelled_advance hunnamed ha,
      List.forall_mem_singleton.2 (.inl (hl.pending_of_advance h he ha))⟩

end Reading

/-! ### Tokens put together -/

/-- The text of tokens put together. -/
def joined (tokens : List Token) : List Char := tokens.flatMap (·.value.toList)

theorem joined_append (tokens more : List Token) :
    joined (tokens ++ more) = joined tokens ++ joined more := List.flatMap_append

theorem joined_shifted (tokens : List Token) (offset : Nat) :
    joined (tokens.map (·.shifted offset)) = joined tokens := List.flatMap_map ..

@[simp] theorem joined_tokenAt (position : Nat) (text : List Char) (kind : Label) :
    joined (tokenAt position text (some kind)) = text := by
  rw [tokenAt]
  split
  · next hnil => rw [List.isEmpty_iff.1 hnil]; rfl
  · simp [joined]

/-- The tokens of labelled text put together are the text. -/
theorem joined_listing (position : Nat) {ls : List Lexeme} (h : ∀ l ∈ ls, l.Labelled)
    (hnested : ∀ opener interior terminator c tokens,
      .nested opener interior terminator c tokens ∈ ls → joined tokens = interior) :
    joined (listing position ls) = spelled ls := by
  induction ls generalizing position with
  | nil => rfl
  | cons l ls ih =>
    rw [listing_cons, joined_append, spelled_cons,
      ih _ (fun x hx => h x (List.mem_cons_of_mem _ hx)) fun _ _ _ _ _ hx =>
        hnested _ _ _ _ _ (List.mem_cons_of_mem _ hx)]
    refine congrArg (· ++ _) ?_
    have hl := h l List.mem_cons_self
    cases l with
    | plain text label =>
      cases label with
      | none =>
        obtain rfl := hl.resolve_right (fun hlabel => hlabel rfl)
        rfl
      | some kind => exact joined_tokenAt position text kind
    | whole text c => exact joined_tokenAt position text c.label
    | nested opener interior terminator c tokens =>
      rw [Lexeme.tokens, joined_append, joined_append, joined_shifted, joined_tokenAt,
        joined_tokenAt, hnested _ _ _ _ _ List.mem_cons_self]
      rfl

/-- An automaton that gives out all text, at every depth. -/
inductive Thorough : Automaton → Prop
  | mk {lexicon : Lexicon} {matchers : List (GreedyMatcher Compilation)} {a : Automaton}
      {place : NodeId → Locus} (h : Charted lexicon matchers a place) (hended : a.Ended)
      (hlone : lexicon.LonePoint) (hunnamed : a.unnamed ≠ none)
      (hruns : ∀ run ∈ a.runs, Thorough run.automaton) : Thorough a

theorem Thorough.lawful {a : Automaton} (h : Thorough a) : Lawful True a := by
  induction h with
  | mk h hended hlone hunnamed hruns ih => exact .mk h (fun _ => hlone) ih

theorem Grammar.KeepsAll.unnamed {g : Grammar} (h : g.KeepsAll) :
    g.includeUnnamedDelimiters = true := by
  cases h with
  | mk h hm => exact h

theorem Grammar.KeepsAll.interior {g s : Grammar} (h : g.KeepsAll) {m : GreedyMatcher Grammar}
    (hm : m ∈ g.greedyMatchers) (hs : m.subGrammar = some s) : s.KeepsAll := by
  cases h with
  | mk h hinterior => exact hinterior m hm s hs

/-- A grammar that compiles and keeps unnamed delimiters has a thorough automaton. -/
theorem Grammar.thorough_compile {g : Grammar} (hkeeps : g.KeepsAll) (hlone : g.LonePoint)
    {a : Automaton} (h : g.compile.result = .ok a) : Thorough a := by
  induction g using Grammar.induct generalizing a with
  | step g ih =>
    obtain ⟨place, hchart⟩ := g.charted_compile h
    refine .mk hchart (ended_compile h) hlone.lexicon ?_ fun run hrun => ?_
    · obtain ⟨d, -, rfl⟩ := Lexicon.stages_assemble (assemble_of_compile h)
      change g.toLexicon.unnamedLabel ≠ none
      rw [Lexicon.unnamedLabel, hkeeps.unnamed]
      nofun
    · obtain ⟨m, hm, s, hs, ha⟩ := hchart.exists_of_mem hrun
      exact ih m hm s hs (hkeeps.interior hm hs) (hlone.interior hm hs) ha

/-- The tokens of a whole scan put together are the text. -/
theorem Thorough.joined_scan {a : Automaton} (h : Thorough a) {q p p' : Progress} {x : String}
    {start tokens : Array Token}
    (hchunk : a.scan .collect (q.reset 0) #[] (.chunk x) = .ok (p, start))
    (hdone : a.scan .collect p start .done = .ok (p', tokens)) :
    joined tokens.toList = x.toList := by
  induction h generalizing q p p' x start tokens with
  | @mk lexicon matchers a place hchart hended hlone hunnamed hruns ih =>
    obtain ⟨r₁, ls₁, r₂, ls₂, hread, hfinish, hsound, hspelled, htokens, hscanned⟩ :=
      hchart.reads_scan (fun id spec hs =>
        (Thorough.mk hchart hended hlone hunnamed hruns).lawful.takes hs) hchunk hdone
    have hroot := Reading.sound_root hchart 0 (q.reset 0).idle
    have hlive := Reading.live_root hchart hended none (q.reset 0).idle
    have hlive₁ := hlive.take hroot hchart hended hlone hread
    rw [htokens, ← hspelled]
    refine joined_listing 0 (List.forall_mem_append.2
      ⟨hlive.labelled_take hunnamed hchart hended hread,
        hlive₁.labelled_take hunnamed hchart hended hfinish⟩)
      fun opener interior terminator c tokens hl => ?_
    obtain ⟨id, p, scan, start, -, ⟨q, hq⟩, hd⟩ := hscanned _ hl
    obtain ⟨spec, hspec⟩ := Automaton.exists_of_inner hd
    rw [Automaton.inner_eq hspec] at hq hd
    have hjoined := ih spec (List.mem_of_getElem? hspec) hq hd
    rwa [String.toList_ofList] at hjoined

theorem Thorough.joined_tokenize {a : Automaton} (h : Thorough a) {x : String} {tokens : List Token}
    (hx : a.tokenize x = .ok tokens) : joined tokens = x.toList := by
  obtain ⟨s, found, s', found', hconsume, hflush, rfl⟩ := Automaton.exists_scan hx
  obtain ⟨⟨p, start⟩, hchunk, hconsume⟩ := bind_eq_ok.1 hconsume
  cases hconsume
  obtain ⟨⟨p', rest⟩, hdone, hflush⟩ := bind_eq_ok.1 hflush
  cases hflush
  exact h.joined_scan (q := .start a.runs.length) hchunk hdone

/-! ### Scanners -/

/-- An automaton and those of its interiors, at every depth. -/
inductive Automaton.Holds : Automaton → Automaton → Prop
  | self (a : Automaton) : a.Holds a
  | run {a b : Automaton} {run : NestedRun Automaton} (hrun : run ∈ a.runs)
      (h : run.automaton.Holds b) : a.Holds b

theorem Thorough.holds {a b : Automaton} (h : Thorough a) (hb : a.Holds b) : Thorough b := by
  induction hb with
  | self a => exact h
  | run hrun _ ih =>
    cases h with
    | mk _ _ _ _ hruns => exact ih (hruns _ hrun)

namespace Scanner

variable {τ : Type} {sink : Sink τ} {s s' : Scanner} {out out' : τ} {lexicon : Lexicon}
  {matchers : List (GreedyMatcher Compilation)} {place : NodeId → Locus}

/-- What is held when the end of input has been scanned. A flush passes over it. -/
def leftOpen (sink : Sink τ) (s : Scanner) (out : τ) : Except ScanFault String := do
  let stop := s.progress.buffer.utf8ByteSize
  let (p, _) ← s.automaton.step sink s.automaton.inner s.progress out .endOfInput stop stop
  return (← p.trim).buffer

/-- What is left open is what the end of input leaves pending. -/
theorem Reaches.leftOpen_eq {r : Reading} {position : Nat} (hs : s.Reaches place r position)
    (h : Charted lexicon matchers s.automaton place) (sink : Sink τ) (out : τ) :
    s.leftOpen sink out = (fun x : Reading × List Lexeme => String.ofList x.1.pending) <$>
      r.advance s.automaton s.automaton.inner .endOfInput := by
  have hstep := hs.sound.step_eq sink ⟨position, [], []⟩ s.automaton.inner h out .endOfInput
  rw [leftOpen, hs.progress, Reading.size_at]
  refine (congrArg (· >>= _)
    ((congrArg (fun n => s.automaton.step sink s.automaton.inner _ out _ n n) ?_).trans
      hstep)).trans ?_
  · exact (Nat.zero_add _).symm
  · cases r.advance s.automaton s.automaton.inner .endOfInput with
    | error e => rfl
    | ok x =>
      obtain ⟨r', ls⟩ := x
      change ((Window.after _ ls).progress r').trim >>= _ = _
      rw [Window.trim_eq _ rfl]
      refine congrArg Except.ok ?_
      rw [Reading.at, Window.progress, List.nil_append, List.append_nil]

/-- Wherever calls lead to, a flush leaves nothing open. -/
theorem leftOpen_of_performAll {a : Automaton} (h : Thorough a) {calls : List Call}
    (hs : (ofAutomaton a).performAll sink out calls = .ok (s, out')) :
    s.leftOpen sink out' = .ok "" := by
  have htakes (id : RunId) (spec : NestedRun Automaton) (hs : a.runs[id]? = some spec) :
      a.inner.Takes id := h.lawful.takes hs
  have hsafe (id : RunId) (spec : NestedRun Automaton) (hs : a.runs[id]? = some spec) :
      a.inner.IsSafe True id := h.lawful.isSafe_inner hs
  cases h with
  | @mk lexicon matchers a place hchart hended hlone _ _ =>
    have hpark (r : Reading) : r.park.Fed a.inner ∧ r.park.Live a place := by
      refine ⟨Reading.fed_of_run_eq_none ?_, Reading.live_park hchart hended r⟩
      rw [Reading.park]
      split <;> rfl
    obtain ⟨ha, r, position, hreach, hfed, hlive⟩ :=
      (reaches_ofAutomaton hchart).performAll_keeps hchart
        (fun r => r.Fed a.inner ∧ r.Live a place) hpark
      (fun hsound hr ht => ⟨(hsound.take_scanned htakes hr.1 hchart ht).1,
        hr.2.take hsound hchart hended hlone ht⟩)
      ⟨Reading.fed_of_run_eq_none rfl, Reading.live_root hchart hended none _⟩ hs
    obtain rfl : s.automaton = a := ha
    rw [hreach.leftOpen_eq hchart]
    obtain ⟨⟨r', ls⟩, hadvance⟩ := (hreach.sound.safe_advance htakes hsafe hfed hchart
      (fun _ => hlone) (fun _ => hlive.toSpelled) .endOfInput).exists trivial
    rw [hadvance, map_ok, hlive.pending_of_advance hchart hended hadvance]

end Scanner

/-- If unnamed delimiters are kept and points are lone, in a grammar and in its interiors, then the
tokens of every input put together are the input. At no depth does a flush find text that is left
open. -/
theorem Grammar.lossless {g : Grammar} {a : Automaton} (h : g.compile.result = .ok a)
    (hkeeps : g.KeepsAll) (hlone : g.LonePoint) :
    (∀ x : String, ∃ tokens, a.tokenize x = .ok tokens ∧
      String.join (tokens.map (·.value)) = x) ∧
    ∀ b, a.Holds b → ∀ {τ : Type} (sink : Sink τ) (calls : List Call) (s : Scanner) (out out' : τ),
      (Scanner.ofAutomaton b).performAll sink out calls = .ok (s, out') →
        s.leftOpen sink out' = .ok "" := by
  have hthorough := thorough_compile hkeeps hlone h
  refine ⟨fun x => ?_, fun b hb τ sink calls s out out' hs =>
    Scanner.leftOpen_of_performAll (hthorough.holds hb) hs⟩
  obtain ⟨tokens, htokens⟩ := hthorough.lawful.exists_tokenize x
  refine ⟨tokens, htokens, ?_⟩
  rw [← String.toList_inj, String.toList_join, List.flatMap_map]
  exact hthorough.joined_tokenize htokens

/-- A grammar that keeps its unnamed delimiters, also those inside of angle brackets. -/
def Grammar.verbatim : Grammar where
  delimiters := [.bare " "]
  includeUnnamedDelimiters := true
  greedyMatchers := [{
    kind := "bracketed", startsWith := "<", endsWith := some ">"
    subGrammar := some { delimiters := [.bare ","], includeUnnamedDelimiters := true } }]

/-- An input that ends inside a run. -/
theorem Grammar.lossless_verbatim : ∃ a, verbatim.compile.result = .ok a ∧
    (∃ tokens, a.tokenize "é <a,.5" = .ok tokens ∧
      String.join (tokens.map (·.value)) = "é <a,.5") ∧
    ∃ s tokens, (Scanner.ofAutomaton a).performAll .collect #[] [.consume "é <a,.5"] =
      .ok (s, tokens) ∧ s.leftOpen .collect tokens = .ok "" := by
  obtain ⟨a, s, tokens, ha, hs⟩ :=
    verbatim.exists_run [.consume "é <a,.5"] (by decide +kernel)
  have hkeeps : verbatim.KeepsAll := by
    refine .mk rfl fun m hm s hs => ?_
    obtain rfl := List.mem_singleton.1 hm
    obtain rfl := Option.some.inj hs
    exact .mk rfl fun m hm => absurd hm List.not_mem_nil
  have hlone : verbatim.LonePoint := by
    refine .mk (by decide) fun m hm s hs => ?_
    obtain rfl := List.mem_singleton.1 hm
    obtain rfl := Option.some.inj hs
    exact .mk (by decide) fun m hm => absurd hm List.not_mem_nil
  have h := lossless ha hkeeps hlone
  exact ⟨a, ha, h.1 _, s, tokens, hs, h.2 a (.self a) _ _ _ _ _ hs⟩

end TrieLexer
