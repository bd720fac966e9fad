import Mathlib.Data.List.Induction
import TrieLexer.Proofs.Clearing
import TrieLexer.Proofs.Renewal

/-!
# Resuming behind a lexeme

A scan that has given out a lexeme stands where a new scan of the text behind the lexeme would
stand. At a release and at the end of a literal or a run this is so because the walk is at the root.
At the end of an open-ended token the terminator has been taken again from the root without the
nodes on its way acting; a new scan lets them act, but in a plain grammar nothing happens there.

## Main definitions

* `Reading.Steady` — a scan that has come to its node without anything happening on the way.

## Main results

* `Reading.Steady.resume_read` — what follows a lexeme is read again by a new scan.
* `Automaton.resume_lexemes` — the lexemes behind a lexeme are those of the text behind it.
* `Grammar.resumption` — the tokens behind a token are those of the text behind it.
-/

namespace TrieLexer

open Text (byteLength)

variable {lexicon : Lexicon} {matchers : List (GreedyMatcher Compilation)} {a : Automaton}
  {place : NodeId → Locus} {inner : InnerScan} {ls front tail : List Lexeme} {l : Lexeme}

/-- An element of two lists in a row is in the first or in the second. -/
theorem split_append {α : Type} {xs ys front tail : List α} {x : α}
    (h : xs ++ ys = front ++ x :: tail) :
    (∃ rest, xs = front ++ x :: rest ∧ tail = rest ++ ys) ∨
      ∃ more, front = xs ++ more ∧ ys = more ++ x :: tail := by
  rcases List.append_eq_append_iff.1 h with ⟨more, hfront, hys⟩ | ⟨rest, hxs, htail⟩
  · exact .inr ⟨more, hfront, hys⟩
  · cases rest with
    | nil => exact .inr ⟨[], by simpa using hxs.symm, htail.symm⟩
    | cons y rest =>
      obtain ⟨rfl, rfl⟩ := List.cons_eq_cons.1 htail
      exact .inl ⟨rest, hxs, rfl⟩

/-! ### The walk -/

/-- The end of input ends a path by the spelling of the empty literal only. -/
theorem eq_nil_of_append_spelling_eq {literal : List Char} {path rest : List Symbol}
    (h : path ++ spelling literal = rest ++ [.endOfInput]) : literal = [] := by
  obtain ⟨spelled, s, hsnoc⟩ := (List.eq_nil_or_concat (spelling literal)).resolve_left
    (spelling_ne_nil _)
  rw [List.concat_eq_append] at hsnoc
  rw [hsnoc, ← List.append_assoc] at h
  rw [(List.append_inj' h rfl).2] at hsnoc
  exact eq_nil_of_spelling_eq hsnoc

/-- A release gives out the pending text. -/
theorem StateGraph.move_release {g : StateGraph} {c c' : Cursor} {s : Symbol}
    (hm : g.move c s = .ok (c', front ++ l :: tail)) :
    front = [] ∧ tail = [] ∧ l.text = c.pending := by
  rw [move] at hm
  split at hm
  · simp at hm
  · split at hm
    · obtain ⟨-, hl⟩ := Prod.mk.inj (Except.ok.inj hm)
      cases front with
      | nil =>
        obtain ⟨rfl, rfl⟩ := List.cons.inj hl
        exact ⟨rfl, rfl, rfl⟩
      | cons x front => simp at hl
    · cases hm

namespace Charted

/-- Where something happens at the end of input, the path ends with it. -/
theorem path_of_end (h : Charted lexicon matchers a place) {n m : NodeId}
    (hn : (a.behaviour n).action = .none) (hr : a.resolve n .endOfInput = .node m)
    (hm : (a.behaviour m).action ≠ .none) :
    ∃ path, (place m).path = path ++ [.endOfInput] := by
  have hpoint : place m ≠ ⟨.float, []⟩ := fun hfloat => hm (h.float hfloat)
  have horigin {o : Origin} {k : NodeId} (hk : place k = ⟨o, []⟩) :
      (a.behaviour k).action = .none := by
    by_cases hf : o = .float
    · exact h.float (hf ▸ hk)
    · exact h.action_eq_none (by rw [hk]) (by rw [hk]; exact hf)
  cases h.lands hr with
  | child hc =>
    rcases h.child hc with hd | ⟨-, -, hd⟩
    · obtain hdown | ⟨-, -, hdown⟩ := (place n).down_eq_or .endOfInput
      · exact ⟨_, congrArg Locus.path (hd.trans hdown)⟩
      · exact absurd (hd.trans hdown) hpoint
    · exact absurd hd hpoint
  | stay => exact absurd hn hm
  | origin ho => exact absurd (horigin ho) hm
  | below ho hroot hnumber hc =>
    rcases h.child hc with hd | ⟨-, hs, -⟩
    · rw [hd, Locus.down_of_origin_ne (by rw [ho]; exact hnumber)]
      exact ⟨_, rfl⟩
    · cases hs

theorem path_of_move_end (h : Charted lexicon matchers a place) {c c' : Cursor}
    (hc : (a.behaviour c.node).action = .none) (hm : a.move c .endOfInput = .ok (c', ls))
    (hb : (a.behaviour c'.node).action ≠ .none) :
    ∃ path, (place c'.node).path = path ++ [.endOfInput] := by
  rw [StateGraph.move] at hm
  split at hm
  · next hn =>
    cases hm
    exact h.path_of_end hc hn hb
  · split at hm
    · next hn =>
      cases hm
      exact h.path_of_end h.action_root hn hb
    · cases hm

end Charted

namespace Reading

variable {r r' : Reading} {idle : Array (Option Progress)} {slack : Nat}

/-! ### New scans -/

theorem enter_of_run_eq_none (h : (a.behaviour r.node).run = none) : r.enter a = .ok r := by
  rw [enter, h]
  split <;> trivial

theorem feed_of_run_eq_none (h : r.run = none) : r.feed inner = .ok r := by
  rw [feed, h]

/-- No run is opened on a path from the root. -/
theorem run_eq_none_of_follow? (h : Charted lexicon matchers a place) {k m : NodeId}
    {path : List Symbol} (hm : (place m).origin = .root) (hk : a.trie.follow? k path = some m) :
    (a.behaviour k).run = none := by
  cases hrun : (a.behaviour k).run with
  | none => rfl
  | some id =>
    obtain ⟨matcher, hplace⟩ := h.run hrun
    rw [h.place_follow? (by rw [hplace]; simp) hk, hplace, Locus.walk_of_origin_ne (by simp)] at hm
    cases hm

/-- A node at which a mark may end does not pass the mark over. -/
theorem act_of_endsMark (h : (a.behaviour r.node).action.EndsMark) :
    r.act a inner = r.settle a inner := by
  rw [act]
  rcases h with h | ⟨label, h⟩ <;> rw [h]

theorem settle_run_eq_none (h : (a.behaviour r.node).action.EndsMark) (hrun : r.run = none)
    (hs : r.settle a inner = .ok (r', ls)) : r'.run = none := by
  rw [settle] at hs
  rcases h with h | ⟨label, h⟩
  · rw [h] at hs
    cases hs
    exact hrun
  · rw [h] at hs
    cases hs
    exact hrun

/-- A symbol leads a scan without an open run along an edge. -/
theorem advance_of_child {n k : NodeId} {c : Char} {pending : List Char}
    (hc : a.trie.child? n (.char c) = some k) (hrun : (a.behaviour k).run = none)
    (hk : (a.behaviour k).action.EndsMark) :
    advance a inner { node := n, pending, idle } (.char c) =
      settle a inner { node := k, pending := pending ++ [c], idle } := by
  have hmove : a.move ⟨n, pending⟩ (.char c) = .ok (⟨k, pending ++ [c]⟩, []) := by
    rw [StateGraph.move, StateGraph.resolve_of_child hc]
    rfl
  rw [advance, hmove, ok_bind]
  change enter a { node := k, pending := pending ++ [c], idle } >>= _ = _
  rw [enter_of_run_eq_none hrun, ok_bind, act_of_endsMark hk]
  cases hs : settle a inner { node := k, pending := pending ++ [c], idle } with
  | error e => rfl
  | ok z =>
    obtain ⟨r', out⟩ := z
    change r'.feed inner >>= _ = _
    rw [feed_of_run_eq_none (settle_run_eq_none hk rfl hs)]
    rfl

/-- The last symbol of a text leads a new scan along an edge. -/
theorem read_concat_of_child {n k : NodeId} {c : Char} {text : List Char}
    (hn : read a inner { idle } text = .ok ({ node := n, pending := text, idle }, []))
    (hc : a.trie.child? n (.char c) = some k) (hrun : (a.behaviour k).run = none)
    (hk : (a.behaviour k).action.EndsMark) :
    read a inner { idle } (text ++ [c]) =
      settle a inner { node := k, pending := text ++ [c], idle } := by
  rw [read_append, hn, ok_bind]
  change read a inner { node := n, pending := text, idle } [c] >>= _ = _
  rw [read, advance_of_child hc hrun hk]
  cases settle a inner { node := k, pending := text ++ [c], idle } with
  | error e => rfl
  | ok z => simp [read, ok_bind, pure, Except.pure]

/-- A new scan goes along a way on which nothing happens. -/
theorem read_way (h : Charted lexicon matchers a place) {m k : NodeId} {text rest : List Char}
    (hm : a.Clear place m) (hplace : place m = ⟨.root, (text ++ rest).map .char⟩)
    (hrest : rest ≠ []) (hk : a.trie.follow? .root (text.map .char) = some k) :
    read a inner { idle } text = .ok ({ node := k, pending := text, idle }, []) := by
  induction text using List.reverseRecOn generalizing rest k with
  | nil =>
    cases hk
    rfl
  | append_singleton text c ih =>
    have hpath := hm.path
    rw [hplace, List.map_append, Trie.follow?_append] at hpath
    change (a.trie.follow? .root _ >>= _) = _ at hpath
    rw [hk] at hpath
    have hway : (place m).path = (text ++ [c]).map .char ++ rest.map .char := by
      rw [hplace, List.map_append]
    have hact : (a.behaviour k).action = .none :=
      hm.quiet hway (by simp) (by simpa using hrest) (by rw [hplace]; exact hk)
    rw [List.map_append, Trie.follow?_append] at hk
    obtain ⟨j, hj, hc⟩ := Option.bind_eq_some_iff.1 hk
    have hchild : a.trie.child? j (.char c) = some k := by simpa [Trie.follow?_cons] using hc
    rw [List.append_assoc] at hplace
    rw [read_concat_of_child (ih hplace (by simp) hj) hchild
      (run_eq_none_of_follow? h (by rw [hplace]) hpath) (.inl hact), settle, hact]

/-- A terminator on whose way nothing happens is read again like one symbol. -/
theorem read_mark (h : Charted lexicon matchers a place) {m : NodeId} {text : List Char}
    (hm : a.Clear place m) (hplace : place m = ⟨.root, text.map .char⟩)
    (hends : (a.behaviour m).action.EndsMark) :
    read a inner { idle } text = settle a inner { node := m, pending := text, idle } := by
  have hpath := hm.path
  rw [hplace] at hpath
  obtain rfl | ⟨text, c, rfl⟩ := text.eq_nil_or_concat
  · obtain rfl : m = .root := (Option.some.inj hpath).symm
    rw [settle, h.action_root]
    rfl
  · rw [List.concat_eq_append] at hplace hpath ⊢
    rw [List.map_append, Trie.follow?_append] at hpath
    obtain ⟨j, hj, hc⟩ := Option.bind_eq_some_iff.1 hpath
    have hchild : a.trie.child? j (.char c) = some m := by simpa [Trie.follow?_cons] using hc
    exact read_concat_of_child (read_way h hm hplace (by simp) hj) hchild
      (run_eq_none_of_follow? h (by rw [hplace]) (Trie.follow?_nil ..)) hends

/-! ### Scans that give out a lexeme -/

/-- A scan that has come to its node without anything happening on the way. -/
structure Steady (a : Automaton) (place : NodeId → Locus) (r : Reading) : Prop where
  sound : r.Sound a place 0
  isSpelled : r.Spelled a place
  clear : a.Clear place r.node

theorem steady_root (h : Charted lexicon matchers a place) (idle : Array (Option Progress)) :
    Reading.Steady a place { idle } :=
  ⟨sound_root h 0 idle, spelled_root h none idle, StateGraph.clear_origin (o := .root) h.place_root⟩

section Landed

variable (hr : r.Poised a place slack) (h : Charted lexicon matchers a place)

include hr h

/-- What a node does: nothing, it sends the walk back into an escaped run, or it gives out one
lexeme and sends the walk to the root. -/
theorem Poised.settle_cases (hs : r.settle a inner = .ok (r', ls)) :
    (ls = [] ∧ r' = r) ∨
      (∃ c, (a.behaviour r.node).action = .close c ∧ ls = [] ∧ r' = { r with node := c.body }) ∨
      ∃ l, ls = [l] ∧ r' = { idle := r'.idle } := by
  rw [Reading.settle] at hs
  split at hs
  · cases hs
    exact .inl ⟨rfl, rfl⟩
  · cases hs
    exact .inl ⟨rfl, rfl⟩
  · next hc =>
    cases hs
    exact .inr (.inr ⟨_, rfl, by rw [hr.run_eq_none_of_literal h hc]⟩)
  · next c hc =>
    rcases close_cases hs with ⟨-, rfl, rfl⟩ | ⟨-, hnone, rfl, rfl⟩ | ⟨-, _, _, _, -, -, hgive⟩
    · exact .inr (.inl ⟨c, hc, rfl, rfl⟩)
    · refine .inr (.inr ?_)
      cases hrun : r.run with
      | none => exact ⟨_, rfl, rfl⟩
      | some run => cases hnone.symm.trans (hr.nested_of_run h hrun hc).1
    · obtain ⟨_, _, _, _, _, -, -, -, rfl, rfl⟩ := exists_of_giveOut hgive
      exact .inr (.inr ⟨_, rfl, rfl⟩)

/-- A lexeme that a node gives out is the only one, and then the scan begins anew. -/
theorem Poised.settle_lexeme (hs : r.settle a inner = .ok (r', front ++ l :: tail)) :
    tail = [] ∧ r' = { idle := r'.idle } := by
  rcases hr.settle_cases h hs with ⟨hnil, -⟩ | ⟨c, -, hnil, -⟩ | ⟨x, hx, hidle⟩
  · simp at hnil
  · simp at hnil
  · refine ⟨?_, hidle⟩
    cases front with
    | nil => exact (List.cons.inj hx).2
    | cons y front => simp at hx

/-- When a node has acted, nothing happens on the way to the node of the walk. -/
theorem Poised.clear_settle (hclear : a.Clear place r.node)
    (hs : r.settle a inner = .ok (r', ls)) : a.Clear place r'.node := by
  rcases hr.settle_cases h hs with ⟨-, rfl⟩ | ⟨c, hc, -, rfl⟩ | ⟨x, -, hidle⟩
  · exact hclear
  · obtain ⟨b, m, nested, t, hk, hends⟩ := h.close_ends hc
    obtain rfl := hends.body
    exact StateGraph.clear_origin (o := .body c.body m nested) (h.body hk).1
  · rw [hidle]
    exact StateGraph.clear_origin (o := .root) h.place_root

end Landed

/-- The end of an open-ended token takes its terminator again from the root, on whose way nothing
happens. -/
theorem Poised.act_boundary (hr : r.Poised a place slack) (h : Charted lexicon matchers a place)
    (hres : a.Resumes place) (hspells : (place r.node).Spells r.pending)
    (hclear : a.Clear place r.node) {label : Label} {length : Nat}
    (hb : (a.behaviour r.node).action = .boundary label length)
    (hs : r.act a inner = .ok (r', ls)) :
      ∃ (before : List Char) (t : String) (m : NodeId) (out : List Lexeme),
      (∃ front, (place r.node).path = front ++ spelling t.toList) ∧
      cutBack length r.pending = .ok (before, t.toList) ∧
      (a.behaviour m).action.EndsMark ∧ a.Clear place m ∧
      place m = ⟨.root, t.toList.map .char⟩ ∧ ls = .plain before (some label) :: out ∧
      Reading.Poised a place slack { node := m, pending := t.toList, idle := r.idle } ∧
      Reading.settle a inner { node := m, pending := t.toList, idle := r.idle } =
        .ok (r', out) := by
  obtain ⟨t, m, hlength, ⟨front, hpath⟩, hfollow, hends, hm, hplace⟩ := hres.again hclear hb
  obtain ⟨before, -, hpending⟩ := hspells
  rw [hpath, pathText_append, pathText_spelling, ← List.append_assoc] at hpending
  have hretake : a.retake {} t.toList = .ok (⟨m, t.toList⟩, []) :=
    StateGraph.retake_of_follow? hfollow
  have hpoised := hr.retake h hb hretake
  have hrun := hr.run_eq_none (h.boundary_not_isBody hb)
  obtain ⟨c, run, idle⟩ := r
  obtain rfl : run = none := hrun
  have hcut := cutBack_eq_ok.2 ⟨hpending, hlength⟩
  rw [Reading.act] at hs
  simp only [hb, hcut, ok_bind, hretake] at hs
  obtain ⟨⟨r₁, out⟩, hsettle, hs⟩ := bind_eq_ok.1 hs
  cases hs
  exact ⟨_, t, m, out, ⟨front, hpath⟩, hcut, hends, hm, hplace, rfl, hpoised, hsettle⟩

/-- No run is open at a release, and the symbol is taken from the root. -/
theorem Sound.move_of_release (hr : r.Sound a place 0) (h : Charted lexicon matchers a place)
    {s : Symbol} {c : Cursor} (hm : a.move r.toCursor s = .ok (c, front ++ l :: tail)) :
    r.run = none ∧ a.move {} s = .ok (c, []) := by
  rw [StateGraph.move] at hm
  split at hm
  · simp at hm
  · next label hrelease =>
    split at hm
    · next n hn =>
      obtain ⟨rfl, -⟩ := Prod.mk.inj (Except.ok.inj hm)
      refine ⟨?_, by rw [StateGraph.move, hn]; rfl⟩
      cases hrun : r.run with
      | none => rfl
      | some run =>
        obtain ⟨b, m, path, hp⟩ := (hr.run hrun).region
        cases (congrArg Locus.origin hp).symm.trans (h.release hrelease).1
    · cases hm

section Resumes

variable (h : Charted lexicon matchers a place) (hlone : lexicon.LonePoint)
  (hres : a.Resumes place)

include h hres

theorem Poised.clear_act (hr : r.Poised a place slack) (hspells : (place r.node).Spells r.pending)
    (hclear : a.Clear place r.node) (hs : r.act a inner = .ok (r', ls)) :
    a.Clear place r'.node := by
  by_cases hb : ∃ label length, (a.behaviour r.node).action = .boundary label length
  · obtain ⟨label, length, hb⟩ := hb
    obtain ⟨before, t, m, out, -, -, -, hm, -, -, hpoised, hsettle⟩ :=
      hr.act_boundary h hres hspells hclear hb hs
    exact hpoised.clear_settle h hm hsettle
  · rw [Reading.act] at hs
    split at hs
    · next hb' => exact absurd ⟨_, _, hb'⟩ hb
    · exact hr.clear_settle h hclear hs

/-- What follows a lexeme that a node gives out is read again by a new scan. -/
theorem Poised.resume_act (hr : r.Poised a place slack)
    (hspells : (place r.node).Spells r.pending) (hclear : a.Clear place r.node)
    (hs : r.act a inner = .ok (r', front ++ l :: tail)) :
    r'.run = none ∧
      ∃ idle, read a inner { idle } (spelled tail ++ r'.pending) = .ok (r', tail) := by
  have hbegin {r' : Reading} (hidle : r' = { idle := r'.idle }) : r'.run = none ∧
      ∃ idle, read a inner { idle } (spelled [] ++ r'.pending) = .ok (r', []) := by
    rw [hidle]
    exact ⟨rfl, r'.idle, rfl⟩
  by_cases hb : ∃ label length, (a.behaviour r.node).action = .boundary label length
  · obtain ⟨label, length, hb⟩ := hb
    obtain ⟨before, t, m, out, -, -, hends, hm, hplace, hout, hpoised, hsettle⟩ :=
      hr.act_boundary h hres hspells hclear hb hs
    cases front with
    | nil =>
      obtain ⟨rfl, rfl⟩ := List.cons.inj hout
      refine ⟨settle_run_eq_none hends rfl hsettle, r.idle, ?_⟩
      rw [settle_spelled hsettle, read_mark h hm hplace hends, hsettle]
    | cons x front =>
      obtain ⟨rfl, rfl⟩ := List.cons.inj hout
      obtain ⟨rfl, hidle⟩ := hpoised.settle_lexeme h hsettle
      exact hbegin hidle
  · rw [Reading.act] at hs
    split at hs
    · next hb' => exact absurd ⟨_, _, hb'⟩ hb
    · obtain ⟨rfl, hidle⟩ := hr.settle_lexeme h hs
      exact hbegin hidle

omit hres in
/-- The walk goes on to a node on whose way nothing happens. -/
theorem Steady.clear_move (hr : r.Steady a place)
    (hfloat : ∀ k, place k = ⟨.float, []⟩ → k = .float) {s : Symbol} {c : Cursor}
    (hm : a.move r.toCursor s = .ok (c, ls)) : a.Clear place c.node := by
  rw [StateGraph.move] at hm
  split at hm
  · next hn =>
    cases hm
    exact h.clear_resolve hfloat hr.clear hr.isSpelled.rests hn
  · split at hm
    · next hn =>
      cases hm
      exact h.clear_resolve hfloat (StateGraph.clear_origin (o := .root) h.place_root)
        h.action_root hn
    · cases hm

include hlone

/-- A symbol leads a steady scan to a steady scan. -/
theorem Steady.advance (hr : r.Steady a place) {s : Symbol}
    (hs : r.advance a inner s = .ok (r', ls)) : r'.Steady a place := by
  refine ⟨hr.sound.advance h hs, (hr.isSpelled.advance hr.sound h hlone hs).1, ?_⟩
  obtain ⟨⟨c, released⟩, hm, hs⟩ := bind_eq_ok.1 hs
  obtain ⟨r₁, he, hs⟩ := bind_eq_ok.1 hs
  obtain ⟨⟨r₂, out⟩, ha, hs⟩ := bind_eq_ok.1 hs
  obtain ⟨r₃, hf, hs⟩ := bind_eq_ok.1 hs
  cases hs
  rw [feed_toCursor hf]
  refine (hr.sound.enter h hm he).clear_act h hres (hr.isSpelled.enter h hm he) ?_ ha
  rw [enter_toCursor he]
  exact hr.clear_move h (fun _ => hres.float) hm

omit hlone in
/-- What follows a lexeme that a symbol gives out is read again by a new scan. -/
theorem Steady.resume_advance (hr : r.Steady a place) {c : Char}
    (hs : r.advance a inner (.char c) = .ok (r', front ++ l :: tail)) :
    ∃ idle, read a inner { idle } (spelled tail ++ r'.pending) = .ok (r', tail) := by
  have hspelled := advance_spelled hs
  obtain ⟨⟨cursor, released⟩, hm, hs⟩ := bind_eq_ok.1 hs
  obtain ⟨r₁, he, hs⟩ := bind_eq_ok.1 hs
  obtain ⟨⟨r₂, out⟩, ha, hs⟩ := bind_eq_ok.1 hs
  obtain ⟨r₃, hf, hs⟩ := bind_eq_ok.1 hs
  obtain ⟨rfl, hout⟩ := Prod.mk.inj (Except.ok.inj hs)
  rcases split_append hout with ⟨rest, rfl, rfl⟩ | ⟨more, rfl, rfl⟩
  · -- The lexeme is released, and the symbol is read from the root.
    obtain ⟨rfl, rfl, htext⟩ := StateGraph.move_release hm
    obtain ⟨hrun, hmove⟩ := hr.sound.move_of_release h hm
    obtain ⟨old, run, idle⟩ := r
    obtain rfl : run = none := hrun
    have hadvance : Reading.advance a inner { idle } (.char c) = .ok (r₃, out) := by
      simp only [Reading.advance, hmove, ok_bind, he, ha, hf]
      rfl
    have htail : spelled ([] ++ out) ++ r₃.pending = [c] := by
      rw [List.nil_append, spelled_cons, htext, List.append_assoc] at hspelled
      exact List.append_cancel_left hspelled
    refine ⟨idle, ?_⟩
    rw [htail, Reading.read, hadvance]
    simp [Reading.read, ok_bind, pure, Except.pure]
  · have hclear : a.Clear place r₁.node := by
      rw [enter_toCursor he]
      exact hr.clear_move h (fun _ => hres.float) hm
    obtain ⟨hrun, hresume⟩ := (hr.sound.enter h hm he).resume_act h hres
      (hr.isSpelled.enter h hm he) hclear ha
    rw [feed_of_run_eq_none hrun] at hf
    cases hf
    exact hresume

/-- What follows a lexeme that a text gives out is read again by a new scan. -/
theorem Steady.resume_read (hr : r.Steady a place) {text : List Char}
    (hs : r.read a inner text = .ok (r', front ++ l :: tail)) :
    ∃ idle, read a inner { idle } (spelled tail ++ r'.pending) = .ok (r', tail) := by
  induction text generalizing r front with
  | nil => simp [Reading.read] at hs
  | cons c text ih =>
    obtain ⟨⟨r₁, out⟩, ha, hs⟩ := bind_eq_ok.1 hs
    obtain ⟨⟨r₂, outs⟩, hread, hs⟩ := bind_eq_ok.1 hs
    obtain ⟨rfl, hout⟩ := Prod.mk.inj (Except.ok.inj hs)
    rcases split_append hout with ⟨rest, rfl, rfl⟩ | ⟨more, rfl, rfl⟩
    · obtain ⟨idle, hresume⟩ := hr.resume_advance h hres ha
      refine ⟨idle, ?_⟩
      rw [spelled_append, List.append_assoc, read_spelled hread, ← List.append_assoc, read_append,
        hresume, ok_bind]
      change r₁.read a inner text >>= _ = _
      rw [hread]
      rfl
    · exact ih (hr.advance h hlone hres ha) hread

theorem Steady.read (hr : r.Steady a place) {text : List Char}
    (hs : r.read a inner text = .ok (r', ls)) : r'.Steady a place := by
  induction text generalizing r ls with
  | nil =>
    cases hs
    exact hr
  | cons c text ih =>
    obtain ⟨⟨r₁, out⟩, ha, hs⟩ := bind_eq_ok.1 hs
    obtain ⟨⟨r₂, outs⟩, hread, hs⟩ := bind_eq_ok.1 hs
    cases hs
    exact ih (hr.advance h hlone hres ha) hread

end Resumes

/-- Nothing follows a lexeme that the end of input gives out. -/
theorem Steady.resume_end (hr : r.Steady a place) (h : Charted lexicon matchers a place)
    (hres : a.Resumes place)
    (hs : r.advance a inner .endOfInput = .ok (r', front ++ l :: tail)) :
    spelled tail ++ r'.pending = [] := by
  have hspelled := advance_spelled hs
  obtain ⟨⟨cursor, released⟩, hm, hs⟩ := bind_eq_ok.1 hs
  obtain ⟨r₁, he, hs⟩ := bind_eq_ok.1 hs
  obtain ⟨⟨r₂, out⟩, ha, hs⟩ := bind_eq_ok.1 hs
  obtain ⟨r₃, hf, hs⟩ := bind_eq_ok.1 hs
  obtain ⟨rfl, hout⟩ := Prod.mk.inj (Except.ok.inj hs)
  rcases split_append hout with ⟨rest, rfl, rfl⟩ | ⟨more, rfl, rfl⟩
  · obtain ⟨rfl, rfl, htext⟩ := StateGraph.move_release hm
    rw [List.nil_append, spelled_cons, htext] at hspelled
    simpa [Symbol.text] using hspelled
  · rw [feed_toCursor hf]
    have hcursor : r₁.toCursor = cursor := enter_toCursor he
    have hclear : a.Clear place r₁.node := by
      rw [hcursor]
      exact hr.clear_move h (fun _ => hres.float) hm
    have hpoised := hr.sound.enter h hm he
    have hspells := hr.isSpelled.enter h hm he
    by_cases hb : ∃ label length, (a.behaviour r₁.node).action = .boundary label length
    · obtain ⟨label, length, hb⟩ := hb
      obtain ⟨before, t, m, out, ⟨path, hpath⟩, -, -, -, -, hls, hlanded, hsettle⟩ :=
        hpoised.act_boundary h hres hspells hclear hb ha
      have hacts : (a.behaviour cursor.node).action ≠ .none := by
        rw [← hcursor, hb]
        simp
      obtain ⟨path', hpath'⟩ := h.path_of_move_end hr.isSpelled.rests hm hacts
      rw [← hcursor, hpath] at hpath'
      have hout := settle_spelled hsettle
      rw [eq_nil_of_append_spelling_eq hpath'] at hout
      cases more with
      | nil =>
        obtain ⟨-, rfl⟩ := List.cons.inj hls
        exact hout
      | cons x more =>
        obtain ⟨-, rfl⟩ := List.cons.inj hls
        have hnil : spelled more ++ (l.text ++ spelled tail) ++ r₂.pending = [] := by
          rwa [← spelled_cons, ← spelled_append]
        simp only [List.append_eq_nil_iff] at hnil ⊢
        exact ⟨hnil.1.2.2, hnil.2⟩
    · rw [act] at ha
      split at ha
      · next hb' => exact absurd ⟨_, _, hb'⟩ hb
      · obtain ⟨rfl, hidle⟩ := hpoised.settle_lexeme h ha
        rw [hidle]
        rfl

end Reading

/-! ### Lexemes -/

section Lawful

variable {clean : Prop} (h : Charted lexicon matchers a place) (hlawful : Lawful clean a)

include h hlawful

/-- The lexemes behind a lexeme are those of the text behind it, if there is any. -/
theorem Automaton.resume_lexemes (hlone : lexicon.LonePoint) (hres : a.Resumes place) {x : String}
    {back : List Lexeme} (hx : a.lexemes x = .ok (front ++ l :: back)) :
    spelled back = [] ∨ a.lexemes (String.ofList (spelled back)) = .ok back := by
  have htakes : ∀ id spec, a.runs[id]? = some spec → a.inner.Takes id := fun _ _ => hlawful.takes
  have hforgets : ∀ id spec, a.runs[id]? = some spec → a.inner.Forgets id :=
    fun _ _ => hlawful.forgets
  have hsteady (idle : Array (Option Progress)) := Reading.steady_root h idle
  have hbegin (idle : Array (Option Progress)) : Reading.Fed a.inner { idle } :=
    Reading.fed_of_run_eq_none rfl
  obtain ⟨⟨r₁, ls⟩, hread, hx⟩ := bind_eq_ok.1 hx
  obtain ⟨⟨r₂, ms⟩, hfinish, hx⟩ := bind_eq_ok.1 hx
  have hout : ls ++ ms = front ++ l :: back := Except.ok.inj hx
  rcases split_append hout with ⟨rest, rfl, rfl⟩ | ⟨more, rfl, rfl⟩
  · refine .inr ?_
    obtain ⟨idle, hresume⟩ := (hsteady _).resume_read h hlone hres hread
    obtain ⟨hspelled, -⟩ := Reading.finish_spelled hfinish
    have hread' : Reading.take a a.inner { idle }
        (.chunk (String.ofList (spelled (rest ++ ms)))) = .ok (r₁, rest) := by
      rw [Reading.take, String.toList_ofList, spelled_append, hspelled, hresume]
    have hroot : Reading.Alike { idle } { idle := Array.replicate a.runs.length none } :=
      Reading.alike_of_run_eq_none rfl rfl rfl
    obtain ⟨r₁', htake, hal⟩ := hroot.take htakes hforgets (hsteady _).sound (hsteady _).sound h
      (hbegin _) (hbegin _) hread'
    have hsound := (hsteady idle).sound.take h hread'
    obtain ⟨r₂', hfinish', -⟩ := hal.take htakes hforgets hsound ((hsteady _).sound.take h htake) h
      ((hsteady _).sound.take_scanned htakes (hbegin _) h hread').1
      ((hsteady _).sound.take_scanned htakes (hbegin _) h htake).1 hfinish
    rw [Automaton.lexemes, htake, ok_bind]
    change r₁'.take a a.inner .done >>= _ = _
    rw [hfinish']
    rfl
  · refine .inl ?_
    obtain ⟨⟨r₃, out⟩, hend, hfinish⟩ := bind_eq_ok.1 hfinish
    obtain ⟨-, hms⟩ := Prod.mk.inj (Except.ok.inj hfinish)
    rcases split_append hms with ⟨rest, rfl, rfl⟩ | ⟨more', rfl, hlast⟩
    · rw [spelled_append, spelled_cons, spelled_nil, List.append_nil]
      exact ((hsteady _).read h hlone hres hread).resume_end h hres hend
    · cases more' with
      | nil =>
        obtain ⟨-, rfl⟩ := List.cons.inj hlast
        rfl
      | cons y more' => simp at hlast

omit hlawful in
/-- Lexemes spell the input, and the tokens of nested runs are those of their interiors. -/
theorem Charted.scanned_lexemes (htakes : ∀ id spec, a.runs[id]? = some spec → a.inner.Takes id)
    {x : String} (hx : a.lexemes x = .ok ls) :
    spelled ls = x.toList ∧ ∀ l ∈ ls, l.Scanned a.inner := by
  refine ⟨Automaton.spelled_lexemes hx, ?_⟩
  obtain ⟨⟨r₁, ls₁⟩, hread, hx⟩ := bind_eq_ok.1 hx
  obtain ⟨⟨r₂, ls₂⟩, hfinish, hx⟩ := bind_eq_ok.1 hx
  cases hx
  have hsound := Reading.sound_root h 0 (Array.replicate a.runs.length none)
  obtain ⟨hfed, hscanned⟩ :=
    hsound.take_scanned htakes (Reading.fed_of_run_eq_none rfl) h hread
  exact List.forall_mem_append.2
    ⟨hscanned, ((hsound.take h hread).take_scanned htakes hfed h hfinish).2⟩

omit h in
/-- The tokens of lexemes lie in their text. -/
theorem Lawful.cut_spelled (hls : ∀ l ∈ ls, l.Scanned a.inner) (position : Nat) :
    Cut position (spelled ls) (listing position ls) := by
  refine cut_listing position fun opener interior terminator c tokens hl => ?_
  obtain ⟨id, p, scan, begun, -, ⟨q, hq⟩, hd⟩ := hls _ hl
  obtain ⟨spec, hspec⟩ := Automaton.exists_of_inner hd
  rw [Automaton.inner_eq hspec] at hq hd
  cases hlawful with
  | mk _ _ hruns =>
    have hinner := (hruns spec (List.mem_of_getElem? hspec)).cut_scan hq hd
    rwa [String.toList_ofList] at hinner

end Lawful

theorem Cut.eq_nil {position : Nat} {tokens : List Token} (h : Cut position [] tokens) :
    tokens = [] := by
  cases tokens with
  | nil => rfl
  | cons t tokens =>
    obtain ⟨hne, before, after, hnil, -⟩ := h.mem List.mem_cons_self
    obtain ⟨hfront, -⟩ := List.append_eq_nil_iff.1 hnil.symm
    exact absurd (String.toList_eq_nil_iff.1 (List.append_eq_nil_iff.1 hfront).2) hne

/-- The tokens behind a lexeme are those of the text behind it. -/
theorem Charted.resume_tokens (h : Charted lexicon matchers a place) (hlawful : Lawful True a)
    (hlone : lexicon.LonePoint) (hres : a.Resumes place) {x : String} {back : List Lexeme}
    (hx : a.lexemes x = .ok (front ++ l :: back)) {position : Nat}
    (hp : position = byteLength (spelled (front ++ [l]))) :
    ∃ rest, Text.span? x position x.utf8ByteSize = some rest ∧
      ∃ tokens, a.tokenize rest = .ok tokens ∧
        tokens.map (·.shifted position) = listing position back := by
  have htakes : ∀ id spec, a.runs[id]? = some spec → a.inner.Takes id := fun _ _ => hlawful.takes
  obtain ⟨hspelled, hall⟩ := h.scanned_lexemes htakes hx
  obtain ⟨tokens, htokens⟩ := hlawful.exists_tokenize (String.ofList (spelled back))
  refine ⟨String.ofList (spelled back), ?_, tokens, htokens, ?_⟩
  · refine Text.span?_eq_some_iff.2 ⟨String.ofList (spelled (front ++ [l])), "", ?_, ?_, ?_⟩
    · rw [← String.toList_inj, ← hspelled]
      simp
    · rw [Text.utf8ByteSize_eq, String.toList_ofList, hp]
    · rw [Text.utf8ByteSize_eq, Text.utf8ByteSize_eq, String.toList_ofList, ← hspelled, hp]
      simp [Nat.add_assoc]
  obtain ⟨ls, hls, rfl⟩ := h.exists_lexemes htokens
  rcases Automaton.resume_lexemes h hlawful hlone hres hx with hnil | hback
  · obtain ⟨hempty, hscanned⟩ := h.scanned_lexemes htakes hls
    have hcut := hlawful.cut_spelled hscanned 0
    have hrest := hlawful.cut_spelled
      (fun l hl => hall l (List.mem_append_right _ (List.mem_cons_of_mem _ hl))) position
    rw [hempty, String.toList_ofList, hnil] at hcut
    rw [hnil] at hrest
    rw [hcut.eq_nil, hrest.eq_nil, List.map_nil]
  · cases hls.symm.trans hback
    rw [listing_shifted, Nat.zero_add]

/-! ### Tokens -/

/-- Every token is one of a lexeme, with the tokens before and behind it. -/
theorem split_listing {position : Nat} {before after : List Token} {t : Token}
    (h : listing position ls = before ++ t :: after) : ∃ front l back u v,
      ls = front ++ l :: back ∧ l.tokens (position + byteLength (spelled front)) = u ++ t :: v ∧
      before = listing position front ++ u ∧
      after = v ++ listing (position + byteLength (spelled (front ++ [l]))) back := by
  induction ls generalizing position before with
  | nil => simp at h
  | cons l ls ih =>
    rw [listing_cons] at h
    rcases split_append h with ⟨v, hl, rfl⟩ | ⟨more, rfl, hmore⟩
    · exact ⟨[], l, ls, before, v, rfl, hl, rfl, by simp⟩
    · obtain ⟨front, x, back, u, v, rfl, hx, rfl, rfl⟩ := ih hmore
      refine ⟨l :: front, x, back, u, v, rfl, ?_, by simp, ?_⟩
      · rwa [spelled_cons, Text.byteLength_append, ← Nat.add_assoc]
      · rw [List.cons_append, spelled_cons, Text.byteLength_append, ← Nat.add_assoc]

theorem tokenAt_eq {position : Nat} {text : List Char} {label : Option Label} {u v : List Token}
    {t : Token} (h : tokenAt position text label = u ++ t :: v) :
    u = [] ∧ v = [] ∧ t.stop = position + byteLength text := by
  cases label with
  | none => simp [tokenAt] at h
  | some kind =>
    rw [tokenAt] at h
    split at h
    · simp at h
    · cases u with
      | nil =>
        obtain ⟨rfl, rfl⟩ := List.cons.inj h
        exact ⟨rfl, rfl, by rw [Token.stop, String.toList_ofList]⟩
      | cons x u => simp at h

/-- In a plain grammar without interiors the tokens behind a token are those of the text behind
it. -/
theorem Grammar.resumption {g : Grammar} {a : Automaton} (h : g.compile.result = .ok a)
    (hflat : ∀ m ∈ g.greedyMatchers, m.subGrammar = none)
    (hplain : g.toLexicon.IsPlain g.greedyMatchers) (input : String) :
    ∃ tokens, a.tokenize input = .ok tokens ∧
      ∀ before t after, tokens = before ++ t :: after → ∃ rest,
        Text.span? input t.stop input.utf8ByteSize = some rest ∧
        ∃ tokens', a.tokenize rest = .ok tokens' ∧ tokens'.map (·.shifted t.stop) = after := by
  obtain ⟨place, hchart, hres⟩ := resumes_compile h hplain
  have hlone := hplain.lonePoint
  have hlawful : Lawful True a := g.lawful_compile
    (fun _ => .mk hlone fun m hm s hs => nomatch (hflat m hm).symm.trans hs) h
  have htakes : ∀ id spec, a.runs[id]? = some spec → a.inner.Takes id := fun _ _ => hlawful.takes
  obtain ⟨tokens, htokens⟩ := hlawful.exists_tokenize input
  refine ⟨tokens, htokens, fun before t after ht => ?_⟩
  obtain ⟨ls, hls, rfl⟩ := hchart.exists_lexemes htokens
  obtain ⟨front, l, back, u, v, rfl, hl, -, rfl⟩ := split_listing ht
  obtain ⟨-, hscanned⟩ := hchart.scanned_lexemes htakes hls
  obtain ⟨rfl, hstop⟩ : v = [] ∧ t.stop = byteLength (spelled (front ++ [l])) := by
    have hposition : byteLength (spelled (front ++ [l])) =
        0 + byteLength (spelled front) + byteLength l.text := by simp
    rw [hposition]
    cases l with
    | plain text label => exact (tokenAt_eq hl).2
    | whole text c =>
      rw [Lexeme.tokens] at hl
      exact (tokenAt_eq hl).2
    | nested opener interior terminator c tokens =>
      obtain ⟨id, p, scan, begun, -, -, hdone⟩ :=
        hscanned _ (List.mem_append_right _ List.mem_cons_self)
      obtain ⟨run, hrun⟩ := Automaton.exists_of_inner hdone
      obtain ⟨m, hm, c, hc, -⟩ := hchart.runs (List.mem_of_getElem? hrun)
      obtain ⟨x, hx, -, -, -, -, -, hsub⟩ := exists_of_mem_compileMatchers hm
      rw [hsub, hflat x hx] at hc
      cases hc
  rw [Nat.zero_add, ← hstop, List.nil_append]
  exact hchart.resume_tokens hlawful hlone hres hls hstop

/-- A plain grammar whose marks share their beginnings. -/
def Grammar.sharing : Grammar where
  keywords := [.named "loop" (.many ["for", "fore"])]
  punctuation := [.bare "<", .bare "<--"]
  delimiters := [.named "space" (.many [" ", "/"]), .bare "//+"]
  greedyMatchers := [{ kind := "raw", startsWith := "r" },
    { kind := "text", startsWith := "<'", endsWith := some "'", escapesWith := some "\\" }]

theorem Grammar.resumption_sharing : ∃ a, sharing.compile.result = .ok a ∧
    ∃ tokens, a.tokenize "fore<-é for//+<'\\'<'/rx//" = .ok tokens ∧
      ∀ before t after, tokens = before ++ t :: after → ∃ rest,
        Text.span? "fore<-é for//+<'\\'<'/rx//" t.stop
          "fore<-é for//+<'\\'<'/rx//".utf8ByteSize = some rest ∧
        ∃ tokens', a.tokenize rest = .ok tokens' ∧ tokens'.map (·.shifted t.stop) = after := by
  obtain ⟨a, -, -, ha, -⟩ := sharing.exists_run [] (by decide +kernel)
  exact ⟨a, ha, resumption ha (by decide) (by decide) _⟩

end TrieLexer
