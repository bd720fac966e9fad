import TrieLexer.Proofs.Bodies
import TrieLexer.Proofs.Fidelity
import TrieLexer.Proofs.Endings
import TrieLexer.Proofs.Seeking

/-!
# Runs to their terminators

A run without escapes, halt marker and interior grammar goes on until it has found its terminator.
It looks for it as `seek` does: along the path from its body, and from the body again when a
character leads off the path. So a steady terminator ends the run where it occurs first, and at the
end of input the run is given out as halted.

## Main definitions

* `corridor` — what a terminator and the end of input leave below the body of a run.
* `StateGraph.Lane` — the body of a run that only its terminator ends.
* `Reading.Seeks` — a scan inside such a run.
* `Grammar.Stands` — a scanner that stands on the opener of a run.
* `Grammar.Inside` — a scanner that is about to read its interior.

## Main results

* `Reading.Seeks.read`, `Reading.Seeks.read_close`, `Reading.Seeks.finish` — the run goes on, ends,
  and is halted.
* `Grammar.terminating` — a run ends at the first occurrence of a steady terminator.
* `Grammar.missing` — a terminator that is not steady is missed somewhere.
* `Grammar.tokenize_tripled` — a longer opener that breaks off hides the terminator of a run.
-/

namespace TrieLexer

open Text (byteLength)

/-! ### The path of a terminator -/

/-- What the terminator and the end of input leave below the body of a run. -/
def corridor (b : NodeId) (t : List Char) (close halted : Close) (q : List Symbol) : Option Face :=
  if q = [.endOfInput] then some (.closed halted)
  else if q = t.map .char then some (.closed close)
  else if q = [] then some {}
  else if q <+: t.map .char then some { fallback := .reroute b }
  else none

theorem imprint_eq_corridor {terminator : String} (ht : terminator ≠ "") (close halted : Close)
    (b : NodeId) (q : List Symbol) :
    imprint [(terminator, close), ("", halted)] b q (vacant q) =
      corridor b terminator.toList close halted q := by
  have hspelling : spelling terminator.toList = terminator.toList.map .char := by
    rw [spelling, if_neg]
    rw [List.isEmpty_iff]
    exact mt String.toList_eq_nil_iff.1 ht
  change stamp [.endOfInput] _ _ q (stamp (spelling terminator.toList) _ _ q (vacant q)) = _
  have hshort (hend : q ≠ [.endOfInput]) : ¬(q ≠ [] ∧ q <+: [Symbol.endOfInput]) := by
    rintro ⟨hne, hprefix⟩
    rcases List.prefix_cons_iff.1 hprefix with hnil | ⟨rest, rfl, hrest⟩
    · exact hne hnil
    · exact hend (by rw [List.prefix_nil.1 hrest])
  rw [hspelling, stamp, stamp, corridor, vacant]
  by_cases hend : q = [.endOfInput]
  · rw [if_pos hend, if_pos hend]
  · rw [if_neg hend, if_neg (hshort hend), if_neg hend]
    split
    · rfl
    · by_cases hnil : q = []
      · rw [if_neg fun h => h.1 hnil, if_pos hnil, if_pos hnil]
      · simp only [hnil, ne_eq, not_false_eq_true, true_and, if_false]
        rfl

section

variable {b : NodeId} {t : List Char} {close halted : Close} {k : Nat} {s : Symbol}

theorem map_char_ne_stop (cs : List Char) : cs.map Symbol.char ≠ [.endOfInput] := by
  cases cs <;> simp

theorem corridor_stop : corridor b t close halted [.endOfInput] = some (.closed halted) :=
  if_pos rfl

theorem corridor_last : corridor b t close halted (t.map .char) = some (.closed close) := by
  rw [corridor, if_neg (map_char_ne_stop t), if_pos rfl]

theorem corridor_nil (ht : t ≠ []) : corridor b t close halted [] = some {} := by
  rw [corridor, if_neg (List.cons_ne_nil _ _).symm, if_neg (by simpa using ht.symm), if_pos rfl]

theorem length_take_map (hk : k ≤ t.length) : ((t.take k).map Symbol.char).length = k := by
  rw [List.length_map, List.length_take_of_le hk]

theorem corridor_way (hk : k < t.length) (hpos : 0 < k) :
    corridor b t close halted ((t.take k).map .char) = some { fallback := .reroute b } := by
  have hlength := length_take_map (Nat.le_of_lt hk)
  rw [corridor, if_neg (map_char_ne_stop _), if_neg, if_neg, if_pos ((List.take_prefix _ _).map _)]
  · exact List.ne_nil_of_length_pos (hlength.symm ▸ hpos)
  · intro heq
    rw [heq, List.length_map] at hlength
    exact Nat.ne_of_gt hk hlength

/-- Nothing stands beside the path. -/
theorem corridor_off (hk : k < t.length) (hs : ∀ c, s = .char c → t[k]? ≠ some c)
    (hstop : s = .endOfInput → 0 < k) :
    corridor b t close halted ((t.take k).map .char ++ [s]) = none := by
  have hlength := length_take_map (Nat.le_of_lt hk)
  have hprefix : ¬(t.take k).map Symbol.char ++ [s] <+: t.map .char := by
    intro hprefix
    have hget := List.prefix_iff_getElem?.1 hprefix k
      (by rw [List.length_append, hlength]; exact Nat.lt_succ_self k)
    rw [List.getElem?_map, List.getElem_append_right (Nat.le_of_eq hlength)] at hget
    obtain ⟨c, hc, hsc⟩ := Option.map_eq_some_iff.1 hget
    exact hs c (by simpa using hsc.symm) hc
  have hstop : (t.take k).map Symbol.char ++ [s] ≠ [.endOfInput] := by
    intro heq
    obtain ⟨hnil, hs⟩ := List.append_inj' (show _ ++ [s] = [] ++ [Symbol.endOfInput] from heq) rfl
    rw [hnil] at hlength
    exact Nat.lt_irrefl 0 (lt_of_lt_of_eq (hstop (List.head_eq_of_cons_eq hs)) hlength.symm)
  rw [corridor, if_neg hstop, if_neg fun heq => hprefix ?_, if_neg (by simp), if_neg hprefix]
  rw [heq]

end

namespace StateGraph

variable {g : StateGraph} {b n : NodeId} {t : List Char} {close halted : Close} {k : Nat}

/-- The node behind so many characters of a terminator. -/
def along (g : StateGraph) (b : NodeId) (t : List Char) (k : Nat) : NodeId :=
  (g.trie.follow? b ((t.take k).map .char)).getD b

theorem Shelves.follow?_along (h : g.Shelves b (corridor b t close halted)) (ht : t ≠ [])
    (hk : k ≤ t.length) : g.trie.follow? b ((t.take k).map .char) = some (g.along b t k) := by
  have hthere : ∃ face, corridor b t close halted ((t.take k).map .char) = some face := by
    rcases Nat.lt_or_eq_of_le hk with hlt | rfl
    · rcases Nat.eq_zero_or_pos k with rfl | hpos
      · exact ⟨_, corridor_nil ht⟩
      · exact ⟨_, corridor_way hlt hpos⟩
    · rw [List.take_length]
      exact ⟨_, corridor_last⟩
  obtain ⟨face, hface⟩ := hthere
  obtain ⟨n, hn, -⟩ := h.there hface
  rw [along, hn]
  rfl

/-- What stands behind a part of the terminator. -/
theorem Shelves.along (h : g.Shelves b (corridor b t close halted)) (ht : t ≠ [])
    (hk : k ≤ t.length) {face : Face}
    (hface : corridor b t close halted ((t.take k).map .char) = some face) :
    (g.behaviour (g.along b t k)).fallback = face.fallback ∧
      (g.behaviour (g.along b t k)).action = face.action := by
  obtain ⟨n, hn, hn'⟩ := h.there hface
  cases (h.follow?_along ht hk).symm.trans hn
  exact hn'

theorem Shelves.child?_along (h : g.Shelves b (corridor b t close halted)) (ht : t ≠ [])
    (hk : k ≤ t.length) (s : Symbol) :
    g.trie.child? (g.along b t k) s = g.trie.follow? b ((t.take k).map .char ++ [s]) := by
  rw [Trie.follow?_concat, h.follow?_along ht hk]
  rfl

/-- Along the terminator its characters lead on. -/
theorem Shelves.child?_char (h : g.Shelves b (corridor b t close halted)) (ht : t ≠ [])
    (hk : k < t.length) (c : Char) : g.trie.child? (g.along b t k) (.char c) =
      if t[k]? = some c then some (g.along b t (k + 1)) else none := by
  rw [h.child?_along ht (Nat.le_of_lt hk)]
  split
  · next hc =>
    obtain ⟨hlt, rfl⟩ := List.getElem?_eq_some_iff.1 hc
    rw [← h.follow?_along ht hk, List.take_succ_eq_append_getElem hlt, List.map_append]
    rfl
  · next hc => exact h.absent (corridor_off hk (fun c' hc' => Symbol.char.inj hc' ▸ hc) nofun)

/-- The end of input leads on from the body only. -/
theorem Shelves.child?_stop (h : g.Shelves b (corridor b t close halted)) (ht : t ≠ [])
    (hk : k < t.length) (hpos : 0 < k) : g.trie.child? (g.along b t k) .endOfInput = none := by
  rw [h.child?_along ht (Nat.le_of_lt hk)]
  exact h.absent (corridor_off hk nofun fun _ => hpos)

theorem along_zero (g : StateGraph) (b : NodeId) (t : List Char) : g.along b t 0 = b := rfl

/-- Where the search for a terminator stands: behind a part of the terminator, or on an opener that
leads into the body. -/
def Seeks (g : StateGraph) (b : NodeId) (t : List Char) (k : Nat) (n : NodeId) : Prop :=
  n = g.along b t k ∨ k = 0 ∧ g.trie.edges n = [] ∧ (g.behaviour n).fallback = .reroute b

/-- A character leads from the body to the first character of the terminator or back. -/
theorem Shelves.resolveWithin_body (h : g.Shelves b (corridor b t close halted)) (ht : t ≠ [])
    (hops : Nat) (c : Char) :
    g.resolveWithin hops b (.char c) = .node (g.along b t (if t[0]? = some c then 1 else 0)) := by
  have hchild := h.child?_char ht (List.length_pos_iff.2 ht) c
  obtain ⟨hstay, -⟩ := h.along ht (Nat.zero_le _) (corridor_nil ht)
  rw [along_zero] at hchild hstay
  rw [resolveWithin, hchild, hstay]
  by_cases hc : t[0]? = some c
  · rw [if_pos hc, if_pos hc]
  · rw [if_neg hc, if_neg hc]
    rfl

theorem Shelves.exists_stop (h : g.Shelves b (corridor b t close halted)) : ∃ z,
    g.trie.child? b .endOfInput = some z ∧ (g.behaviour z).action = .close halted := by
  obtain ⟨z, hz, -, haction⟩ := h.there corridor_stop
  rw [Trie.follow?_cons] at hz
  obtain ⟨z', hz', hzz⟩ := Option.bind_eq_some_iff.1 hz
  cases hzz
  exact ⟨z, hz', haction⟩

theorem Shelves.exists_size (h : g.Shelves b (corridor b t close halted)) :
    ∃ hops, g.trie.size = hops + 1 := by
  obtain ⟨z, hz, -⟩ := h.exists_stop
  exact Nat.exists_eq_succ_of_ne_zero (Nat.ne_of_gt (Nat.zero_lt_of_lt (Trie.lt_size_of_child? hz)))

/-- A character leads as far along the terminator as the search for it says. -/
theorem Shelves.resolve_char (h : g.Shelves b (corridor b t close halted)) (ht : t ≠ [])
    (hk : k < t.length) (hn : g.Seeks b t k n) (c : Char) :
    g.resolve n (.char c) = .node (g.along b t (seek t k c)) := by
  obtain ⟨hops, hsize⟩ := h.exists_size
  rcases hn with rfl | ⟨rfl, hedges, hback⟩
  · rcases Nat.eq_zero_or_pos k with rfl | hpos
    · rw [along_zero, resolve, h.resolveWithin_body ht, seek]
      split <;> rfl
    · rw [resolve, hsize, resolveWithin, h.child?_char ht hk,
        (h.along ht (Nat.le_of_lt hk) (corridor_way hk hpos)).1, seek]
      by_cases hc : t[k]? = some c
      · rw [if_pos hc, if_pos hc]
      · rw [if_neg hc, if_neg hc]
        exact h.resolveWithin_body ht hops c
  · rw [resolve, hsize, resolveWithin, Trie.child?, hedges, Edges.find?_nil, hback, seek]
    refine (h.resolveWithin_body ht hops c).trans ?_
    split <;> rfl

/-- The end of input leads to the end of the halted run. -/
theorem Shelves.resolve_stop (h : g.Shelves b (corridor b t close halted)) (ht : t ≠ [])
    (hk : k < t.length) (hn : g.Seeks b t k n) : ∃ z,
    g.resolve n .endOfInput = .node z ∧ g.trie.child? b .endOfInput = some z ∧
      (g.behaviour z).action = .close halted := by
  obtain ⟨hops, hsize⟩ := h.exists_size
  obtain ⟨z, hz, haction⟩ := h.exists_stop
  have hbody (hops : Nat) : g.resolveWithin hops b .endOfInput = .node z := by
    rw [resolveWithin, hz]
  refine ⟨z, ?_, hz, haction⟩
  rcases hn with rfl | ⟨rfl, hedges, hback⟩
  · rcases Nat.eq_zero_or_pos k with rfl | hpos
    · exact hbody _
    · rw [resolve, hsize, resolveWithin, h.child?_stop ht hk hpos,
        (h.along ht (Nat.le_of_lt hk) (corridor_way hk hpos)).1]
      exact hbody hops
  · rw [resolve, hsize, resolveWithin, Trie.child?, hedges, Edges.find?_nil, hback]
    exact hbody hops

end StateGraph

/-! ### Scanning a run -/

/-- The body of a run that its terminator ends, or else the end of input. Nothing is escaped, and
no run inside has a grammar of its own. -/
structure StateGraph.Lane (g : StateGraph) (b : NodeId) (t : List Char) (close halted : Close) :
    Prop where
  ne_nil : t ≠ []
  shelves : g.Shelves b (corridor b t close halted)
  quiet {n : NodeId} (hn : g.trie.Under b n) : (g.behaviour n).run = none
  escape : close.escape = none
  nested : close.nested = none
  escape_halted : halted.escape = none
  nested_halted : halted.nested = none

namespace Reading

variable {a : Automaton} {inner : InnerScan} {r : Reading} {s : Symbol} {n b : NodeId}
  {close halted : Close} {t u : List Char} {k : Nat}

/-- Where no run is open and none is opened, the node that a symbol leads to acts. -/
theorem advance_of_node (hr : r.run = none) (hn : a.resolve r.node s = .node n)
    (hrun : (a.behaviour n).run = none) : r.advance a inner s = (do
      let (r, out) ← act a inner { r with node := n, pending := r.pending ++ s.text }
      let r ← r.feed inner
      return (r, out)) := by
  have hmove : a.move r.toCursor s = .ok (⟨n, r.pending ++ s.text⟩, []) := by
    rw [StateGraph.move, hn]
  have henter : enter a { r with node := n, pending := r.pending ++ s.text } =
      .ok { r with node := n, pending := r.pending ++ s.text } := by
    rw [enter, hr, hrun]
  rw [advance, hmove, ok_bind]
  dsimp only
  rw [henter]
  rfl

/-- Nothing happens where a symbol leads to a node that does nothing. -/
theorem advance_of_none (inner : InnerScan) (hr : r.run = none) (hn : a.resolve r.node s = .node n)
    (hrun : (a.behaviour n).run = none) (haction : (a.behaviour n).action = .none) :
    r.advance a inner s = .ok ({ r with node := n, pending := r.pending ++ s.text }, []) := by
  rw [advance_of_node hr hn hrun, act, settle, haction, ok_bind]
  dsimp only
  rw [feed, hr]
  rfl

/-- A run is given out where a symbol leads to its end. -/
theorem advance_of_close (hr : r.run = none) (hn : a.resolve r.node s = .node n)
    (hrun : (a.behaviour n).run = none) (haction : (a.behaviour n).action = .close close)
    (hescape : close.escape = none) (hnested : close.nested = none) :
    r.advance a inner s = .ok ({ idle := r.idle }, [.whole (r.pending ++ s.text) close]) := by
  rw [advance_of_node hr hn hrun, act, settle, haction]
  dsimp only
  rw [Reading.close, Close.isEscaped, hescape, ok_bind, hnested, hr]
  rfl

/-- A scan inside a run, behind so many characters of the terminator. -/
structure Seeks (a : Automaton) (b : NodeId) (t : List Char) (k : Nat) (r : Reading) : Prop where
  run : r.run = none
  node : a.Seeks b t k r.node

variable (inner)

/-- A character leads on inside a run, unless it ends the terminator. -/
theorem Seeks.advance (h : a.Lane b t close halted) (hk : k < t.length) (hr : r.Seeks a b t k)
    {c : Char} (hseek : seek t k c < t.length) : ∃ r', r.advance a inner (.char c) = .ok (r', []) ∧
      r'.Seeks a b t (seek t k c) ∧ r'.pending = r.pending ++ [c] ∧ r'.idle = r.idle := by
  have hle := Nat.le_of_lt hseek
  have hunder : a.trie.Under b (a.along b t (seek t k c)) :=
    ⟨_, h.shelves.follow?_along h.ne_nil hle⟩
  have haction : (a.behaviour (a.along b t (seek t k c))).action = .none := by
    rcases Nat.eq_zero_or_pos (seek t k c) with hzero | hpos
    · rw [hzero]
      exact (h.shelves.along h.ne_nil (Nat.zero_le _) (corridor_nil h.ne_nil)).2
    · exact (h.shelves.along h.ne_nil hle (corridor_way hseek hpos)).2
  exact ⟨_, advance_of_none inner hr.run (h.shelves.resolve_char h.ne_nil hk hr.node c)
    (h.quiet hunder) haction, ⟨hr.run, .inl rfl⟩, rfl, rfl⟩

/-- The last character of the terminator ends the run. -/
theorem Seeks.advance_close (h : a.Lane b t close halted) (hk : k < t.length)
    (hr : r.Seeks a b t k) {c : Char} (hseek : seek t k c = t.length) :
    r.advance a inner (.char c) = .ok ({ idle := r.idle }, [.whole (r.pending ++ [c]) close]) := by
  have hresolve := h.shelves.resolve_char h.ne_nil hk hr.node c
  rw [hseek] at hresolve
  have hunder : a.trie.Under b (a.along b t t.length) :=
    ⟨_, h.shelves.follow?_along h.ne_nil (Nat.le_refl _)⟩
  have haction := (h.shelves.along h.ne_nil (Nat.le_refl _)
    ((congrArg _ (by rw [List.take_length])).trans corridor_last)).2
  exact advance_of_close hr.run hresolve (h.quiet hunder) haction h.escape h.nested

/-- The end of input halts the run. -/
theorem Seeks.finish (h : a.Lane b t close halted) (hk : k < t.length) (hr : r.Seeks a b t k) :
    r.finish a inner = .ok ({ idle := r.idle }, [.whole r.pending halted, .plain [] none]) := by
  obtain ⟨z, hz, hchild, haction⟩ := h.shelves.resolve_stop h.ne_nil hk hr.node
  have hunder : a.trie.Under b z := (a.trie.under_self b).child hchild
  have hadvance : r.advance a inner .endOfInput = _ :=
    advance_of_close hr.run hz (h.quiet hunder) haction h.escape_halted h.nested_halted
  rw [Reading.finish, hadvance]
  simp only [Symbol.text, List.append_nil]
  rfl

/-- A text is read with one more character. -/
theorem read_concat {r₁ r₂ : Reading} {ls ms : List Lexeme} {c : Char}
    (hread : r.read a inner u = .ok (r₁, ls))
    (hadvance : r₁.advance a inner (.char c) = .ok (r₂, ms)) :
    r.read a inner (u ++ [c]) = .ok (r₂, ls ++ ms) := by
  have hlast : r₁.read a inner [c] = .ok (r₂, ms ++ []) := by
    rw [Reading.read, hadvance]
    rfl
  rw [read_append, hread, ok_bind]
  dsimp only
  rw [hlast, List.append_nil]
  rfl

/-- A text is read inside a run, as long as it does not lead to the end of the terminator. -/
theorem Seeks.read (h : a.Lane b t close halted) (hr : r.Seeks a b t 0)
    (hu : ∀ p, p <+: u → seekAll t p < t.length) : ∃ r', r.read a inner u = .ok (r', []) ∧
      r'.Seeks a b t (seekAll t u) ∧ r'.pending = r.pending ++ u ∧ r'.idle = r.idle := by
  induction u using List.reverseRecOn with
  | nil => exact ⟨r, rfl, hr, (List.append_nil _).symm, rfl⟩
  | append_singleton u c ih =>
    obtain ⟨r₁, hread, hr₁, hpending, hidle⟩ :=
      ih fun p hp => hu p (hp.trans (List.prefix_append _ _))
    have hbefore := hu u (List.prefix_append _ _)
    have hafter := hu _ List.prefix_rfl
    rw [seekAll_concat] at hafter ⊢
    obtain ⟨r₂, hadvance, hr₂, hpending₂, hidle₂⟩ := hr₁.advance inner h hbefore hafter
    exact ⟨r₂, read_concat inner hread hadvance, hr₂,
      by rw [hpending₂, hpending, List.append_assoc], hidle₂.trans hidle⟩

/-- A text that leads to the end of the terminator ends the run. -/
theorem Seeks.read_close (h : a.Lane b t close halted) (hr : r.Seeks a b t 0)
    (hu : ∀ p, p <+: u → seekAll t p < t.length) {c : Char}
    (hc : seekAll t (u ++ [c]) = t.length) : r.read a inner (u ++ [c]) =
      .ok ({ idle := r.idle }, [.whole (r.pending ++ u ++ [c]) close]) := by
  obtain ⟨r₁, hread, hr₁, hpending, hidle⟩ := hr.read inner h hu
  rw [seekAll_concat] at hc
  have hadvance := hr₁.advance_close inner h (hu u List.prefix_rfl) hc
  rw [hpending, hidle] at hadvance
  exact read_concat inner hread hadvance

end Reading

/-! ### Scanners inside a run -/

/-- A scanner gives out what its scan gives out. -/
theorem Scanner.Reaches.handle_of_take {τ : Type} {lexicon : Lexicon}
    {matchers : List (GreedyMatcher Compilation)} {place : NodeId → Locus} {s : Scanner}
    {r r' : Reading} {position : Nat} (hs : s.Reaches place r position)
    (h : Charted lexicon matchers s.automaton place) (sink : Sink τ) (out : τ) (input : Input)
    {ls : List Lexeme} (ht : r.take s.automaton s.automaton.inner input = .ok (r', ls)) : ∃ s',
    s.handle sink out input = .ok (s', (listing position ls).foldl sink out) ∧
      s'.automaton = s.automaton ∧ s'.Reaches place r' (position + byteLength (spelled ls)) := by
  rw [hs.handle_eq h, ht]
  exact ⟨_, rfl, rfl, rfl, hs.sound.take h ht⟩

theorem listing_whole (position : Nat) {text : List Char} (ht : text ≠ []) (close : Close) :
    (Lexeme.whole text close).tokens position =
      [⟨String.ofList text, close.label, position⟩] := by
  rw [Lexeme.tokens, tokenAt, if_neg (by simpa using ht)]

theorem GreedyMatcher.terminator_ne_empty {γ : Type} {m : GreedyMatcher γ} {terminator : String}
    (h : m.terminator = some terminator) : terminator ≠ "" := by
  rintro rfl
  have hfilter := (Option.filter_eq_some_iff.1 h).2
  cases hfilter

namespace Grammar

variable {g : Grammar} {a : Automaton} {m : GreedyMatcher Grammar} {n b : NodeId}
  {terminator : String}

/-- A scanner that stands on the opener of a run, with nothing else pending. -/
structure Stands (g : Grammar) (a : Automaton) (m : GreedyMatcher Grammar) (n b : NodeId)
    (place : NodeId → Locus) (r : Reading) (s : Scanner) : Prop where
  chart : Charted g.toLexicon (compileMatchers g.greedyMatchers) a place
  automaton : s.automaton = a
  reaches : s.Reaches place r s.position
  node : r.node = n
  run : r.run = none
  pending : r.pending = m.startsWith.toList
  opener : m.startsWith ≠ ""
  body : ∃ m' nested', place b = ⟨.body b m' nested', []⟩
  ends : ∃ terminator escape nested,
    g.toLexicon.Ends (compileMatcher m) terminator escape nested b a

theorem exists_stands (h : g.compile.result = .ok a) (hm : (m, n, b) ∈ g.openings) {τ : Type}
    {sink : Sink τ} {calls : List Call} {s : Scanner} {out out' : τ}
    (hs : (Scanner.ofAutomaton a).performAll sink out calls = .ok (s, out'))
    (hn : s.progress.node = n) (hpending : s.pending = m.startsWith) :
    ∃ place r, g.Stands a m n b place r s := by
  obtain ⟨place, hchart, hopenings⟩ := ends_of_mem_openings h
  obtain ⟨⟨path, hplace⟩, hb, hends⟩ := hopenings hm
  obtain ⟨ha, r, position, hreach⟩ := (Scanner.reaches_ofAutomaton hchart).performAll hchart hs
  obtain rfl := hreach.position_eq
  have hnode : r.node = n := by
    rw [← hn, hreach.progress]
    rfl
  refine ⟨place, r, hchart, ha, hreach, hnode, ?_, ?_, ?_, hb, hends⟩
  · cases hrun : r.run with
    | none => rfl
    | some run =>
      obtain ⟨_, _, _, hregion⟩ := (hreach.sound.run hrun).region
      rw [hnode, hplace] at hregion
      cases congrArg Locus.origin hregion
  · rw [← hpending, hreach.pending_eq, String.toList_ofList]
  · have hmem : compileMatcher m ∈ compileMatchers g.greedyMatchers := by
      rw [compileMatchers_eq]
      exact List.mem_map_of_mem (List.mem_filter.1 (List.of_mem_zip hm).1).1
    rw [← startsWith_compileMatcher]
    exact (proper_compile h).opener hmem

/-- The run of a matcher that has a terminator and nothing else. -/
theorem exists_lane {place : NodeId → Locus}
    (hchart : Charted g.toLexicon (compileMatchers g.greedyMatchers) a place)
    {m' : GreedyMatcher Compilation} {nested' : Option RunId}
    (hb : place b = ⟨.body b m' nested', []⟩) {terminator' : String} {escape : Option Char}
    {nested : Option RunId} (h : g.toLexicon.Ends (compileMatcher m) terminator' escape nested b a)
    (hescape : m.escapeChars = []) (hhalt : m.haltMarker = none) (hinterior : m.subGrammar = none)
    (hterminator : m.terminator = some terminator) : ∃ close halted,
      a.Lane b terminator.toList close halted ∧ close.label = m.kind ∧
        halted.label = g.labels.halted m.kind := by
  obtain ⟨kind, startsWith, endsWith, haltsWith, escapesWith, interior⟩ := m
  obtain rfl : interior = none := hinterior
  let compiled : GreedyMatcher Compilation :=
    ⟨kind, startsWith, endsWith, haltsWith, escapesWith, none⟩
  have hescape : compiled.escapeChars = [] := hescape
  have hhalt : compiled.haltMarker = none := hhalt
  rw [compileMatcher, compileInterior] at h
  obtain rfl : nested = none := h.interior rfl
  obtain rfl : terminator' = terminator := Option.some.inj (h.ends.symm.trans hterminator)
  have hnone : compiled.escape = .ok none := by rw [GreedyMatcher.escape, hescape]
  obtain rfl : escape = none := Except.ok.inj (h.escapes.symm.trans hnone)
  have hshelves := h.shelves
  rw [Lexicon.closings, hhalt] at hshelves
  have hne := GreedyMatcher.terminator_ne_empty hterminator
  refine ⟨_, _, ⟨mt String.toList_eq_nil_iff.1 hne,
    funext (imprint_eq_corridor hne _ _ b) ▸ hshelves, ?_, rfl, rfl, rfl, rfl⟩, rfl, rfl⟩
  rintro n ⟨q, hq⟩
  cases hrun : (a.behaviour n).run with
  | none => rfl
  | some id =>
    obtain ⟨m'', hn⟩ := hchart.run hrun
    rw [hchart.place_of_follow? hb hq] at hn
    obtain rfl : b = n := by
      injection hn with horigin
      injection horigin
    cases h.run.symm.trans hrun

/-- A scanner that is about to read the interior of such a run. -/
structure Inside (g : Grammar) (m : GreedyMatcher Grammar) (terminator : String)
    (place : NodeId → Locus) (b : NodeId) (close halted : Close) (r : Reading) (s : Scanner) :
    Prop where
  chart : Charted g.toLexicon (compileMatchers g.greedyMatchers) s.automaton place
  reaches : s.Reaches place r s.position
  lane : s.automaton.Lane b terminator.toList close halted
  seeks : r.Seeks s.automaton b terminator.toList 0
  pending : r.pending = m.startsWith.toList
  opener : m.startsWith ≠ ""
  label : close.label = m.kind
  label_halted : halted.label = g.labels.halted m.kind

section

variable {τ υ : Type} {s : Scanner} {place : NodeId → Locus} {close halted : Close} {r : Reading}

/-- A scanner that stands on the opener of such a run is about to read its interior, if nothing else
has taken the opener and no edge leaves it. -/
theorem exists_inside (h : g.compile.result = .ok a) (hm : (m, n, b) ∈ g.openings)
    (hkept : (a.behaviour n).fallback = .reroute b) (hbare : a.trie.edges n = [])
    (hterminator : m.terminator = some terminator) (hescape : m.escapeChars = [])
    (hhalt : m.haltMarker = none) (hinterior : m.subGrammar = none) {sink : Sink τ}
    {calls : List Call} {out out' : τ}
    (hs : (Scanner.ofAutomaton a).performAll sink out calls = .ok (s, out'))
    (hn : s.progress.node = n) (hpending : s.pending = m.startsWith) :
    ∃ place close halted r, g.Inside m terminator place b close halted r s := by
  obtain ⟨place, r, hstands⟩ := exists_stands h hm hs hn hpending
  obtain ⟨m', nested', hb⟩ := hstands.body
  obtain ⟨_, _, _, hends⟩ := hstands.ends
  obtain ⟨close, halted, hlane, hlabel, hhalted⟩ :=
    exists_lane hstands.chart hb hends hescape hhalt hinterior hterminator
  obtain rfl : a = s.automaton := hstands.automaton.symm
  have hnode := hstands.node
  exact ⟨place, close, halted, r, hstands.chart, hstands.reaches, hlane,
    ⟨hstands.run, .inr ⟨rfl, hnode ▸ hbare, hnode ▸ hkept⟩⟩, hstands.pending, hstands.opener,
    hlabel, hhalted⟩

/-- A text that never leads to the end of the terminator is pending until the end of input, which
halts the run. -/
theorem Inside.goes_on (h : g.Inside m terminator place b close halted r s) (sink : Sink υ)
    (tokens : υ) {x : String}
    (hx : ∀ p, p <+: x.toList → seekAll terminator.toList p < terminator.toList.length) :
    ∃ s' s'', s.consume sink tokens x = .ok (s', tokens) ∧
      s'.flush sink tokens = .ok (s'', sink tokens
        ⟨m.startsWith ++ x, g.labels.halted m.kind, s.position⟩) := by
  obtain ⟨r₁, hread, hr₁, hpending₁, -⟩ := h.seeks.read s.automaton.inner h.lane hx
  obtain ⟨s₁, hconsume, ha₁, hs₁⟩ := h.reaches.handle_of_take h.chart sink tokens (.chunk x) hread
  have hfinish := hr₁.finish s.automaton.inner h.lane (hx _ List.prefix_rfl)
  have hchart := h.chart
  rw [← ha₁] at hchart hfinish
  obtain ⟨s₂, hflush, -⟩ := hs₁.handle_of_take hchart sink tokens .done hfinish
  have hne : m.startsWith.toList ++ x.toList ≠ [] :=
    List.append_ne_nil_of_left_ne_nil (mt String.toList_eq_nil_iff.1 h.opener) _
  refine ⟨s₁, s₂, hconsume, hflush.trans ?_⟩
  rw [hpending₁, h.pending, listing_cons, listing_whole _ hne, h.label_halted,
    ← String.toList_append, String.ofList_toList]
  rfl

/-- A text that leads to the end of the terminator ends the run at once. -/
theorem Inside.ends (h : g.Inside m terminator place b close halted r s) (sink : Sink υ)
    (tokens : υ) {x : String} {front : List Char} {c : Char} (hx : x.toList = front ++ [c])
    (hfront : ∀ p, p <+: front → seekAll terminator.toList p < terminator.toList.length)
    (hc : seekAll terminator.toList (front ++ [c]) = terminator.toList.length) : ∃ s',
    s.consume sink tokens x =
      .ok (s', sink tokens ⟨m.startsWith ++ x, m.kind, s.position⟩) := by
  have hread := h.seeks.read_close s.automaton.inner h.lane hfront hc
  rw [List.append_assoc, ← hx] at hread
  obtain ⟨s₁, hconsume, -⟩ := h.reaches.handle_of_take h.chart sink tokens (.chunk x) hread
  have hne : m.startsWith.toList ++ x.toList ≠ [] :=
    List.append_ne_nil_of_left_ne_nil (mt String.toList_eq_nil_iff.1 h.opener) _
  refine ⟨s₁, hconsume.trans ?_⟩
  rw [h.pending, listing_cons, listing_whole _ hne, h.label, ← String.toList_append,
    String.ofList_toList]
  rfl

end

/-- A greedy run that only its terminator ends: it has no escape, no halt marker and no interior
grammar. Where a scanner stands on its opener with nothing else pending, nothing else has taken the
opener and no edge leaves it, the run ends at the first occurrence of a steady terminator, and at
the end of input it is halted if there is none. -/
theorem terminating (h : g.compile.result = .ok a) (hm : (m, n, b) ∈ g.openings)
    (hkept : (a.behaviour n).fallback = .reroute b) (hbare : a.trie.edges n = [])
    (hterminator : m.terminator = some terminator) (hescape : m.escapeChars = [])
    (hhalt : m.haltMarker = none) (hinterior : m.subGrammar = none)
    (hsteady : Steady terminator.toList) {τ : Type} {sink : Sink τ} {calls : List Call}
    {s : Scanner} {out out' : τ}
    (hs : (Scanner.ofAutomaton a).performAll sink out calls = .ok (s, out'))
    (hn : s.progress.node = n) (hpending : s.pending = m.startsWith) {υ : Type} (sink : Sink υ)
    (tokens : υ) :
    (∀ u v : String, (∀ front rest : String,
        u ++ terminator ++ v = front ++ terminator ++ rest → u.length ≤ front.length) → ∃ s',
      s.consume sink tokens (u ++ terminator) =
        .ok (s', sink tokens ⟨m.startsWith ++ (u ++ terminator), m.kind, s.position⟩) ∧
      s.consume sink tokens (u ++ terminator ++ v) = s'.consume sink
        (sink tokens ⟨m.startsWith ++ (u ++ terminator), m.kind, s.position⟩) v) ∧
    ∀ x : String, ¬terminator.toList <:+: x.toList → ∃ s' s'',
      s.consume sink tokens x = .ok (s', tokens) ∧ s'.flush sink tokens = .ok (s'', sink tokens
        ⟨m.startsWith ++ x, g.labels.halted m.kind, s.position⟩) := by
  obtain ⟨place, close, halted, r, hin⟩ :=
    exists_inside h hm hkept hbare hterminator hescape hhalt hinterior hs hn hpending
  refine ⟨fun u v hfirst => ?_, fun x hx => hin.goes_on sink tokens fun p hp =>
    lt_of_steady hsteady hin.lane.ne_nil fun p' hp' hsuffix => hx ?_⟩
  · obtain ⟨front, c, hfront⟩ := (List.eq_nil_or_concat terminator.toList).resolve_left
      hin.lane.ne_nil
    rw [List.concat_eq_append] at hfront
    have hbefore (p : List Char) (hp : p <+: u.toList ++ front) : ¬terminator.toList <:+ p := by
      refine not_suffix_of_first hfront (v := v.toList) (fun before rest heq => ?_) hp
      have hle := hfirst (String.ofList before) (String.ofList rest) (String.toList_injective (by
        simpa only [String.toList_append, String.toList_ofList] using heq))
      rwa [← String.length_toList, ← String.length_toList, String.toList_ofList] at hle
    have hx : (u ++ terminator).toList = (u.toList ++ front) ++ [c] := by
      rw [String.toList_append, hfront, List.append_assoc]
    obtain ⟨s', hconsume⟩ := hin.ends sink tokens hx
      (fun p hp => lt_of_steady hsteady hin.lane.ne_nil fun p' hp' => hbefore p' (hp'.trans hp))
      (seekAll_eq_length_of_steady hsteady hin.lane.ne_nil hbefore
        ⟨u.toList, by rw [List.append_assoc, hfront]⟩)
    refine ⟨s', hconsume, ?_⟩
    rw [hin.reaches.consume_append hin.chart, hconsume]
    rfl
  · exact hsuffix.isInfix.trans (hp'.trans hp).isInfix

/-- A grammar with comments whose terminator does not overlap itself. -/
def commented : Grammar where
  delimiters := [.bare ";"]
  greedyMatchers := [{ kind := "comment", startsWith := "/*", endsWith := some "*/" }]

/-- A comment that ends behind two stars, and one that does not end. -/
theorem terminating_commented : ∃ a s tokens, commented.compile.result = .ok a ∧
    (Scanner.ofAutomaton a).performAll .collect #[] [.consume "x", .flush, .consume "/*"] =
      .ok (s, tokens) ∧
    (∃ s' : Scanner, s.consume .collect tokens ("*" ++ "*/" ++ ";") =
      s'.consume .collect (tokens.push ⟨"/***/", "comment", 1⟩) ";") ∧
    ∃ s' s'', s.consume .collect tokens "* /" = .ok (s', tokens) ∧
      s'.flush .collect tokens = .ok (s'', tokens.push ⟨"/** /", "HALTED_comment", 1⟩) := by
  have hrun : (commented.compile.result.toOption.bind fun a =>
      ((Scanner.ofAutomaton a).performAll .collect #[]
        [.consume "x", .flush, .consume "/*"]).toOption.bind fun z =>
      if (a.behaviour 14).fallback = .reroute 15 ∧ a.trie.edges 14 = [] ∧
        z.1.progress.node = 14 ∧ z.1.pending = "/*" ∧ z.1.position = 1
      then some z else none).isSome := by
    decide +kernel
  have hopeners : ((commented.toLexicon.build
      (compileMatchers commented.greedyMatchers)).run.run .start).2.openers = [(14, 15)] := by
    decide +kernel
  have hopening :
      (⟨"comment", "/*", some "*/", none, none, none⟩, 14, 15) ∈ commented.openings := by
    rw [openings, hopeners]
    exact List.mem_cons_self
  have hfirst (front rest : String) (heq : "*" ++ "*/" ++ ";" = front ++ "*/" ++ rest) :
      "*".length ≤ front.length := by
    refine Nat.pos_of_ne_zero fun hzero => ?_
    obtain rfl := String.length_eq_zero_iff.1 hzero
    simpa using congrArg String.toList heq
  obtain ⟨z, hz⟩ := Option.isSome_iff_exists.1 hrun
  obtain ⟨a, ha, hz⟩ := Option.bind_eq_some_iff.1 hz
  obtain ⟨⟨s, tokens⟩, hs, hz⟩ := Option.bind_eq_some_iff.1 hz
  obtain ⟨hkept, hbare, hnode, hpending, hposition⟩ := (Option.ite_none_right_eq_some.1 hz).1
  have ha := eq_ok_of_toOption ha
  have hs := eq_ok_of_toOption hs
  obtain ⟨hends, hhalts⟩ := terminating ha hopening hkept hbare rfl rfl rfl rfl (by decide) hs hnode
    hpending .collect tokens
  rw [hposition] at hends hhalts
  obtain ⟨s', -, hafter⟩ := hends "*" ";" hfirst
  exact ⟨a, s, tokens, ha, hs, ⟨s', hafter⟩, hhalts "* /" (by decide)⟩

/-- A terminator that is not steady is missed in some text that it occurs in: the text is pending
until the end of input, which halts the run. -/
theorem missing (h : g.compile.result = .ok a) (hm : (m, n, b) ∈ g.openings)
    (hkept : (a.behaviour n).fallback = .reroute b) (hbare : a.trie.edges n = [])
    (hterminator : m.terminator = some terminator) (hescape : m.escapeChars = [])
    (hhalt : m.haltMarker = none) (hinterior : m.subGrammar = none)
    (hsteady : ¬Steady terminator.toList) {τ : Type} {sink : Sink τ} {calls : List Call}
    {s : Scanner} {out out' : τ}
    (hs : (Scanner.ofAutomaton a).performAll sink out calls = .ok (s, out'))
    (hn : s.progress.node = n) (hpending : s.pending = m.startsWith) {υ : Type} (sink : Sink υ)
    (tokens : υ) : ∃ (x : String) (s' s'' : Scanner), terminator.toList <:+: x.toList ∧
      s.consume sink tokens x = .ok (s', tokens) ∧ s'.flush sink tokens = .ok (s'', sink tokens
        ⟨m.startsWith ++ x, g.labels.halted m.kind, s.position⟩) := by
  obtain ⟨place, close, halted, r, hin⟩ :=
    exists_inside h hm hkept hbare hterminator hescape hhalt hinterior hs hn hpending
  obtain ⟨x, hx, hseek⟩ := exists_missed hsteady
  obtain ⟨s', s'', hconsume, hflush⟩ := hin.goes_on sink tokens (x := String.ofList x)
    (by rwa [String.toList_ofList])
  exact ⟨String.ofList x, s', s'', by rw [String.toList_ofList]; exact hx.isInfix, hconsume, hflush⟩

/-- A grammar with comments whose terminator overlaps itself. -/
def markup : Grammar where
  greedyMatchers := [{ kind := "COMMENT", startsWith := "<!--", endsWith := some "-->" }]

/-- A dash before the terminator hides it: the third dash leads off the path behind the first two,
and is taken as the first one again. -/
theorem tokenize_markup : ∃ a n b,
    (⟨"COMMENT", "<!--", some "-->", none, none, none⟩, n, b) ∈ markup.openings ∧
    markup.compile.result = .ok a ∧ (a.behaviour n).fallback = .reroute b ∧ a.trie.edges n = [] ∧
    "<!--a--->" = "<!--" ++ ("a-" ++ "-->") ∧
    a.tokenize "<!--a--->" = .ok [⟨"<!--a--->", "HALTED_COMMENT", 0⟩] := by
  have hopeners : ((markup.toLexicon.build
      (compileMatchers markup.greedyMatchers)).run.run .start).2.openers = [(12, 13)] := by
    decide +kernel
  have hopening :
      (⟨"COMMENT", "<!--", some "-->", none, none, none⟩, 12, 13) ∈ markup.openings := by
    rw [openings, hopeners]
    exact List.mem_cons_self
  have hopener : (markup.compile.result.toOption.map fun a =>
      ((a.behaviour 12).fallback, a.trie.edges 12)) = some (.reroute 13, []) := by
    decide +kernel
  have htokens : (markup.compile.result.toOption.bind fun a =>
      (a.tokenize "<!--a--->").toOption) = some [⟨"<!--a--->", "HALTED_COMMENT", 0⟩] := by
    decide +kernel
  obtain ⟨a, ha, htokens⟩ := exists_tokens htokens
  rw [ha] at hopener
  obtain ⟨hkept, hbare⟩ := Prod.mk.inj (Option.some.inj hopener)
  exact ⟨a, 12, 13, hopening, ha, hkept, hbare, by decide, htokens⟩

/-! ### Longer openers

An opener may go on into the opener of another run. The characters that belong to both the run and
the longer opener are read along the longer opener. Where it breaks off, the run goes on from its
body, which has not seen them. -/

/-- A grammar with strings in quotes. -/
def quoting : Grammar where
  delimiters := [.bare " "]
  greedyMatchers := [{ kind := "S", startsWith := "\"", endsWith := some "\"" }]
  conflicts := .reject

/-- Strings in three quotes. -/
def tripled : GreedyMatcher Grammar :=
  { kind := "L", startsWith := "\"\"\"", endsWith := some "\"\"\"" }

/-- The second quote ends the string, unless there are strings in three quotes as well: then it is
read along their opener, and the string goes on to the end of input. -/
theorem tokenize_tripled : ∃ a b, quoting.conflicts = .reject ∧
    tripled.startsWith = "\"" ++ "\"\"" ∧ ¬tripled.startsWith.toList <:+: "\"\" x".toList ∧
    quoting.compile.result = .ok a ∧
    ({ quoting with greedyMatchers := quoting.greedyMatchers ++ [tripled] } :
      Grammar).compile.result = .ok b ∧
    a.tokenize "\"\" x" = .ok [⟨"\"\"", "S", 0⟩, ⟨"x", "IDENTIFIER", 3⟩] ∧
    b.tokenize "\"\" x" = .ok [⟨"\"\" x", "HALTED_S", 0⟩] := by
  have hShort : (quoting.compile.result.toOption.bind fun a =>
      (a.tokenize "\"\" x").toOption) = some [⟨"\"\"", "S", 0⟩, ⟨"x", "IDENTIFIER", 3⟩] := by
    decide +kernel
  have hLong : (({ quoting with greedyMatchers := quoting.greedyMatchers ++ [tripled] } :
      Grammar).compile.result.toOption.bind fun a => (a.tokenize "\"\" x").toOption) =
      some [⟨"\"\" x", "HALTED_S", 0⟩] := by
    decide +kernel
  obtain ⟨a, ha, htokens⟩ := exists_tokens hShort
  obtain ⟨b, hb, htokensLong⟩ := exists_tokens hLong
  exact ⟨a, b, rfl, rfl, by decide, ha, hb, htokens, htokensLong⟩

end Grammar

end TrieLexer
