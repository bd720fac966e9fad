import TrieLexer.Proofs.Lexeme

/-!
# Scans in reading order

The running scan cuts its tokens out of one buffer by byte offsets. This module describes the same
scan without a buffer: it reads symbol by symbol, keeps the pending text as a list of characters,
and turns it into lexemes. A failure to cut the pending text at a byte count takes the place of a
misplaced offset. That both are the same scan is shown in `TrieLexer.Proofs.Window`.

## Main definitions

* `Cursor` — the node of the walk and the pending text.
* `Reading` — a cursor with the open run and the inner scans that are kept.
* `StateGraph.move` — the walk alone.
* `Reading.advance` — one symbol.
* `Reading.take` — a chunk of input, or its end.

## Main results

* `Reading.read_append` — a text may be read in two parts.
* `StateGraph.forall_of_move` — the walk alone gives out only what nodes release.
* `Reading.close_cases` — how a greedy run ends.
* `Reading.finish_spelled` — no text is lost.
-/

namespace TrieLexer

open Text (byteLength)

/-- The text of a symbol. -/
def Symbol.text : Symbol → List Char
  | char c => [c]
  | endOfInput => []

/-- Where the walk stands. -/
structure Cursor where
  node : NodeId := .root
  /-- The text that belongs to no lexeme yet. -/
  pending : List Char := []

/-- Everything that a scan remembers between two symbols. The offsets of the open run count from
the beginning of the pending text. -/
structure Reading extends Cursor where
  run : Option (NestedScan Progress) := none
  /-- The inner scans that are kept for later runs. -/
  idle : Array (Option Progress)

/-- A computation that may fail gives its result in two stages. -/
theorem bind_eq_ok {ε α β : Type} {x : Except ε α} {f : α → Except ε β} {b : β} :
    x >>= f = .ok b ↔ ∃ a, x = .ok a ∧ f a = .ok b := by
  cases x with
  | error e => exact ⟨nofun, by rintro ⟨_, ⟨⟩, _⟩⟩
  | ok a => exact ⟨fun h => ⟨a, rfl, h⟩, by rintro ⟨_, ⟨⟩, h⟩; exact h⟩

theorem ok_bind {ε α β : Type} (a : α) (f : α → Except ε β) : .ok a >>= f = f a := rfl

theorem map_ok {ε α β : Type} (a : α) (f : α → β) :
    f <$> (.ok a : Except ε α) = .ok (f a) := rfl

/-- A text cut after its first `n` bytes. -/
def cutFront (n : Nat) (text : List Char) : Except ScanFault (List Char × List Char) :=
  match Text.splitBytes? n text with
  | some parts => .ok parts
  | none => .error .misplacedCut

/-- A text cut before its last `n` bytes. -/
def cutBack (n : Nat) (text : List Char) : Except ScanFault (List Char × List Char) :=
  if n ≤ byteLength text then cutFront (byteLength text - n) text else .error .misplacedCut

theorem cutFront_eq_ok {n : Nat} {text a b : List Char} :
    cutFront n text = .ok (a, b) ↔ text = a ++ b ∧ byteLength a = n := by
  rw [← Text.splitBytes?_eq_some_iff, cutFront]
  cases Text.splitBytes? n text <;> simp

theorem cutBack_eq_ok {n : Nat} {text a b : List Char} :
    cutBack n text = .ok (a, b) ↔ text = a ++ b ∧ byteLength b = n := by
  rw [cutBack]
  split
  · rw [cutFront_eq_ok]
    refine and_congr_right fun h => ?_
    subst h
    simp only [Text.byteLength_append] at *
    omega
  · simp only [reduceCtorEq, false_iff]
    rintro ⟨rfl, rfl⟩
    simp at *

namespace StateGraph

variable (g : StateGraph)

/-- Moves the walk along a symbol, which joins the pending text. A release gives out the text
before the symbol. -/
def move (c : Cursor) (s : Symbol) : Except ScanFault (Cursor × List Lexeme) :=
  match g.resolve c.node s with
  | .node n => .ok (⟨n, c.pending ++ s.text⟩, [])
  | .release label =>
    match g.resolve .root s with
    | .node n => .ok (⟨n, s.text⟩, [.plain c.pending (some label)])
    | .release _ => .error .rootReleases

/-- Moves the walk along a text. -/
def retake (c : Cursor) : List Char → Except ScanFault (Cursor × List Lexeme)
  | [] => .ok (c, [])
  | d :: ds => do
    let (c, out) ← g.move c (.char d)
    let (c, outs) ← retake c ds
    return (c, out ++ outs)

end StateGraph

/-- Whether the terminator at the end of a text is escaped: an odd number of escape characters
ends what stands between it and the opener. -/
def Close.isEscaped (close : Close) (text : List Char) : Except ScanFault Bool :=
  match close.escape with
  | none => .ok false
  | some escape => do
    let (before, _) ← cutBack close.terminatorLength text
    let (_, interior) ← cutFront close.openerLength before
    return (interior.reverse.takeWhile (· == escape)).length % 2 == 1

namespace Reading

variable (a : Automaton) (inner : InnerScan)

/-- Opens the run of a body on the first landing there. -/
def enter (r : Reading) : Except ScanFault Reading :=
  match r.run, (a.behaviour r.node).run with
  | none, some id => do
    let (run, idle) ← a.wake r.idle id 0
    return { r with run := some run, idle }
  | _, _ => .ok r

/-- The open run. A run that ends straight after its opener has not been opened before. -/
def current (r : Reading) (id : RunId) :
    Except ScanFault (NestedScan Progress × Array (Option Progress)) :=
  match r.run with
  | some run => .ok (run, r.idle)
  | none => a.wake r.idle id 0

/-- Gives out the opener, the tokens of the interior and the terminator of a run whose inner scan
has been given the interior. -/
def handOver (before terminator : List Char) (idle : Array (Option Progress))
    (run : NestedScan Progress) (close : Close) : Except ScanFault (Reading × List Lexeme) := do
  let (opener, interior) ← cutFront run.interior before
  let (scan, tokens) ← inner run.id run.scan run.tokens .done
  return ({ idle := idle.setIfInBounds run.id (some scan) },
    [.nested opener interior terminator close tokens.toList])

/-- Gives the inner scan of a run the rest of the interior, and gives out the run. -/
def giveOut (pending : List Char) (idle : Array (Option Progress)) (run : NestedScan Progress)
    (close : Close) : Except ScanFault (Reading × List Lexeme) := do
  let (before, terminator) ← cutBack close.terminatorLength pending
  let (_, unfed) ← cutFront run.fed before
  let run ← run.feed inner (String.ofList unfed)
  handOver inner before terminator idle run close

/-- Ends a greedy run, unless its terminator is escaped; then the walk goes back into the run. -/
def close (r : Reading) (close : Close) : Except ScanFault (Reading × List Lexeme) := do
  if ← close.isEscaped r.pending then return ({ r with node := close.body }, [])
  match close.nested with
  | none => return ({ run := r.run, idle := r.idle }, [.whole r.pending close])
  | some id =>
    let (run, idle) ← r.current a id
    giveOut inner r.pending idle run close

/-- What the node of the walk does, except that the end of an open-ended token is passed over. -/
def settle (r : Reading) : Except ScanFault (Reading × List Lexeme) :=
  match (a.behaviour r.node).action with
  | .none => .ok (r, [])
  | .boundary .. => .ok (r, [])
  | .literal label =>
    .ok ({ run := r.run, idle := r.idle }, [.plain r.pending (label.or a.unnamed)])
  | .close c => r.close a inner c

/-- What the node of the walk does. The end of an open-ended token gives out the text before the
terminator, takes the terminator again from the root, and lets the node reached there act. -/
def act (r : Reading) : Except ScanFault (Reading × List Lexeme) :=
  match (a.behaviour r.node).action with
  | .boundary label length => do
    let (before, terminator) ← cutBack length r.pending
    let (cursor, released) ← a.retake {} terminator
    let (r, out) ← settle a inner { r with toCursor := cursor }
    return (r, .plain before (some label) :: released ++ out)
  | _ => r.settle a inner

/-- The pending text that can no longer belong to a terminator, of which so many bytes at the end
are held back. -/
def ripe (r : Reading) (hold : Nat) : List Char :=
  Text.frontWithin (byteLength r.pending - hold) r.pending

/-- Gives the inner scan of an open run what can no longer belong to a terminator. -/
def feed (r : Reading) : Except ScanFault Reading :=
  match r.run with
  | none => .ok r
  | some run =>
    if run.fed < byteLength (r.ripe run.hold) then do
      let (_, text) ← cutFront run.fed (r.ripe run.hold)
      let run ← run.feed inner (String.ofList text)
      return { r with run := some run }
    else .ok r

/-- One symbol. -/
def advance (r : Reading) (s : Symbol) : Except ScanFault (Reading × List Lexeme) := do
  let (cursor, released) ← a.move r.toCursor s
  let r ← enter a { r with toCursor := cursor }
  let (r, out) ← r.act a inner
  let r ← r.feed inner
  return (r, released ++ out)

/-- The characters of a text. -/
def read (r : Reading) : List Char → Except ScanFault (Reading × List Lexeme)
  | [] => .ok (r, [])
  | c :: cs => do
    let (r, out) ← r.advance a inner (.char c)
    let (r, outs) ← read r cs
    return (r, out ++ outs)

/-- A reading at the root, which keeps the inner scan of an open run. -/
def park (r : Reading) : Reading :=
  match r.run with
  | none => { idle := r.idle }
  | some run => { idle := r.idle.setIfInBounds run.id (some run.scan) }

/-- The end of input. Whatever is still pending then is passed over. -/
def finish (r : Reading) : Except ScanFault (Reading × List Lexeme) := do
  let (r, out) ← r.advance a inner .endOfInput
  return (r.park, out ++ [.plain r.pending none])

/-- A chunk of input or its end. -/
def take (r : Reading) : Input → Except ScanFault (Reading × List Lexeme)
  | .chunk text => r.read a inner text.toList
  | .done => r.finish a inner

/-- A text may be read in two parts. -/
theorem read_append (r : Reading) (x y : List Char) :
    r.read a inner (x ++ y) = (do
      let (r, out) ← r.read a inner x
      let (r, outs) ← r.read a inner y
      return (r, out ++ outs)) := by
  induction x generalizing r with
  | nil =>
    change r.read a inner y = r.read a inner y >>= fun x => pure (x.1, [] ++ x.2)
    cases r.read a inner y <;> rfl
  | cons c x ih =>
    simp only [List.cons_append, read, ih, bind_assoc, pure_bind, List.append_assoc]

end Reading

/-! ### What the walk gives out -/

namespace StateGraph

variable {g : StateGraph} {ls : List Lexeme} {P : Lexeme → Prop}

/-- A release is that of some node. -/
theorem exists_of_release {hops : Nat} {n : NodeId} {s : Symbol} {label : Label}
    (h : g.resolveWithin hops n s = .release label) :
    ∃ k, (g.behaviour k).fallback = .release label := by
  induction hops generalizing n with
  | zero =>
    rw [resolveWithin] at h
    split at h
    · cases h
    · split at h <;> cases h
      exact ⟨n, ‹_›⟩
  | succ hops ih =>
    rw [resolveWithin] at h
    split at h
    · cases h
    · split at h
      · cases h
      · cases h
      · cases h
      · cases h
        exact ⟨n, ‹_›⟩
      · exact ih h

/-- What holds of all text that nodes release holds of what the walk gives out. -/
theorem forall_of_move {c c' : Cursor} {s : Symbol}
    (hP : ∀ n text label, (g.behaviour n).fallback = .release label → P (.plain text (some label)))
    (h : g.move c s = .ok (c', ls)) : ∀ l ∈ ls, P l := by
  rw [move] at h
  split at h
  · cases h
    exact List.forall_mem_nil _
  · next label hr =>
    split at h
    · cases h
      obtain ⟨n, hn⟩ := exists_of_release hr
      exact List.forall_mem_singleton.2 (hP n _ label hn)
    · cases h

theorem forall_of_retake {c c' : Cursor} {text : List Char}
    (hP : ∀ n text label, (g.behaviour n).fallback = .release label → P (.plain text (some label)))
    (h : g.retake c text = .ok (c', ls)) : ∀ l ∈ ls, P l := by
  induction text generalizing c ls with
  | nil =>
    cases h
    exact List.forall_mem_nil _
  | cons d text ih =>
    obtain ⟨⟨c₁, out⟩, hd, h⟩ := bind_eq_ok.1 h
    obtain ⟨⟨c₂, outs⟩, hr, h⟩ := bind_eq_ok.1 h
    cases h
    exact List.forall_mem_append.2 ⟨forall_of_move hP hd, ih hr⟩

end StateGraph

/-! ### The end of a run -/

namespace Reading

variable {a : Automaton} {inner : InnerScan} {r r' : Reading} {ls : List Lexeme} {c : Close}

/-- The inner scan keeps the name and the measures of its run when it is given text. -/
theorem feed_eq_ok {run run' : NestedScan Progress} {text : List Char}
    (h : run.feed inner (String.ofList text) = .ok run') :
    run'.id = run.id ∧ run'.interior = run.interior ∧ run'.hold = run.hold ∧
      run'.fed = run.fed + byteLength text := by
  rw [NestedScan.feed] at h
  split at h
  · next he =>
    cases h
    rw [String.isEmpty_iff, ← String.toList_inj, String.toList_ofList] at he
    rw [he]
    exact ⟨rfl, rfl, rfl, rfl⟩
  · obtain ⟨_, -, h⟩ := bind_eq_ok.1 h
    cases h
    exact ⟨rfl, rfl, rfl, by rw [Text.utf8ByteSize_eq, String.toList_ofList]⟩

/-- A nested run is given out in three parts, and the walk begins anew. -/
theorem exists_of_giveOut {pending : List Char} {idle : Array (Option Progress)}
    {run : NestedScan Progress} (h : giveOut inner pending idle run c = .ok (r', ls)) :
    ∃ opener interior terminator tokens idle', pending = opener ++ interior ++ terminator ∧
      byteLength opener = run.interior ∧ byteLength terminator = c.terminatorLength ∧
      r' = { idle := idle' } ∧ ls = [.nested opener interior terminator c tokens] := by
  obtain ⟨⟨before, terminator⟩, hback, h⟩ := bind_eq_ok.1 h
  obtain ⟨⟨_, unfed⟩, -, h⟩ := bind_eq_ok.1 h
  obtain ⟨run', hfeed, h⟩ := bind_eq_ok.1 h
  obtain ⟨⟨opener, interior⟩, hfront, h⟩ := bind_eq_ok.1 h
  obtain ⟨⟨scan, tokens⟩, -, h⟩ := bind_eq_ok.1 h
  cases h
  obtain ⟨rfl, hterminator⟩ := cutBack_eq_ok.1 hback
  obtain ⟨rfl, hopener⟩ := cutFront_eq_ok.1 hfront
  exact ⟨_, _, _, _, _, rfl, hopener.trans (feed_eq_ok hfeed).2.1, hterminator, rfl, rfl⟩

/-- A run whose terminator is escaped goes on in its body, and any other is given out. -/
theorem close_cases (h : r.close a inner c = .ok (r', ls)) :
    c.isEscaped r.pending = .ok true ∧ r' = { r with node := c.body } ∧ ls = [] ∨
      c.isEscaped r.pending = .ok false ∧ c.nested = none ∧
        r' = { run := r.run, idle := r.idle } ∧ ls = [.whole r.pending c] ∨
      c.isEscaped r.pending = .ok false ∧ ∃ id run idle, c.nested = some id ∧
        r.current a id = .ok (run, idle) ∧ giveOut inner r.pending idle run c = .ok (r', ls) := by
  obtain ⟨escaped, hescaped, h⟩ := bind_eq_ok.1 h
  cases escaped with
  | true =>
    cases h
    exact .inl ⟨hescaped, rfl, rfl⟩
  | false =>
    refine .inr ?_
    rw [if_neg Bool.false_ne_true] at h
    split at h
    · next hnone =>
      cases h
      exact .inl ⟨hescaped, hnone, rfl, rfl⟩
    · next id hid =>
      obtain ⟨⟨run, idle⟩, hcurrent, h⟩ := bind_eq_ok.1 h
      exact .inr ⟨hescaped, id, run, idle, hid, hcurrent, h⟩

end Reading

/-! ### No text is lost -/

theorem StateGraph.move_spelled {g : StateGraph} {c c' : Cursor} {s : Symbol} {ls : List Lexeme}
    (h : g.move c s = .ok (c', ls)) : spelled ls ++ c'.pending = c.pending ++ s.text := by
  rw [move] at h
  split at h
  · cases h; rfl
  · split at h
    · cases h; simp [Lexeme.text]
    · cases h

theorem StateGraph.retake_spelled {g : StateGraph} {c c' : Cursor} {text : List Char}
    {ls : List Lexeme} (h : g.retake c text = .ok (c', ls)) :
    spelled ls ++ c'.pending = c.pending ++ text := by
  induction text generalizing c ls with
  | nil => cases h; simp
  | cons d text ih =>
    obtain ⟨⟨c₁, out⟩, hm, h⟩ := bind_eq_ok.1 h
    obtain ⟨⟨c₂, outs⟩, hr, h⟩ := bind_eq_ok.1 h
    cases h
    have hd := move_spelled hm
    rw [spelled_append, List.append_assoc, ih hr, ← List.append_assoc, hd, List.append_assoc]
    rfl

namespace Reading

variable {a : Automaton} {inner : InnerScan} {r r' : Reading} {ls : List Lexeme}

theorem enter_toCursor (h : r.enter a = .ok r') : r'.toCursor = r.toCursor := by
  rw [enter] at h
  split at h
  · obtain ⟨_, -, h⟩ := bind_eq_ok.1 h
    cases h
    rfl
  · cases h
    rfl

theorem close_spelled {c : Close} (h : r.close a inner c = .ok (r', ls)) :
    spelled ls ++ r'.pending = r.pending := by
  rcases close_cases h with ⟨-, rfl, rfl⟩ | ⟨-, -, rfl, rfl⟩ | ⟨-, _, _, _, -, -, h⟩
  · rfl
  · simp [Lexeme.text]
  · obtain ⟨_, _, _, _, _, hpending, -, -, rfl, rfl⟩ := exists_of_giveOut h
    simp [Lexeme.text, hpending]

theorem settle_spelled (h : r.settle a inner = .ok (r', ls)) :
    spelled ls ++ r'.pending = r.pending := by
  rw [settle] at h
  split at h
  · cases h; rfl
  · cases h; rfl
  · cases h; simp [Lexeme.text]
  · exact close_spelled h

theorem act_spelled (h : r.act a inner = .ok (r', ls)) :
    spelled ls ++ r'.pending = r.pending := by
  rw [act] at h
  split at h
  · obtain ⟨⟨before, terminator⟩, hb, h⟩ := bind_eq_ok.1 h
    obtain ⟨⟨cursor, released⟩, hr, h⟩ := bind_eq_ok.1 h
    obtain ⟨⟨r₂, out⟩, hs, h⟩ := bind_eq_ok.1 h
    cases h
    have hs := settle_spelled hs
    have hr := StateGraph.retake_spelled hr
    simp only [List.nil_append] at hs hr
    rw [(cutBack_eq_ok.1 hb).1, ← hr, ← hs]
    simp [Lexeme.text]
  · exact settle_spelled h

theorem feed_toCursor (h : r.feed inner = .ok r') : r'.toCursor = r.toCursor := by
  rw [feed] at h
  split at h
  · cases h; rfl
  · split at h
    · obtain ⟨_, -, h⟩ := bind_eq_ok.1 h
      obtain ⟨_, -, h⟩ := bind_eq_ok.1 h
      cases h
      rfl
    · cases h; rfl

/-- What one symbol gives out and leaves pending is what was pending and the symbol. -/
theorem advance_spelled {s : Symbol} (h : r.advance a inner s = .ok (r', ls)) :
    spelled ls ++ r'.pending = r.pending ++ s.text := by
  obtain ⟨⟨c, released⟩, hm, h⟩ := bind_eq_ok.1 h
  obtain ⟨r₁, he, h⟩ := bind_eq_ok.1 h
  obtain ⟨⟨r₂, out⟩, ha, h⟩ := bind_eq_ok.1 h
  obtain ⟨r₃, hf, h⟩ := bind_eq_ok.1 h
  cases h
  have he := enter_toCursor he
  rw [← StateGraph.move_spelled hm, feed_toCursor hf, spelled_append, List.append_assoc,
    act_spelled ha, he]

/-- What a text gives out and leaves pending is what was pending and the text. -/
theorem read_spelled {text : List Char} (h : r.read a inner text = .ok (r', ls)) :
    spelled ls ++ r'.pending = r.pending ++ text := by
  induction text generalizing r ls with
  | nil => cases h; simp
  | cons c text ih =>
    obtain ⟨⟨r₁, out⟩, ha, h⟩ := bind_eq_ok.1 h
    obtain ⟨⟨r₂, outs⟩, hr, h⟩ := bind_eq_ok.1 h
    cases h
    rw [spelled_append, List.append_assoc, ih hr, ← List.append_assoc, advance_spelled ha,
      List.append_assoc]
    rfl

/-- At the end of input everything has been given out. -/
theorem finish_spelled (h : r.finish a inner = .ok (r', ls)) :
    spelled ls = r.pending ∧ r'.pending = [] := by
  obtain ⟨⟨r₁, out⟩, ha, h⟩ := bind_eq_ok.1 h
  cases h
  have ha := advance_spelled ha
  refine ⟨?_, ?_⟩
  · simpa [Lexeme.text, Symbol.text] using ha
  · rw [park]
    split <;> rfl

end Reading

end TrieLexer
