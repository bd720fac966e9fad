import TrieLexer.Proofs.Footing

/-!
# The buffer of a scan

Between two trims the buffer of a scan holds text that has been given out already, the pending
text, and text that is still to be read. A window says where in such a buffer a scan in reading
order stands. Every step of the running scan is the step in reading order seen through a window,
whatever the window holds before and behind, so neither trimming nor looking ahead changes a scan.

## Main definitions

* `Window` — what a buffer holds besides the pending text.
* `Window.progress` — a scan in reading order seen through a window.
* `Reading.at` — a scan between two calls, whose buffer holds the pending text alone.

## Main results

* `Reading.Sound.step_eq` — a step through a window.
* `Reading.Sound.scanWith_eq` — the running scan is the scan in reading order.
-/

namespace TrieLexer

open Text (byteLength)

/-- What a buffer holds besides the pending text, and the offset where it begins. -/
structure Window where
  base : Nat
  /-- The text that has been given out. -/
  done : List Char
  /-- The text that is still to be read. -/
  ahead : List Char

/-- A run whose offsets count from `offset` bytes before. -/
def NestedScan.forward {γ : Type} (run : NestedScan γ) (offset : Nat) : NestedScan γ :=
  { run with interior := offset + run.interior, fed := offset + run.fed }

namespace Window

/-- The offset of the pending text in the whole input. -/
def position (w : Window) : Nat := w.base + byteLength w.done

/-- A scan in reading order seen through a window. -/
def progress (w : Window) (r : Reading) : Progress where
  node := r.node
  buffer := String.ofList (w.done ++ (r.pending ++ w.ahead))
  base := w.base
  position := w.position
  run := r.run.map (·.forward w.position)
  idle := r.idle

/-- The window after lexemes have been given out. -/
def after (w : Window) (ls : List Lexeme) : Window := { w with done := w.done ++ spelled ls }

@[simp] theorem after_nil (w : Window) : w.after [] = w := by
  rw [after, spelled_nil, List.append_nil]

theorem after_append (w : Window) (ls ms : List Lexeme) :
    w.after (ls ++ ms) = (w.after ls).after ms := by
  rw [after, spelled_append, ← List.append_assoc]
  rfl

theorem length_after (w : Window) (ls : List Lexeme) :
    byteLength (w.after ls).done = byteLength w.done + byteLength (spelled ls) :=
  Text.byteLength_append ..

theorem position_after (w : Window) (ls : List Lexeme) :
    (w.after ls).position = w.position + byteLength (spelled ls) := by
  rw [position, after, Text.byteLength_append, ← Nat.add_assoc]
  rfl

/-- The window before a text is read. -/
def before (w : Window) (text : List Char) : Window := { w with ahead := text ++ w.ahead }

variable {τ : Type} (sink : Sink τ)

/-- A scan and its lexemes seen through a window. -/
def deliver (w : Window) (out : τ) (x : Reading × List Lexeme) : Progress × τ :=
  ((w.after x.2).progress x.1, (listing w.position x.2).foldl sink out)

@[simp] theorem deliver_nil (w : Window) (out : τ) (r : Reading) :
    w.deliver sink out (r, []) = (w.progress r, out) := by
  simp only [deliver, after_nil, listing_nil, List.foldl_nil]

/-- Earlier and later lexemes are delivered one after the other. -/
theorem deliver_append (w : Window) (out : τ) (r : Reading) (ls ms : List Lexeme) :
    w.deliver sink out (r, ls ++ ms) =
      (w.after ls).deliver sink ((listing w.position ls).foldl sink out) (r, ms) := by
  simp only [deliver, after_append, listing_append, List.foldl_append, position_after]

end Window

variable {τ : Type} (sink : Sink τ)

/-! ### Cutting the buffer -/

theorem Progress.stretch_eq {p : Progress} {u s : List Char}
    (hp : p.buffer = String.ofList (u ++ s)) (n : Nat) :
    p.stretch (byteLength u) (byteLength u + n) =
      (fun x => String.ofList x.1) <$> cutFront n s := by
  rw [Progress.stretch, hp, Text.span?_ofList_append, cutFront]
  cases Text.splitBytes? n s <;> rfl

theorem Progress.isSpan_iff (p : Progress) (start stop : Nat) :
    Text.IsSpan p.buffer start stop ↔ ∃ text, p.stretch start stop = .ok text := by
  simp only [stretch, Text.span?]
  by_cases h : Text.IsSpan p.buffer start stop
  · simp [h]
  · simp [h]

theorem Progress.advanceTo_eq {p : Progress} {n : Nat} (h : p.position ≤ n) :
    p.advanceTo n = .ok { p with position := n } := if_pos h

theorem difference_add (m n : Nat) : difference (m + n) m = .ok n := by
  rw [difference, if_pos (Nat.le_add_right ..), Nat.add_sub_cancel_left]

theorem cutFront_append {n : Nat} {s : List Char} (h : n ≤ byteLength s) (v : List Char) :
    cutFront n (s ++ v) = (fun x => (x.1, x.2 ++ v)) <$> cutFront n s := by
  rw [cutFront, Text.splitBytes?_append_left h, cutFront]
  cases Text.splitBytes? n s <;> rfl

theorem cutFront_eq_error {n : Nat} {s : List Char} {e : ScanFault} (h : cutFront n s = .error e) :
    e = .misplacedCut := by
  rw [cutFront] at h
  split at h <;> cases h
  rfl

theorem cutFront_length (s : List Char) : cutFront (byteLength s) s = .ok (s, []) :=
  cutFront_eq_ok.2 ⟨(List.append_nil s).symm, rfl⟩

theorem Progress.emit_eq (p : Progress) (out : τ) (text : List Char) (label : Option Label) :
    p.emit sink out (String.ofList text) label =
      ({ p with position := p.position + byteLength text },
        (tokenAt p.position text label).foldl sink out) := by
  have hsize : (String.ofList text).utf8ByteSize = byteLength text := by
    rw [Text.utf8ByteSize_eq, String.toList_ofList]
  have hempty : (String.ofList text).isEmpty = text.isEmpty := by
    rw [Bool.eq_iff_iff, String.isEmpty_iff, ← String.toList_inj, String.toList_ofList,
      List.isEmpty_iff]
    rfl
  cases label with
  | none => simp only [emit, hsize, tokenAt, List.foldl_nil]
  | some kind =>
    simp only [emit, hsize, hempty, tokenAt]
    split <;> rfl

/-- A stretch within the text behind a front is cut off at both ends. -/
theorem Progress.stretch_between {p : Progress} {u s : List Char}
    (hp : p.buffer = String.ofList (u ++ s)) {i k : Nat} (hik : i ≤ k) :
    p.stretch (byteLength u + i) (byteLength u + k) = (do
      let (front, _) ← cutFront k s
      let (_, text) ← cutFront i front
      return String.ofList text) := by
  cases hi : Text.splitBytes? i s with
  | some x =>
    obtain ⟨rfl, rfl⟩ := Text.splitBytes?_eq_some_iff.1 hi
    obtain ⟨n, rfl⟩ := Nat.exists_eq_add_of_le hik
    rw [← List.append_assoc] at hp
    have h := Progress.stretch_eq hp n
    rw [Text.byteLength_append, Nat.add_assoc] at h
    rw [h, cutFront, cutFront, Text.splitBytes?_append_right]
    cases hn : Text.splitBytes? n x.2 with
    | none => rfl
    | some y =>
      change _ = cutFront (byteLength x.1) (x.1 ++ y.1) >>= _
      rw [cutFront_eq_ok.2 ⟨rfl, rfl⟩]
      rfl
  | none =>
    have hspan : Text.span? p.buffer (byteLength u + i) (byteLength u + k) = none := by
      rw [Option.eq_none_iff_forall_ne_some]
      intro t ht
      rw [hp] at ht
      have hvalid := (Option.dite_none_right_eq_some.1 ht).1.2.1
      rw [Text.isValid_ofList_iff, Text.splitBytes?_append_right, hi] at hvalid
      cases hvalid
    rw [Progress.stretch, hspan]
    cases hk : cutFront k s with
    | error e => rw [cutFront_eq_error hk]; rfl
    | ok x =>
      obtain ⟨rfl, hk⟩ := cutFront_eq_ok.1 (show cutFront k s = .ok (x.1, x.2) from hk)
      change _ = cutFront i x.1 >>= _
      rw [Text.splitBytes?_append_left (by omega), Option.map_eq_none_iff] at hi
      rw [cutFront, hi]
      rfl

namespace Window

variable (w : Window) (r : Reading)

@[simp] theorem tokenStart_progress : (w.progress r).tokenStart = .ok (byteLength w.done) :=
  difference_add w.base _

/-- Text is given out up to an offset in the pending text or behind it. -/
theorem send_progress (out : τ) (n : Nat) (label : Option Label) :
    (w.progress r).send sink out (byteLength w.done + n) label =
      (fun x => ({ w.progress r with node := .root, position := w.position + n },
        (tokenAt w.position x.1 label).foldl sink out)) <$> cutFront n (r.pending ++ w.ahead) := by
  rw [Progress.send, tokenStart_progress]
  change ((w.progress r).stretch _ _ >>= _) = _
  rw [Progress.stretch_eq rfl]
  cases h : cutFront n (r.pending ++ w.ahead) with
  | error e => rfl
  | ok x =>
    have hx := (cutFront_eq_ok.1 (show cutFront n _ = .ok (x.1, x.2) from h)).2
    have he := (w.progress r).emit_eq sink out x.1 label
    rw [hx] at he
    exact congrArg (fun y => Except.ok ({ y.1 with node := .root }, y.2)) he

/-- Lexemes move from the pending text into the text that has been given out. -/
theorem progress_after (r' : Reading) (ls : List Lexeme) (text : List Char)
    (hpending : spelled ls ++ r'.pending = r.pending ++ text)
    (hrun : r'.run = r.run) (hidle : r'.idle = r.idle) (hls : ls = [] ∨ r.run = none) :
    (w.after ls).progress r' =
      { (w.before text).progress r with
        node := r'.node, position := w.position + byteLength (spelled ls) } := by
  have hbuffer : w.done ++ spelled ls ++ (r'.pending ++ w.ahead) =
      w.done ++ (r.pending ++ (text ++ w.ahead)) := by
    rw [List.append_assoc, ← List.append_assoc (spelled ls), hpending, List.append_assoc]
  rw [progress, position_after, hrun, hidle]
  change Progress.mk _ (String.ofList (w.done ++ spelled ls ++ (r'.pending ++ w.ahead))) _ _ _ _ = _
  rw [hbuffer]
  rcases hls with rfl | hnone
  · rfl
  · simp only [progress, hnone]
    rfl

/-- The end of the pending text is cut out of a buffer that holds it. -/
theorem stretch_back {p : Progress} (hp : p.buffer = (w.progress r).buffer)
    {before back : List Char} (hpending : r.pending = before ++ back) :
    p.stretch (byteLength w.done + byteLength before) (byteLength w.done + byteLength r.pending) =
      .ok (String.ofList back) := by
  rw [Progress.stretch_between hp (by rw [hpending, Text.byteLength_append]; omega),
    cutFront_append (Nat.le_refl _), cutFront_length, map_ok, ok_bind]
  change cutFront _ r.pending >>= _ = _
  rw [hpending, cutFront_eq_ok.2 ⟨rfl, rfl⟩]
  rfl

/-- The front of the pending text is given out, and the rest is still to be read from the root. -/
theorem sendFront_eq (out : τ) (label : Label) {front rest : List Char} (hnone : r.run = none)
    (hpending : r.pending = front ++ rest) :
    (w.progress r).send sink out (byteLength w.done + byteLength front) (some label) =
      .ok (((w.after [.plain front (some label)]).before rest).progress { r with toCursor := {} },
        (tokenAt w.position front (some label)).foldl sink out) := by
  have hafter := (w.before rest).progress_after { r with pending := front }
    { r with toCursor := {} } [.plain front (some label)] []
    (by simp [Lexeme.text]) rfl rfl (.inr hnone)
  rw [spelled_cons, spelled_nil, List.append_nil] at hafter
  rw [send_progress, hpending, List.append_assoc, cutFront_eq_ok.2 ⟨rfl, rfl⟩, map_ok]
  refine congrArg (fun p => Except.ok (p, _)) (Eq.trans ?_ hafter.symm)
  simp only [progress, before, hpending, Lexeme.text, List.append_assoc, List.nil_append]
  rfl

end Window

/-! ### The walk -/

variable {a : Automaton} {r : Reading} (w : Window)

/-- A symbol moves the walk alike through every window. -/
theorem Window.transition_eq (out : τ) (s : Symbol)
    (hrun : ∀ c ls, a.move r.toCursor s = .ok (c, ls) → ls = [] ∨ r.run = none) :
    a.transition sink ((w.before s.text).progress r) out s
        (byteLength w.done + byteLength r.pending) =
      (fun x => w.deliver sink out ({ r with toCursor := x.1 }, x.2)) <$>
        a.move r.toCursor s := by
  have hafter {c : Cursor} {ls : List Lexeme} (hm : a.move r.toCursor s = .ok (c, ls)) :
      (w.after ls).progress { r with toCursor := c } =
        { (w.before s.text).progress r with
          node := c.node, position := w.position + byteLength (spelled ls) } :=
    w.progress_after r _ ls s.text (StateGraph.move_spelled (c := r.toCursor) hm) rfl rfl
      (hrun c ls hm)
  rw [Automaton.transition]
  cases hr : a.resolve r.node s with
  | node n =>
    have hm : a.move r.toCursor s = .ok (⟨n, r.pending ++ s.text⟩, []) := by
      rw [StateGraph.move, hr]
    have hr' : a.resolve ((w.before s.text).progress r).node s = .node n := hr
    rw [hm, hr']
    exact congrArg (fun p => Except.ok (p, out)) (hafter hm).symm
  | release label =>
    have hr' : a.resolve ((w.before s.text).progress r).node s = .release label := hr
    have hsend := (w.before s.text).send_progress sink r out (byteLength r.pending)
      (some label)
    rw [cutFront_append (Nat.le_refl _), cutFront_length] at hsend
    rw [hr', StateGraph.move, hr]
    change (Progress.send sink _ out (byteLength (w.before s.text).done + _) _ >>= _) = _
    rw [hsend]
    cases hroot : a.resolve .root s with
    | node n =>
      have hm : a.move r.toCursor s = .ok (⟨n, s.text⟩, [.plain r.pending (some label)]) := by
        simp only [StateGraph.move, hr, hroot]
      have hp := hafter hm
      rw [spelled_cons, spelled_nil, List.append_nil] at hp
      refine (congrArg Except.ok (Prod.ext hp ?_)).symm
      exact congrArg (List.foldl sink out) (List.append_nil _)
    | release other => rfl

/-- A terminator is taken again from the root alike through every window. -/
theorem Window.replay_eq (out : τ) (text : List Char) (hrun : r.run = none) :
    a.replay sink ((w.before text).progress r) out
        (byteLength w.done + byteLength r.pending) text =
      (fun x => w.deliver sink out ({ r with toCursor := x.1 }, x.2)) <$>
        a.retake r.toCursor text := by
  induction text generalizing w r out with
  | nil =>
    exact congrArg Except.ok (w.deliver_nil sink out r).symm
  | cons d text ih =>
    have hmove := (w.before text).transition_eq sink (a := a) out (.char d)
      fun _ _ _ => .inr hrun
    rw [Automaton.replay, StateGraph.retake]
    change (a.transition sink (((w.before text).before (Symbol.char d).text).progress r) out _
      (byteLength (w.before text).done + byteLength r.pending) >>= _) = _
    rw [hmove]
    cases hm : a.move r.toCursor (.char d) with
    | error e => rfl
    | ok x =>
      obtain ⟨c, ls⟩ := x
      have hlength := congrArg byteLength (StateGraph.move_spelled hm)
      simp only [Text.byteLength_append, Symbol.text, Text.byteLength_cons,
        Text.byteLength_nil] at hlength
      have hstart : byteLength w.done + byteLength r.pending + d.utf8Size =
          byteLength (w.after ls).done + byteLength c.pending := by
        rw [length_after]
        omega
      have hrest := ih (r := { r with toCursor := c }) (w.after ls)
        ((listing w.position ls).foldl sink out) hrun
      rw [← hstart] at hrest
      refine hrest.trans ?_
      change _ = _ <$> (a.retake c text >>= fun y => pure (y.1, ls ++ y.2))
      cases a.retake c text with
      | error e => rfl
      | ok y => exact congrArg Except.ok (w.deliver_append sink out _ ls y.2).symm

/-! ### Runs -/

theorem Automaton.wake_forward (idle : Array (Option Progress)) (id : RunId) (start : Nat) :
    a.wake idle id start = (fun x => (x.1.forward start, x.2)) <$> a.wake idle id 0 := by
  rw [wake, wake]
  split
  · rfl
  · refine congrArg Except.ok ?_
    simp only [NestedScan.forward, Nat.zero_add]

theorem NestedScan.feed_forward {inner : InnerScan} (run : NestedScan Progress) (offset : Nat)
    (text : String) :
    (run.forward offset).feed inner text = (·.forward offset) <$> run.feed inner text := by
  rw [feed, feed]
  split
  · rfl
  · change (inner run.id run.scan run.tokens _ >>= _) =
      _ <$> (inner run.id run.scan run.tokens _ >>= _)
    cases inner run.id run.scan run.tokens (.chunk text) with
    | error e => rfl
    | ok x =>
      refine congrArg Except.ok ?_
      simp only [NestedScan.forward, Nat.add_assoc]

/-- A body is entered alike through every window. -/
theorem Window.openRun_eq : a.openRun (w.progress r) = w.progress <$> r.enter a := by
  obtain ⟨c, run, idle⟩ := r
  cases run with
  | some run => rfl
  | none =>
    cases hid : (a.behaviour c.node).run with
    | none =>
      have hid' : (a.behaviour (w.progress ⟨c, none, idle⟩).node).run = none := hid
      simp only [Automaton.openRun, Reading.enter, hid, hid']
      rfl
    | some id =>
      simp only [Automaton.openRun, Reading.enter, hid, Window.progress, Option.map_none]
      change (a.wake idle id w.position >>= _) >>= _ = _ <$> (a.wake idle id 0 >>= _)
      rw [Automaton.wake_forward]
      cases a.wake idle id 0 <;> rfl

theorem Window.takeRun_eq (id : RunId) :
    a.takeRun (w.progress r) id =
      (fun x => (x.1.forward w.position, w.progress { r with run := none, idle := x.2 })) <$>
        r.current a id := by
  obtain ⟨c, run, idle⟩ := r
  cases run with
  | some run => rfl
  | none =>
    change (a.wake idle id w.position >>= _) = _ <$> a.wake idle id 0
    rw [Automaton.wake_forward]
    cases a.wake idle id 0 <;> rfl

/-- Whether a terminator is escaped is seen alike through every window. -/
theorem Window.isEscaped_eq {c : Close}
    (hle : c.openerLength + c.terminatorLength ≤ byteLength r.pending) :
    (w.progress r).isEscaped c
        (byteLength w.done + (byteLength r.pending - c.terminatorLength)) =
      c.isEscaped r.pending := by
  rw [Progress.isEscaped, Close.isEscaped]
  cases c.escape with
  | none => rfl
  | some escape =>
    obtain ⟨k, hk⟩ : ∃ k, k = byteLength r.pending - c.terminatorLength := ⟨_, rfl⟩
    have hopener : c.openerLength ≤ k := by omega
    have hspan := (w.progress r).isSpan_iff (byteLength w.done + c.openerLength)
      (byteLength w.done + k)
    rw [Progress.stretch_between rfl hopener, cutFront_append (by omega)] at hspan
    rw [← hk, Window.tokenStart_progress, cutBack, if_pos (by omega), ← hk]
    change (if Text.IsSpan _ (min (byteLength w.done + c.openerLength) _) _ then _ else _) = _
    rw [Nat.min_eq_left (Nat.add_le_add_left hopener _)]
    cases hfront : cutFront k r.pending with
    | error e =>
      obtain rfl := cutFront_eq_error hfront
      rw [hfront] at hspan
      rw [if_neg fun h => by rcases hspan.1 h with ⟨_, ⟨⟩⟩]
      rfl
    | ok x =>
      obtain ⟨hpending, hlength⟩ :=
        cutFront_eq_ok.1 (show cutFront k _ = .ok (x.1, x.2) from hfront)
      rw [hfront] at hspan
      change _ ↔ ∃ text, cutFront c.openerLength x.1 >>= _ = .ok text at hspan
      change _ = cutFront c.openerLength x.1 >>= _
      cases hcut : cutFront c.openerLength x.1 with
      | error e =>
        obtain rfl := cutFront_eq_error hcut
        rw [hcut] at hspan
        rw [if_neg fun h => by rcases hspan.1 h with ⟨_, ⟨⟩⟩]
        rfl
      | ok y =>
        obtain ⟨hx, hy⟩ := cutFront_eq_ok.1 (show cutFront _ x.1 = .ok (y.1, y.2) from hcut)
        rw [hcut] at hspan
        rw [if_pos (hspan.2 ⟨_, rfl⟩)]
        have hrow := Text.rowBefore_ofList (w.done ++ y.1) y.2.reverse (x.2 ++ w.ahead) escape
        have hbuffer : w.done ++ y.1 ++ y.2.reverse.reverse ++ (x.2 ++ w.ahead) =
            w.done ++ (r.pending ++ w.ahead) := by simp [hpending, hx]
        rw [hbuffer, Text.byteLength_reverse, Text.byteLength_append, hy, Nat.add_assoc] at hrow
        rw [hx, Text.byteLength_append, hy] at hlength
        rw [show byteLength y.2 = k - c.openerLength by omega,
          show c.openerLength + (k - c.openerLength) = k by omega] at hrow
        rw [Nat.add_sub_add_left]
        exact congrArg (fun n : Nat => Except.ok (n % 2 == 1)) hrow

/-- The inner scan of a run is given the same text through every window. -/
theorem Window.feedTo_eq {inner : InnerScan} (run : NestedScan Progress) {k : Nat}
    (hk : k ≤ byteLength r.pending) :
    (w.progress r).feedTo inner (run.forward w.position) (byteLength w.done + k) =
      (·.forward w.position) <$> if run.fed < k then do
        let (front, _) ← cutFront k r.pending
        let (_, text) ← cutFront run.fed front
        run.feed inner (String.ofList text)
      else pure run := by
  have hstart : difference (run.forward w.position).fed (w.progress r).base =
      .ok (byteLength w.done + run.fed) := by
    rw [← difference_add w.base, ← Nat.add_assoc]
    rfl
  rw [Progress.feedTo, hstart]
  change (if _ then _ else _) = _
  by_cases hlt : run.fed < k
  · rw [if_pos hlt, if_pos (Nat.add_lt_add_left hlt _)]
    rw [Progress.stretch_between rfl (Nat.le_of_lt hlt), cutFront_append hk]
    cases cutFront k r.pending with
    | error e => rfl
    | ok x =>
      change (cutFront run.fed x.1 >>= _) >>= _ = _ <$> (cutFront run.fed x.1 >>= _)
      cases cutFront run.fed x.1 with
      | error e => rfl
      | ok y => exact run.feed_forward _ _
  · rw [if_neg hlt, if_neg fun h => hlt (Nat.lt_of_add_lt_add_left h)]
    rfl

/-- The parts of a run are given out alike through every window. -/
theorem Window.giveOut_eq (inner : InnerScan) (out : τ) (run : NestedScan Progress) {c : Close}
    {before terminator : List Char} (hnone : r.run = none)
    (hpending : r.pending = before ++ terminator) (hinterior : run.interior ≤ byteLength before) :
    (w.progress r).giveOut sink inner out (run.forward w.position) c
        (byteLength w.done + byteLength before) (byteLength w.done + byteLength r.pending) =
      w.deliver sink out <$> Reading.handOver inner before terminator r.idle run c := by
  have hstart : difference (run.forward w.position).interior (w.progress r).base =
      .ok (byteLength w.done + run.interior) := by
    rw [← difference_add w.base, ← Nat.add_assoc]
    rfl
  have hopener : (w.progress r).stretch (byteLength w.done) (byteLength w.done + run.interior) =
      (fun x => String.ofList x.1) <$> cutFront run.interior before := by
    rw [Progress.stretch_eq rfl, hpending, List.append_assoc, cutFront_append hinterior]
    cases cutFront run.interior before <;> rfl
  rw [Progress.giveOut, Reading.handOver, tokenStart_progress, hstart]
  change (Progress.stretch _ _ _ >>= _) = _
  rw [hopener]
  cases hcut : cutFront run.interior before with
  | error e => rfl
  | ok x =>
    obtain ⟨hbefore, hlength⟩ :=
      cutFront_eq_ok.1 (show cutFront _ before = .ok (x.1, x.2) from hcut)
    simp only [ok_bind, map_ok, NestedScan.finish, bind_assoc, pure_bind, Progress.emit_eq]
    change inner run.id run.scan run.tokens .done >>= _ = _
    cases inner run.id run.scan run.tokens .done with
    | error e => rfl
    | ok y =>
      have hp : w.position + byteLength x.1 ≤ w.base + (byteLength w.done + byteLength before) := by
        rw [← Nat.add_assoc]
        exact Nat.add_le_add_left (hlength ▸ hinterior) _
      rw [ok_bind, Progress.advanceTo_eq hp, ok_bind]
      rw [w.stretch_back r ?buffer hpending, ok_bind, Progress.emit_eq]
      · have hparts : r.pending = x.1 ++ x.2 ++ terminator := by rw [hpending, hbefore]
        have hposition : (w.progress r).base + (byteLength w.done + byteLength before) =
            w.position + byteLength (x.1 ++ x.2) := by rw [← Nat.add_assoc, hbefore]; rfl
        have hafter := w.progress_after { r with idle := r.idle.setIfInBounds run.id y.1 }
          { idle := r.idle.setIfInBounds run.id y.1 } [.nested x.1 x.2 terminator c y.2.toList] []
          (by simp [Lexeme.text, hparts]) hnone.symm rfl (.inr hnone)
        refine congrArg Except.ok (Prod.ext (Eq.trans ?_ hafter.symm) ?_)
        · rw [hposition]
          simp only [spelled_cons, spelled_nil, List.append_nil, Lexeme.text,
            Text.byteLength_append, Nat.add_assoc]
          rfl
        · rw [hposition, ← Array.foldl_toList, Array.toList_map]
          change _ = (listing w.position [.nested x.1 x.2 terminator c y.2.toList]).foldl sink out
          simp only [listing_cons, listing_nil, List.append_nil, Lexeme.tokens, List.foldl_append,
            hlength]
          rfl
      · rfl

/-- A run ends alike through every window. -/
theorem Window.finishRun_eq (inner : InnerScan) (out : τ) {run : NestedScan Progress} {c : Close}
    (hnone : r.run = none) (hinterior : run.interior ≤ run.fed)
    (hfed : run.fed + c.terminatorLength ≤ byteLength r.pending)
    (hcut : run.fed = run.interior ∨
      ∃ front rest, r.pending = front ++ rest ∧ byteLength front = run.fed) :
    (w.progress r).finishRun sink inner out (run.forward w.position) c
        (byteLength w.done + (byteLength r.pending - c.terminatorLength))
        (byteLength w.done + byteLength r.pending) =
      w.deliver sink out <$> Reading.giveOut inner r.pending r.idle run c := by
  obtain ⟨k, hk⟩ : ∃ k, k = byteLength r.pending - c.terminatorLength := ⟨_, rfl⟩
  rw [Progress.finishRun, Reading.giveOut, cutBack, if_pos (by omega), ← hk,
    Window.feedTo_eq _ _ (by omega)]
  cases hfront : cutFront k r.pending with
  | error e =>
    obtain rfl := cutFront_eq_error hfront
    split
    · rfl
    · have hint : run.interior = k := by
        rcases hcut with hcut | ⟨front, rest, hpending, hlength⟩
        · omega
        · have hok := cutFront_eq_ok.2 ⟨hpending, (by omega : byteLength front = k)⟩
          rw [hfront] at hok
          cases hok
      have hstart : difference (run.forward w.position).interior (w.progress r).base =
          .ok (byteLength w.done + run.interior) := by
        rw [← difference_add w.base, ← Nat.add_assoc]
        rfl
      have hopener : (w.progress r).stretch (byteLength w.done) (byteLength w.done + run.interior) =
          .error .misplacedCut := by
        rw [Progress.stretch_eq rfl, hint, cutFront_append (by omega), hfront]
        rfl
      change Progress.giveOut sink inner (w.progress r) out (run.forward w.position) c _ _ = _
      rw [Progress.giveOut, tokenStart_progress, ok_bind, hstart, ok_bind, hopener]
      rfl
  | ok x =>
    obtain ⟨hpending, hlength⟩ := cutFront_eq_ok.1 (show cutFront k _ = .ok (x.1, x.2) from hfront)
    have hgive (run' : NestedScan Progress) (h : run'.interior = run.interior) :=
      w.giveOut_eq sink inner out run' (c := c) hnone hpending (by omega)
    have hfeed : (if run.fed < k then do
        let (front, _) ← (.ok x : Except ScanFault (List Char × List Char))
        let (_, text) ← cutFront run.fed front
        run.feed inner (String.ofList text)
      else pure run) = (do
        let (_, unfed) ← cutFront run.fed x.1
        run.feed inner (String.ofList unfed)) := by
      split
      · rfl
      · rw [show run.fed = byteLength x.1 by omega, cutFront_length]
        rfl
    rw [hfeed]
    change _ = _ <$> (cutFront run.fed x.1 >>= fun y => run.feed inner (String.ofList y.2) >>= _)
    cases cutFront run.fed x.1 with
    | error e => rfl
    | ok y =>
      simp only [ok_bind]
      cases hf : run.feed inner (String.ofList y.2) with
      | error e => rfl
      | ok run' =>
        rw [map_ok, ok_bind, ok_bind, ← hlength]
        exact hgive run' (Reading.feed_eq_ok hf).2.1

/-! ### What a node does -/

/-- All pending text is given out alike through every window. -/
theorem Window.sendAll_eq (out : τ) (l : Lexeme) (label : Option Label) (hnone : r.run = none)
    (htext : l.text = r.pending)
    (htokens : l.tokens w.position = tokenAt w.position r.pending label) :
    (w.progress r).send sink out (byteLength w.done + byteLength r.pending) label =
      .ok (w.deliver sink out ({ run := r.run, idle := r.idle }, [l])) := by
  rw [send_progress, cutFront_append (Nat.le_refl _), cutFront_length]
  refine congrArg Except.ok (Prod.ext ?_ ?_)
  · have hafter := w.progress_after r { run := r.run, idle := r.idle } [l] []
      (by simp [htext]) rfl rfl (.inr hnone)
    rw [spelled_cons, spelled_nil, List.append_nil, htext] at hafter
    exact hafter.symm
  · change _ = (listing w.position [l]).foldl sink out
    rw [listing_cons, listing_nil, List.append_nil, htokens]

section

variable {lexicon : Lexicon} {matchers : List (GreedyMatcher Compilation)} {place : NodeId → Locus}
  {slack : Nat} (inner : InnerScan)

/-- A greedy run ends alike through every window. -/
theorem Reading.Poised.endRun_eq (hr : r.Poised a place slack)
    (h : Charted lexicon matchers a place) {c : Close}
    (hc : (a.behaviour r.node).action = .close c) (out : τ) :
    a.endRun sink inner (w.progress r) out c (byteLength w.done + byteLength r.pending) =
      w.deliver sink out <$> r.close a inner c := by
  have hle := hr.close_le h hc
  have hterm : difference (byteLength w.done + byteLength r.pending) c.terminatorLength =
      .ok (byteLength w.done + (byteLength r.pending - c.terminatorLength)) := by
    rw [difference, if_pos (by omega), Nat.add_sub_assoc (by omega)]
  rw [Automaton.endRun, Reading.close, hterm, ok_bind, w.isEscaped_eq hle]
  cases c.isEscaped r.pending with
  | error e => rfl
  | ok escaped =>
    rw [ok_bind, ok_bind]
    cases escaped with
    | true => exact congrArg Except.ok (w.deliver_nil sink out { r with node := c.body }).symm
    | false =>
      cases hid : c.nested with
      | none =>
        have hnone : r.run = none := by
          cases hrun : r.run with
          | none => rfl
          | some run => cases hid.symm.trans (hr.nested_of_run h hrun hc).1
        exact w.sendAll_eq sink out (.whole r.pending c) (some c.label) hnone rfl rfl
      | some id =>
        change a.takeRun (w.progress r) id >>= _ = _ <$> (r.current a id >>= _)
        rw [w.takeRun_eq]
        cases hrun : r.current a id with
        | error e => rfl
        | ok x =>
          obtain ⟨run, idle⟩ := x
          obtain ⟨-, hint, hfed, hcut⟩ := hr.current h hc hid hrun
          exact w.finishRun_eq sink inner (r := { r with run := none, idle }) out rfl hint hfed hcut

/-- What a node does is the same through every window, the end of open-ended tokens apart. -/
theorem Reading.Poised.settle_eq (hr : r.Poised a place slack)
    (h : Charted lexicon matchers a place) (out : τ) :
    a.settle sink inner (w.progress r) out (byteLength w.done + byteLength r.pending) =
      w.deliver sink out <$> r.settle a inner := by
  rw [Automaton.settle, Reading.settle]
  cases hc : (a.behaviour r.node).action with
  | none =>
    have hc' : (a.behaviour (w.progress r).node).action = .none := hc
    rw [hc']
    exact congrArg Except.ok (w.deliver_nil sink out r).symm
  | boundary label length =>
    have hc' : (a.behaviour (w.progress r).node).action = .boundary label length := hc
    rw [hc']
    exact congrArg Except.ok (w.deliver_nil sink out r).symm
  | literal label =>
    have hc' : (a.behaviour (w.progress r).node).action = .literal label := hc
    rw [hc']
    exact w.sendAll_eq sink out (.plain r.pending (label.or a.unnamed)) _
      (hr.run_eq_none_of_literal h hc) rfl rfl
  | close c =>
    have hc' : (a.behaviour (w.progress r).node).action = .close c := hc
    rw [hc']
    exact hr.endRun_eq sink w inner h hc out

/-- A terminator that is taken again from the root acts alike through every window. -/
theorem Reading.Poised.retake_settle_eq (hr : r.Poised a place slack)
    (h : Charted lexicon matchers a place) {label : Label} {length : Nat}
    (hb : (a.behaviour r.node).action = .boundary label length) (out : τ)
    (terminator : List Char) :
    (a.replay sink ((w.before terminator).progress { r with toCursor := {} }) out
        (byteLength w.done) terminator >>= fun x =>
      a.settle sink inner x.1 x.2 (byteLength w.done + byteLength terminator)) =
      w.deliver sink out <$> (a.retake {} terminator >>= fun x =>
        Reading.settle a inner { r with toCursor := x.1 } >>= fun y =>
          pure (y.1, x.2 ++ y.2)) := by
  have hreplay := w.replay_eq sink (a := a) (r := { r with toCursor := {} }) out
    terminator (hr.run_eq_none (h.boundary_not_isBody hb))
  refine (congrArg (· >>= _) hreplay).trans ?_
  change (_ <$> a.retake {} terminator) >>= _ = _
  cases hm : a.retake {} terminator with
  | error e => rfl
  | ok x =>
    obtain ⟨c, ls⟩ := x
    have hspelled := congrArg byteLength (StateGraph.retake_spelled hm)
    have hstop : byteLength w.done + byteLength terminator =
        byteLength (w.after ls).done + byteLength c.pending := by
      rw [List.nil_append, Text.byteLength_append] at hspelled
      rw [Window.length_after, ← hspelled, Nat.add_assoc]
    rw [map_ok, ok_bind, ok_bind, hstop]
    refine ((hr.retake h hb hm).settle_eq sink (w.after ls) inner h _).trans ?_
    cases Reading.settle a inner { r with toCursor := c } with
    | error e => rfl
    | ok y => exact congrArg Except.ok (w.deliver_append sink out y.1 ls y.2).symm

/-- What a node does is the same through every window. -/
theorem Reading.Poised.fire_eq (hr : r.Poised a place slack)
    (h : Charted lexicon matchers a place) (out : τ) :
    a.fire sink inner (w.progress r) out (byteLength w.done + byteLength r.pending) =
      w.deliver sink out <$> r.act a inner := by
  rw [Automaton.fire, Reading.act]
  cases hc : (a.behaviour r.node).action with
  | none =>
    have hc' : (a.behaviour (w.progress r).node).action = .none := hc
    rw [hc']
    exact hr.settle_eq sink w inner h out
  | literal label =>
    have hc' : (a.behaviour (w.progress r).node).action = .literal label := hc
    rw [hc']
    exact hr.settle_eq sink w inner h out
  | close c =>
    have hc' : (a.behaviour (w.progress r).node).action = .close c := hc
    rw [hc']
    exact hr.settle_eq sink w inner h out
  | boundary label length =>
    have hc' : (a.behaviour (w.progress r).node).action = .boundary label length := hc
    have hlength := Nat.le_trans (h.boundary_length_le hc) hr.grounded
    have hnone := hr.run_eq_none (h.boundary_not_isBody hc)
    obtain ⟨k, hk⟩ : ∃ k, k = byteLength r.pending - length := ⟨_, rfl⟩
    have hcut : difference (byteLength w.done + byteLength r.pending) length =
        .ok (byteLength w.done + k) := by
      rw [difference, if_pos (by omega), Nat.add_sub_assoc (by omega), hk]
    rw [hc']
    change difference _ _ >>= _ = _ <$> (cutBack length r.pending >>= _)
    rw [hcut, ok_bind, cutBack, if_pos hlength, ← hk]
    cases hfront : cutFront k r.pending with
    | error e =>
      rw [w.send_progress, cutFront_append (by omega), hfront]
      rfl
    | ok x =>
      obtain ⟨before, terminator⟩ := x
      obtain ⟨hpending, hbefore⟩ := cutFront_eq_ok.1 hfront
      have hbuffer : (((w.after [.plain before (some label)]).before terminator).progress
          { r with toCursor := {} }).buffer = (w.progress r).buffer := by
        simp [Window.progress, Window.before, Window.after, Lexeme.text, hpending]
      rw [← hbefore, w.sendFront_eq sink r out label hnone hpending, ok_bind, ok_bind]
      dsimp only
      rw [w.stretch_back r hbuffer hpending, ok_bind, String.toList_ofList]
      have hagain := hr.retake_settle_eq sink (w.after [.plain before (some label)]) inner h hc
        ((tokenAt w.position before (some label)).foldl sink out) terminator
      have hstart : byteLength (w.after [.plain before (some label)]).done =
          byteLength w.done + byteLength before := by
        simp [Window.after, Lexeme.text]
      have hstop : byteLength w.done + byteLength before + byteLength terminator =
          byteLength w.done + byteLength r.pending := by
        rw [hpending, Text.byteLength_append, Nat.add_assoc]
      rw [hstart, hstop] at hagain
      refine Eq.trans hagain ?_
      cases a.retake {} terminator with
      | error e => rfl
      | ok y =>
        change _ <$> (Reading.settle a inner { r with toCursor := y.1 } >>= _) =
          _ <$> (Reading.settle a inner { r with toCursor := y.1 } >>= _)
        cases Reading.settle a inner { r with toCursor := y.1 } with
        | error e => rfl
        | ok z =>
          have hdeliver := w.deliver_append sink out z.1 [.plain before (some label)] (y.2 ++ z.2)
          rw [listing_cons, listing_nil, List.append_nil] at hdeliver
          exact congrArg Except.ok hdeliver.symm

/-- The text that can no longer belong to a terminator ends at the same place in every window. -/
theorem Window.floorBoundary_eq {hold : Nat} (hhold : hold ≤ byteLength r.pending) :
    Text.floorBoundary (w.progress r).buffer (byteLength w.done + byteLength r.pending - hold) =
      byteLength w.done + byteLength (r.ripe hold) := by
  change Text.floorBoundary (String.ofList (w.done ++ (r.pending ++ w.ahead))) _ = _
  rw [Text.floorBoundary_ofList, Nat.add_sub_assoc hhold, Text.frontWithin_append_right,
    Text.frontWithin_append_left (Nat.sub_le ..), Text.byteLength_append]
  rfl

/-- The inner scan of an open run is given the same text through every window. -/
theorem Window.feedRun_eq :
    (w.progress r).feedRun inner (byteLength w.done + byteLength r.pending) =
      w.progress <$> r.feed inner := by
  obtain ⟨c, run, idle⟩ := r
  cases run with
  | none => rfl
  | some run =>
    change (w.progress ⟨c, none, idle⟩).feedTo inner (run.forward w.position)
      (Text.floorBoundary (w.progress ⟨c, none, idle⟩).buffer
        (byteLength w.done + byteLength c.pending - run.hold)) >>= _ = _
    have hripe (hold : Nat) : Reading.ripe ⟨c, some run, idle⟩ hold =
      Reading.ripe ⟨c, none, idle⟩ hold := rfl
    rw [Reading.feed]
    simp only [hripe]
    by_cases hhold : run.hold ≤ byteLength c.pending
    · obtain ⟨rest, hrest⟩ :=
        Text.frontWithin_isPrefix (byteLength c.pending - run.hold) c.pending
      have hcut : cutFront (byteLength (Reading.ripe ⟨c, none, idle⟩ run.hold)) c.pending =
          .ok (Reading.ripe ⟨c, none, idle⟩ run.hold, rest) := cutFront_eq_ok.2 ⟨hrest.symm, rfl⟩
      have hle : byteLength (Reading.ripe ⟨c, none, idle⟩ run.hold) ≤ byteLength c.pending :=
        Text.byteLength_le_of_isPrefix ⟨rest, hrest⟩
      rw [w.floorBoundary_eq (r := ⟨c, none, idle⟩) hhold,
        w.feedTo_eq (r := ⟨c, none, idle⟩) run hle, hcut, ok_bind]
      split
      · change (_ <$> (cutFront run.fed (Reading.ripe ⟨c, none, idle⟩ run.hold) >>= _)) >>= _ =
          _ <$> (cutFront run.fed (Reading.ripe ⟨c, none, idle⟩ run.hold) >>= _)
        cases cutFront run.fed (Reading.ripe ⟨c, none, idle⟩ run.hold) with
        | error e => rfl
        | ok x =>
          change (_ <$> run.feed inner (String.ofList x.2)) >>= _ =
            _ <$> (run.feed inner (String.ofList x.2) >>= _)
          cases run.feed inner (String.ofList x.2) <;> rfl
      · rfl
    · have hlimit : Text.floorBoundary (w.progress ⟨c, none, idle⟩).buffer
          (byteLength w.done + byteLength c.pending - run.hold) ≤ byteLength w.done := by
        change Text.floorBoundary (String.ofList _) _ ≤ _
        rw [Text.floorBoundary_ofList]
        exact Nat.le_trans (Text.byteLength_frontWithin_le _ _) (by omega)
      have hripe : byteLength (Reading.ripe ⟨c, none, idle⟩ run.hold) ≤ 0 := by
        refine Nat.le_trans (Text.byteLength_frontWithin_le _ _) ?_
        change byteLength c.pending - run.hold ≤ 0
        omega
      have hstart : difference (run.forward w.position).fed (w.progress ⟨c, none, idle⟩).base =
          .ok (byteLength w.done + run.fed) := by
        rw [← difference_add w.base, ← Nat.add_assoc]
        rfl
      rw [Progress.feedTo, hstart, ok_bind, if_neg (by omega), if_neg (by omega)]
      rfl

/-! ### Whole scans -/

/-- One symbol through a window. -/
theorem Reading.Sound.step_eq (hr : r.Sound a place 0) (h : Charted lexicon matchers a place)
    (out : τ) (s : Symbol) :
    a.step sink inner ((w.before s.text).progress r) out s
        (byteLength w.done + byteLength r.pending)
        (byteLength w.done + byteLength r.pending + byteLength s.text) =
      w.deliver sink out <$> r.advance a inner s := by
  have hmove := w.transition_eq sink (a := a) (r := r) out s fun c ls hm => by
    cases hrun : r.run with
    | none => exact .inr rfl
    | some run => exact .inl (hr.move_of_run h hrun hm).1
  rw [Automaton.step, hmove, Reading.advance]
  cases hm : a.move r.toCursor s with
  | error e => rfl
  | ok x =>
    obtain ⟨c, released⟩ := x
    have hspelled := congrArg byteLength (StateGraph.move_spelled hm)
    rw [map_ok, ok_bind, ok_bind]
    change a.openRun ((w.after released).progress { r with toCursor := c }) >>= _ = _ <$>
      (Reading.enter a { r with toCursor := c } >>= _)
    rw [Window.openRun_eq]
    cases he : Reading.enter a { r with toCursor := c } with
    | error e => rfl
    | ok r₁ =>
      have hstop : byteLength w.done + byteLength r.pending + byteLength s.text =
          byteLength (w.after released).done + byteLength r₁.pending := by
        rw [Text.byteLength_append, Text.byteLength_append] at hspelled
        rw [Window.length_after, enter_toCursor he]
        change _ = _ + byteLength c.pending
        omega
      rw [map_ok, ok_bind, ok_bind, hstop, (hr.enter h hm he).fire_eq sink _ inner h]
      change (_ <$> r₁.act a inner) >>= _ = _ <$> (r₁.act a inner >>= _)
      cases ha : r₁.act a inner with
      | error e => rfl
      | ok y =>
        obtain ⟨r₂, ls⟩ := y
        have hspelled' := congrArg byteLength (act_spelled ha)
        have hstop' : byteLength (w.after released).done + byteLength r₁.pending =
            byteLength ((w.after released).after ls).done + byteLength r₂.pending := by
          rw [Text.byteLength_append] at hspelled'
          rw [Window.length_after _ ls]
          omega
        rw [map_ok, ok_bind, ok_bind, hstop']
        change ((((w.after released).after ls).progress r₂).feedRun inner _ >>= _) =
          _ <$> (r₂.feed inner >>= _)
        rw [Window.feedRun_eq]
        cases r₂.feed inner with
        | error e => rfl
        | ok r₃ => exact congrArg Except.ok (w.deliver_append sink out r₃ released ls).symm

/-- A text through a window. -/
theorem Reading.Sound.steps_eq (hr : r.Sound a place 0) (h : Charted lexicon matchers a place)
    (out : τ) (text : List Char) :
    a.steps sink inner ((w.before text).progress r) out
        (byteLength w.done + byteLength r.pending) text =
      w.deliver sink out <$> r.read a inner text := by
  induction text generalizing w r out with
  | nil => exact congrArg Except.ok (w.deliver_nil sink out r).symm
  | cons d text ih =>
    have hstep := hr.step_eq sink (w.before text) inner h out (.char d)
    refine (congrArg (· >>= _) hstep).trans ?_
    change (_ <$> r.advance a inner (.char d)) >>= _ = _ <$> (r.advance a inner (.char d) >>= _)
    cases hs : r.advance a inner (.char d) with
    | error e => rfl
    | ok x =>
      obtain ⟨r', ls⟩ := x
      have hspelled := congrArg byteLength (advance_spelled hs)
      have hstart : byteLength w.done + byteLength r.pending + d.utf8Size =
          byteLength (w.after ls).done + byteLength r'.pending := by
        simp only [Text.byteLength_append, Symbol.text, Text.byteLength_cons,
          Text.byteLength_nil] at hspelled
        rw [Window.length_after]
        omega
      rw [map_ok, ok_bind, ok_bind]
      have hrest := ih (w := w.after ls) (hr.advance h hs) ((listing w.position ls).foldl sink out)
      rw [← hstart] at hrest
      refine hrest.trans ?_
      change _ = _ <$> (r'.read a inner text >>= fun y => pure (y.1, ls ++ y.2))
      cases r'.read a inner text with
      | error e => rfl
      | ok y => exact congrArg Except.ok (w.deliver_append sink out y.1 ls y.2).symm

end

/-- A scan between two calls, whose buffer holds the pending text alone. -/
def Reading.at (r : Reading) (position : Nat) : Progress := Window.progress ⟨position, [], []⟩ r

/-- Trimming drops the text that has been given out. -/
theorem Window.trim_eq (hahead : w.ahead = []) :
    (w.progress r).trim = .ok (r.at w.position) := by
  obtain ⟨base, done, ahead⟩ := w
  subst hahead
  rw [Progress.trim, tokenStart_progress, ok_bind]
  split
  · next hzero =>
    obtain rfl := Text.byteLength_eq_zero_iff.1 hzero
    rfl
  · have hsize : (progress ⟨base, done, []⟩ r).buffer.utf8ByteSize =
        byteLength done + byteLength (r.pending ++ []) := by
      rw [Text.utf8ByteSize_eq, progress, String.toList_ofList, Text.byteLength_append]
    have hstretch := Progress.stretch_eq (p := progress ⟨base, done, []⟩ r) rfl
      (byteLength (r.pending ++ []))
    rw [cutFront_length, ← hsize] at hstretch
    exact congrArg (· >>= _) hstretch

/-- A scan between two calls and the tokens of its last lexemes. -/
def Reading.deliverAt (position : Nat) (out : τ) (x : Reading × List Lexeme) : Progress × τ :=
  (x.1.at (position + byteLength (spelled x.2)), (listing position x.2).foldl sink out)

section

variable {lexicon : Lexicon} {matchers : List (GreedyMatcher Compilation)} {place : NodeId → Locus}
  (inner : InnerScan)

theorem Reading.size_at (r : Reading) (position : Nat) :
    (r.at position).buffer.utf8ByteSize = byteLength r.pending := by
  rw [Text.utf8ByteSize_eq, Reading.at, Window.progress, String.toList_ofList]
  simp

/-- What is still pending at the end of input is passed over. -/
theorem Reading.skip_at (r : Reading) (position : Nat) :
    (r.at position).skip =
      .ok { r.at position with position := position + byteLength r.pending } := by
  rw [Progress.skip, size_at]
  split
  · next h =>
    rw [String.isEmpty_iff] at h
    have hzero := r.size_at position
    rw [h] at hzero
    rw [← hzero]
    rfl
  · exact Progress.advanceTo_eq (Nat.le_add_right _ _)

theorem Reading.Sound.consumeWith_eq (hr : r.Sound a place 0)
    (h : Charted lexicon matchers a place) (position : Nat) (out : τ) (chunk : String) :
    a.consumeWith sink inner (r.at position) out chunk =
      deliverAt sink position out <$> r.read a inner chunk.toList := by
  have hbuffer : { r.at position with buffer := (r.at position).buffer ++ chunk } =
      (Window.before ⟨position, [], []⟩ chunk.toList).progress r := by
    simp only [Reading.at, Window.progress, Window.before, List.nil_append, List.append_nil,
      String.ofList_append, String.ofList_toList]
    rfl
  have hsteps := hr.steps_eq sink ⟨position, [], []⟩ inner h out chunk.toList
  rw [Automaton.consumeWith, Reading.size_at, hbuffer]
  refine (congrArg (· >>= _) ((congrArg (a.steps sink inner _ out · _) ?_).trans hsteps)).trans ?_
  · exact (Nat.zero_add _).symm
  · cases r.read a inner chunk.toList with
    | error e => rfl
    | ok x =>
      change ((Window.after _ x.2).progress x.1).trim >>= _ = _
      rw [Window.trim_eq _ rfl, Window.position_after]
      rfl

theorem Reading.Sound.flushWith_eq (hr : r.Sound a place 0)
    (h : Charted lexicon matchers a place) (position : Nat) (out : τ) :
    a.flushWith sink inner (r.at position) out =
      deliverAt sink position out <$> r.finish a inner := by
  have hstep := hr.step_eq sink ⟨position, [], []⟩ inner h out .endOfInput
  rw [Automaton.flushWith, Reading.size_at]
  refine (congrArg (· >>= _) ((congrArg (fun n => a.step sink inner _ out _ n n) ?_).trans
    hstep)).trans ?_
  · exact (Nat.zero_add _).symm
  · change _ = _ <$> (r.advance a inner .endOfInput >>= _)
    cases r.advance a inner .endOfInput with
    | error e => rfl
    | ok x =>
      obtain ⟨r', ls⟩ := x
      change ((Window.after _ ls).progress r').trim >>= _ = _
      rw [Window.trim_eq _ rfl, ok_bind, Reading.skip_at, ok_bind, Window.position_after]
      have hlength : position + byteLength (spelled (ls ++ [.plain r'.pending none])) =
          position + byteLength (spelled ls) + byteLength r'.pending := by
        simp [Lexeme.text, Nat.add_assoc]
      refine congrArg Except.ok (Prod.ext ?_ ?_)
      · change _ = r'.park.at (position + byteLength (spelled (ls ++ [.plain r'.pending none])))
        rw [hlength]
        obtain ⟨c, run, idle⟩ := r'
        cases run <;> rfl
      · change _ = (listing position (ls ++ [.plain r'.pending none])).foldl sink out
        rw [listing_append]
        simp [Lexeme.tokens, tokenAt]
        rfl

/-- The running scan is the scan in reading order. -/
theorem Reading.Sound.scanWith_eq (hr : r.Sound a place 0)
    (h : Charted lexicon matchers a place) (position : Nat) (out : τ) (input : Input) :
    a.scanWith sink inner (r.at position) out input =
      deliverAt sink position out <$> r.take a inner input := by
  cases input with
  | chunk text => exact hr.consumeWith_eq sink inner h position out text
  | done => exact hr.flushWith_eq sink inner h position out

end

end TrieLexer
