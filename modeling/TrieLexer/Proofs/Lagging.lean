import TrieLexer.Proofs.Coinciding
import TrieLexer.Proofs.Naming
import TrieLexer.Proofs.Safety
import TrieLexer.Proofs.WellFormed

/-!
# Open runs lag behind

While a greedy run is open, its inner scan is given the interior, up to a tail that may still turn
out to be an end of the run. The tail is measured in bytes and rounded to whole characters, and the
run may be opened some characters after its interior begins. Between any two symbols the inner scan
has been given the input from the end of the opener up to some offset, at most three bytes before
what is held back, and it is in the state of a scan that has been given nothing else. Wherever the
run may end, its inner scan has not been given anything of what ends it.

The offset up to which the inner scan has been given the input falls between two characters, unless
a mark goes on after a point at its beginning. Then the text that is taken again at the end of a
number may be other text than the mark. It may lead into a run whose opener has not been read, and
the end of the opener is then measured from the beginning of other text.

## Main definitions

* `Automaton.Moment` — the states of a scan between two symbols.
* `Automaton.Arrives` — where the walk stands when a node acts.
* `Automaton.EndsAhead` — a run that may end there has not been given its end.
* `NestedRun.Serves` — the nested run of a matcher.
* `NestedScan.Lags`, `Grammar.Lags` — what an open run has been given.
* `Reading.Trails`, `Progress.Reads` — the same in reading order.

## Main results

* `Progress.Reads.step` — a symbol keeps what an open run has been given.
* `Grammar.moment_of_steps` — the characters of a chunk lead from moment to moment.
* `Progress.Reads.closes` — where a run ends, its inner scan has not been given the end.
* `Grammar.lagging` — open runs lag behind at every moment of a scan.
* `Grammar.lagging_stray` — a run that is opened without its opener.
-/

namespace TrieLexer

open Text (byteLength)

/-- Less than a character is missing from the longest front that fits. -/
theorem Text.lt_byteLength_frontWithin {n : Nat} {s : List Char} (h : n ≤ byteLength s) :
    n < byteLength (frontWithin n s) + 4 := by
  induction s generalizing n with
  | nil =>
    obtain rfl := Nat.le_zero.1 h
    exact Nat.zero_lt_succ _
  | cons c s ih =>
    have hc := c.utf8Size_le_four
    rw [byteLength_cons] at h
    rw [frontWithin]
    split
    · have := ih (n := n - c.utf8Size) (by omega)
      rw [byteLength_cons]
      omega
    · omega

/-! ### Moments of a scan -/

/-- The held text can be cut at an offset of the input: it falls between two characters. -/
def Progress.OnBoundary (p : Progress) (offset : Nat) : Prop :=
  p.base ≤ offset ∧ String.Pos.Raw.IsValid p.buffer ⟨offset - p.base⟩

instance (p : Progress) (offset : Nat) : Decidable (p.OnBoundary offset) :=
  inferInstanceAs (Decidable (_ ∧ _))

/-- The symbol that comes next when so many bytes of the held text have been read. -/
inductive Progress.Next (p : Progress) (stop : Nat) : Symbol → Prop
  | char {c : Char} (h : Text.span? p.buffer stop (stop + c.utf8Size) = some c.toString) :
      Next p stop (.char c)
  | endOfInput (h : stop = p.buffer.utf8ByteSize) : Next p stop .endOfInput

namespace Automaton

variable {τ : Type} (a : Automaton) (sink : Sink τ)

/-- The states of a scan between two symbols, with the tokens so far and the number of bytes of the
held text that have been read: where calls have led to, when more text has come in, and then after
each character of this text. -/
inductive Moment : Progress → τ → Nat → Prop
  | call {calls : List Call} {s : Scanner} {out out' : τ}
      (h : (Scanner.ofAutomaton a).performAll sink out calls = .ok (s, out')) (ahead : String) :
      Moment { s.progress with buffer := s.progress.buffer ++ ahead } out'
        s.progress.buffer.utf8ByteSize
  | step {p p' : Progress} {out out' : τ} {stop : Nat} {c : Char} (h : Moment p out stop)
      (hc : p.Next stop (.char c))
      (hstep : a.step sink a.inner p out (.char c) stop (stop + c.utf8Size) = .ok (p', out')) :
      Moment p' out' (stop + c.utf8Size)

/-- The states in which a node acts on a symbol: when the symbol has been followed and the run of a
body has been opened, or when a terminator before the end of the symbol has been taken again. -/
inductive Arrives (p : Progress) (out : τ) (s : Symbol) (start stop : Nat) : Progress → τ → Prop
  | symbol {q₁ q : Progress} {out' : τ} (hmove : a.transition sink p out s start = .ok (q₁, out'))
      (hopen : a.openRun q₁ = .ok q) : Arrives p out s start stop q out'
  | terminator {q₁ q₂ q : Progress} {out₁ out' : τ} {label : Label} {length : Nat}
      (hmove : a.transition sink p out s start = .ok (q₁, out₁)) (hopen : a.openRun q₁ = .ok q₂)
      (hb : (a.behaviour q₂.node).action = .boundary label length)
      (hcut : a.cutOff sink q₂ out₁ stop label length = .ok (q, out')) :
      Arrives p out s start stop q out'

/-- If the node may end a run, escaped or not, then no other run is open, and the inner scan of the
run has been given nothing behind the beginning of its terminator. -/
def EndsAhead (q : Progress) (stop : Nat) : Prop :=
  ∀ c, (a.behaviour q.node).action = .close c →
    (∀ run, q.run = some run → c.nested = some run.id) ∧
    ∀ id, c.nested = some id → ∃ run q' termStart, a.takeRun q id = .ok (run, q') ∧ run.id = id ∧
      difference stop c.terminatorLength = .ok termStart ∧ run.fed ≤ q.base + termStart

end Automaton

/-! ### What an open run has been given -/

/-- The nested run of a matcher: it carries out the grammar of the interior, and it holds back what
may still become an end of the run. -/
structure NestedRun.Serves (spec : NestedRun Automaton) (m : GreedyMatcher Grammar) : Prop where
  automaton : ∃ sub, m.subGrammar = some sub ∧ sub.compile.result = .ok spec.automaton
  openerLength : spec.openerLength = m.startsWith.utf8ByteSize
  hold : ∃ terminator, m.terminator = some terminator ∧ spec.hold =
    max terminator.utf8ByteSize (m.haltMarker.getD "").utf8ByteSize - 1

/-- The open run of a scan that has read `stop` bytes of the held text. Its interior begins behind
the opener of the next token. Its inner scan has been given the input from there on, all but a tail
that is held back and less than one more character. It has found the tokens and is in the state of a
scan that has been given this text and nothing before, except for inner scans that are not in
use. -/
structure NestedScan.Lags (spec : NestedRun Automaton) (p : Progress) (stop : Nat)
    (run : NestedScan Progress) : Prop where
  base_le : p.base ≤ p.position
  interior : run.interior = p.position + spec.openerLength
  interior_le : run.interior ≤ run.fed
  fed_le : run.fed ≤ p.base + stop
  hold : run.hold = spec.hold
  tail_le : p.base + stop ≤ run.fed + (run.hold + 3)
  fresh : ∃ text s, run.fed = run.interior + text.utf8ByteSize ∧
    (text = "" ∨ p.stretch (run.interior - p.base) (run.fed - p.base) = .ok text) ∧
    (Scanner.ofAutomaton spec.automaton).consume .collect #[] text = .ok (s, run.tokens) ∧
    run.scan.Coincides s.progress

/-- An open run is that of a matcher of the grammar, and its inner scan lags behind. If points are
lone, then it has been given whole characters. -/
def Grammar.Lags (g : Grammar) (a : Automaton) (p : Progress) (stop : Nat) : Prop :=
  ∀ run, p.run = some run → ∃ m ∈ g.greedyMatchers, ∃ spec, a.runs[run.id]? = some spec ∧
    spec.Serves m ∧ run.Lags spec p stop ∧ (g.toLexicon.LonePoint → p.OnBoundary run.fed)

/-! ### Scans in reading order -/

namespace Reading

variable {lexicon : Lexicon} {matchers : List (GreedyMatcher Compilation)} {a : Automaton}
  {place : NodeId → Locus} {inner : InnerScan} {clean : Prop} {r r' : Reading} {ls : List Lexeme}
  {run run' : NestedScan Progress}

/-- The inner scan of an open run has been given the pending text, all but a tail that is held back
and less than one more character. -/
def Tight (r : Reading) : Prop :=
  ∀ run, r.run = some run → byteLength r.pending ≤ run.fed + (run.hold + 3)

theorem tight_feed (h : r.feed inner = .ok r') : r'.Tight := by
  have hcursor := feed_toCursor h
  intro run' hrun'
  rw [hcursor]
  rw [feed] at h
  split at h
  · next hnone =>
    cases h
    cases hnone.symm.trans hrun'
  · next run hrun =>
    have hripe := Text.lt_byteLength_frontWithin (s := r.pending)
      (Nat.sub_le (byteLength r.pending) run.hold)
    change _ < byteLength (r.ripe run.hold) + 4 at hripe
    split at h
    · obtain ⟨⟨front, text⟩, hcut, h⟩ := bind_eq_ok.1 h
      obtain ⟨run₁, hfeed, h⟩ := bind_eq_ok.1 h
      cases h
      cases hrun'
      obtain ⟨-, -, hhold, hfed⟩ := feed_eq_ok hfeed
      obtain ⟨htext, hfront⟩ := cutFront_eq_ok.1 hcut
      have hlength := congrArg byteLength htext
      rw [Text.byteLength_append] at hlength
      omega
    · cases h
      cases hrun.symm.trans hrun'
      omega

/-- A scan between two symbols whose open run lags behind. If `clean` holds, then the pending text
is spelled. -/
structure Trails (clean : Prop) (a : Automaton) (place : NodeId → Locus) (r : Reading) : Prop where
  sound : r.Sound a place 0
  fed : r.Fed a.inner
  tight : r.Tight
  spelled : clean → r.Spelled a place

theorem trails_park (h : Charted lexicon matchers a place) (r : Reading) :
    r.park.Trails clean a place := by
  have hnone : r.park.run = none := by
    rw [park]
    split <;> rfl
  refine ⟨sound_park h r, fed_of_run_eq_none hnone, fun run hrun => ?_, fun _ => spelled_park h r⟩
  cases hnone.symm.trans hrun

theorem trails_root (h : Charted lexicon matchers a place) (idle : Array (Option Progress)) :
    Reading.Trails clean a place { idle } :=
  ⟨sound_root h 0 idle, fed_of_run_eq_none rfl, nofun, fun _ => spelled_root h none idle⟩

section

variable (htakes : ∀ id spec, a.runs[id]? = some spec → a.inner.Takes id)
  (hlone : clean → lexicon.LonePoint)

include htakes hlone

theorem Trails.advance (hr : r.Trails clean a place) (h : Charted lexicon matchers a place)
    {s : Symbol} (hs : r.advance a a.inner s = .ok (r', ls)) : r'.Trails clean a place := by
  refine ⟨hr.sound.advance h hs, (hr.sound.advance_scanned htakes hr.fed h hs).1, ?_,
    fun hc => ((hr.spelled hc).advance hr.sound h (hlone hc) hs).1⟩
  obtain ⟨_, -, hs⟩ := bind_eq_ok.1 hs
  obtain ⟨_, -, hs⟩ := bind_eq_ok.1 hs
  obtain ⟨_, -, hs⟩ := bind_eq_ok.1 hs
  obtain ⟨r₁, hfeed, hs⟩ := bind_eq_ok.1 hs
  cases hs
  exact tight_feed hfeed

theorem Trails.read (hr : r.Trails clean a place) (h : Charted lexicon matchers a place)
    {text : List Char} (hs : r.read a a.inner text = .ok (r', ls)) : r'.Trails clean a place := by
  induction text generalizing r ls with
  | nil =>
    cases hs
    exact hr
  | cons c text ih =>
    obtain ⟨⟨r₁, out⟩, ha, hs⟩ := bind_eq_ok.1 hs
    obtain ⟨⟨r₂, outs⟩, hread, hs⟩ := bind_eq_ok.1 hs
    cases hs
    exact ih (hr.advance htakes hlone h ha) hread

theorem Trails.take (hr : r.Trails clean a place) (h : Charted lexicon matchers a place)
    {input : Input} (hs : r.take a a.inner input = .ok (r', ls)) : r'.Trails clean a place := by
  cases input with
  | chunk text => exact hr.read htakes hlone h hs
  | done =>
    obtain ⟨⟨r₁, out⟩, -, hs⟩ := bind_eq_ok.1 hs
    cases hs
    exact trails_park h r₁

end

/-- An open run is not opened again. -/
theorem enter_of_run (hrun : r.run = some run) (he : r.enter a = .ok r') : r' = r := by
  rw [enter, hrun] at he
  cases he
  rfl

/-- While a run stays open, nothing is given out, and the interior begins where it did. -/
theorem Sound.advance_of_run (hr : r.Sound a place 0) (h : Charted lexicon matchers a place)
    {s : Symbol} (hrun : r.run = some run) (hs : r.advance a inner s = .ok (r', ls))
    (hrun' : r'.run = some run') :
    ls = [] ∧ run'.id = run.id ∧ run'.interior = run.interior := by
  obtain ⟨⟨c, released⟩, hm, hs⟩ := bind_eq_ok.1 hs
  obtain ⟨r₁, he, hs⟩ := bind_eq_ok.1 hs
  obtain ⟨⟨r₂, out⟩, ha, hs⟩ := bind_eq_ok.1 hs
  obtain ⟨r₃, hfeed, hs⟩ := bind_eq_ok.1 hs
  cases hs
  have hp := hr.enter h hm he
  obtain ⟨rfl, -, -⟩ := hr.move_of_run h hrun hm
  have hrun₁ : r₁.run = some run := by
    rw [enter_of_run (r := { r with toCursor := c }) hrun he]
    exact hrun
  suffices hact : r₂.run = none ∨ r₂.run = some run ∧ out = [] by
    rw [Reading.feed] at hfeed
    rcases hact with hnone | ⟨hrun₂, rfl⟩
    · rw [hnone] at hfeed
      cases hfeed
      cases hnone.symm.trans hrun'
    · rw [hrun₂] at hfeed
      dsimp only at hfeed
      refine ⟨rfl, ?_⟩
      split at hfeed
      · obtain ⟨_, -, hfeed⟩ := bind_eq_ok.1 hfeed
        obtain ⟨run₁, hgive, hfeed⟩ := bind_eq_ok.1 hfeed
        cases hfeed
        cases hrun'
        obtain ⟨hid, hint, -, -⟩ := feed_eq_ok hgive
        exact ⟨hid, hint⟩
      · cases hfeed
        cases hrun₂.symm.trans hrun'
        exact ⟨rfl, rfl⟩
  rw [act] at ha
  split at ha
  · next hb => cases (hp.run_eq_none (h.boundary_not_isBody hb)).symm.trans hrun₁
  · rw [settle] at ha
    split at ha
    · cases ha
      exact .inr ⟨hrun₁, rfl⟩
    · cases ha
      exact .inr ⟨hrun₁, rfl⟩
    · next hc => cases (hp.run_eq_none_of_literal h hc).symm.trans hrun₁
    · next hc =>
      rcases close_cases ha with ⟨-, rfl, rfl⟩ | ⟨-, hnone, -, -⟩ | ⟨-, _, _, _, -, -, hgive⟩
      · exact .inr ⟨hrun₁, rfl⟩
      · cases hnone.symm.trans (hp.nested_of_run h hrun₁ hc).1
      · obtain ⟨_, _, _, _, _, -, -, -, rfl, -⟩ := exists_of_giveOut hgive
        exact .inl rfl

end Reading

/-! ### The runs of matchers -/

/-- The nested run of a body serves a matcher of the grammar. -/
theorem Charted.exists_serves {g : Grammar} {a : Automaton} {place : NodeId → Locus}
    (h : Charted g.toLexicon (compileMatchers g.greedyMatchers) a place) {n b : NodeId}
    {m : GreedyMatcher Compilation} {id : RunId} {path : List Symbol}
    (hn : place n = ⟨.body b m (some id), path⟩) :
    ∃ x ∈ g.greedyMatchers, ∃ spec, a.runs[id]? = some spec ∧ spec.Serves x := by
  obtain ⟨-, -, hm, c, automaton, terminator, hsub, hc, hterminator, hspec⟩ := h.body hn
  obtain ⟨x, hx, -, hopener, hterm, hhalt, -, hinterior⟩ := exists_of_mem_compileMatchers hm
  obtain ⟨sub, hx', rfl⟩ := Option.map_eq_some_iff.1 (hinterior.symm.trans hsub)
  refine ⟨x, hx, _, hspec, ⟨sub, hx', hc⟩, ?_, terminator, hterm ▸ hterminator, ?_⟩
  · rw [hopener, Text.utf8ByteSize_eq]
  · rw [Lexicon.holdOf, hhalt, Text.utf8ByteSize_eq, Text.utf8ByteSize_eq]

namespace NestedScan.Within

variable {lexicon : Lexicon} {matchers : List (GreedyMatcher Compilation)} {a : Automaton}
  {place : NodeId → Locus} {slack : Nat} {c : Cursor} {run : NestedScan Progress} {b : NodeId}
  {m : GreedyMatcher Compilation} {path : List Symbol}

/-- The interior of an open run begins behind the opener of its matcher. -/
theorem interior_eq (hw : run.Within a place slack c) (h : Charted lexicon matchers a place)
    (hn : place c.node = ⟨.body b m (some run.id), path⟩) :
    run.interior = byteLength m.startsWith.toList := by
  obtain ⟨spec, hspec, hint, -⟩ := hw.spec
  obtain ⟨-, -, -, _, _, _, -, -, -, hspec'⟩ := h.body hn
  cases hspec.symm.trans hspec'
  exact hint

/-- No more than the pending text has been given. -/
theorem fed_le (hw : run.Within a place slack c) (h : Charted lexicon matchers a place)
    (hc : c.Grounded place) : run.fed ≤ byteLength c.pending := by
  rcases hw.fed with hfed | ⟨front, rest, hpending, hfront, -⟩
  · obtain ⟨b, m, path, hn⟩ := hw.region
    rw [hfed, hw.interior_eq h hn]
    refine Nat.le_trans ?_ hc
    rw [hn]
    exact Nat.le_add_right _ _
  · rw [hpending, Text.byteLength_append]
    omega

/-- If the pending text is spelled, then whole characters have been given. -/
theorem exists_front (hw : run.Within a place slack c) (h : Charted lexicon matchers a place)
    (hs : (place c.node).Spells c.pending) :
    ∃ front rest, c.pending = front ++ rest ∧ byteLength front = run.fed := by
  rcases hw.fed with hfed | ⟨front, rest, hpending, hfront, -⟩
  · obtain ⟨b, m, path, hn⟩ := hw.region
    obtain ⟨before, hopens, hpending⟩ := hs
    rw [hn] at hopens
    obtain ⟨more, rfl⟩ := hopens
    refine ⟨m.startsWith.toList, _, by rw [hpending, List.append_assoc], ?_⟩
    rw [hfed, hw.interior_eq h hn]
  · exact ⟨front, rest, hpending, hfront⟩

end NestedScan.Within

/-! ### Moments through a window -/

namespace Window

variable (w : Window) (r : Reading)

/-- The held text can be cut wherever the pending text can. -/
theorem onBoundary {front rest : List Char} (hpending : r.pending = front ++ rest) :
    (w.progress r).OnBoundary (w.position + byteLength front) := by
  have hbuffer : (w.progress r).buffer =
      String.ofList ((w.done ++ front) ++ (rest ++ w.ahead)) := by
    simp [progress, hpending]
  have hoffset : w.position + byteLength front - w.base = byteLength (w.done ++ front) := by
    rw [position, Text.byteLength_append]
    omega
  refine ⟨Nat.le_trans (Nat.le_add_right _ _) (Nat.le_add_right _ _), ?_⟩
  change String.Pos.Raw.IsValid _ ⟨w.position + byteLength front - w.base⟩
  rw [hbuffer, hoffset, Text.isValid_ofList_iff, Option.isSome_iff_exists]
  exact ⟨_, Text.splitBytes?_eq_some_iff.2 ⟨rfl, rfl⟩⟩

/-- A part of the pending text is held. -/
theorem stretch_part {front part rest : List Char} (hpending : r.pending = front ++ part ++ rest) :
    (w.progress r).stretch (w.position + byteLength front - w.base)
      (w.position + (byteLength front + byteLength part) - w.base) = .ok (String.ofList part) := by
  have hbuffer : (w.progress r).buffer =
      String.ofList ((w.done ++ front) ++ (part ++ (rest ++ w.ahead))) := by
    simp [progress, hpending]
  have hstretch := Progress.stretch_eq hbuffer (byteLength part)
  rw [cutFront_eq_ok.2 ⟨rfl, rfl⟩, map_ok, Text.byteLength_append] at hstretch
  have hstart : w.position + byteLength front - w.base = byteLength w.done + byteLength front := by
    rw [position]
    omega
  have hstop : w.position + (byteLength front + byteLength part) - w.base =
      byteLength w.done + byteLength front + byteLength part := by
    rw [position]
    omega
  rw [hstart, hstop, hstretch]

end Window

/-- A scan that has read `stop` bytes of the held text is a scan in reading order through a window,
whose open run lags behind. -/
def Progress.Reads (clean : Prop) (a : Automaton) (place : NodeId → Locus) (p : Progress)
    (stop : Nat) : Prop :=
  ∃ (w : Window) (r : Reading), p = w.progress r ∧
    stop = byteLength w.done + byteLength r.pending ∧ r.Trails clean a place

/-- The symbol that comes next is the first one of the text ahead. -/
theorem Window.exists_before (w : Window) (r : Reading) {s : Symbol}
    (h : (w.progress r).Next (byteLength w.done + byteLength r.pending) s) :
    ∃ ahead, w = (Window.mk w.base w.done ahead).before s.text := by
  cases h with
  | endOfInput => exact ⟨w.ahead, rfl⟩
  | @char c h =>
    have hbuffer : (w.progress r).buffer = String.ofList ((w.done ++ r.pending) ++ w.ahead) := by
      rw [List.append_assoc]
      rfl
    rw [← Text.byteLength_append, hbuffer, Text.span?_ofList_append] at h
    obtain ⟨⟨front, rest⟩, hsplit, hfront⟩ := Option.map_eq_some_iff.1 h
    obtain ⟨hahead, -⟩ := Text.splitBytes?_eq_some_iff.1 hsplit
    have hc : front = [c] := by
      rw [← String.toList_inj, String.toList_ofList] at hfront
      simpa [Char.toString] using hfront
    refine ⟨rest, ?_⟩
    obtain ⟨base, done, ahead⟩ := w
    rw [hc] at hahead
    obtain rfl : ahead = [c] ++ rest := hahead
    rfl

/-- When the end of an open-ended token has been cut off, its terminator has been taken again from
the root. -/
theorem Reading.Poised.exists_of_cutOff {lexicon : Lexicon}
    {matchers : List (GreedyMatcher Compilation)} {a : Automaton} {place : NodeId → Locus}
    {slack : Nat} {r : Reading} {w : Window} {τ : Type} {sink : Sink τ} {q : Progress}
    {out out' : τ} {label : Label} {length : Nat} (hr : r.Poised a place slack)
    (h : Charted lexicon matchers a place)
    (hb : (a.behaviour r.node).action = .boundary label length)
    (hcut : a.cutOff sink (w.progress r) out (byteLength w.done + byteLength r.pending) label
      length = .ok (q, out')) :
    ∃ (w' : Window) (c : Cursor) (terminator : List Char) (ls : List Lexeme),
      q = w'.progress { r with toCursor := c } ∧
      byteLength w.done + byteLength r.pending = byteLength w'.done + byteLength c.pending ∧
      a.retake {} terminator = .ok (c, ls) := by
  have hlength := Nat.le_trans (h.boundary_length_le hb) hr.grounded
  have hnone := hr.run_eq_none (h.boundary_not_isBody hb)
  obtain ⟨cut, hdifference, hcut⟩ := bind_eq_ok.1 hcut
  obtain ⟨⟨q₁, out₁⟩, hsend, hcut⟩ := bind_eq_ok.1 hcut
  obtain ⟨text, hstretch, hreplay⟩ := bind_eq_ok.1 hcut
  obtain ⟨k, hk⟩ : ∃ k, k = byteLength r.pending - length := ⟨_, rfl⟩
  obtain rfl : byteLength w.done + k = cut := by
    rw [difference, if_pos (by omega), Nat.add_sub_assoc (by omega), ← hk] at hdifference
    exact Except.ok.inj hdifference
  have hparts : ∃ x, cutFront k r.pending = .ok x := by
    have hsend' := hsend
    rw [w.send_progress, cutFront_append (by omega)] at hsend'
    cases hfront : cutFront k r.pending with
    | error e => rw [hfront] at hsend'; cases hsend'
    | ok x => exact ⟨x, rfl⟩
  obtain ⟨⟨front, terminator⟩, hfront⟩ := hparts
  obtain ⟨hpending, rfl⟩ := cutFront_eq_ok.1 hfront
  rw [w.sendFront_eq sink r out label hnone hpending] at hsend
  cases hsend
  have hbuffer : (((w.after [.plain front (some label)]).before terminator).progress
      { r with toCursor := {} }).buffer = (w.progress r).buffer := by
    simp [Window.progress, Window.before, Window.after, Lexeme.text, hpending]
  rw [w.stretch_back r hbuffer hpending] at hstretch
  cases hstretch
  have hagain := (w.after [.plain front (some label)]).replay_eq sink (a := a)
    (r := { r with toCursor := {} }) ((tokenAt w.position front (some label)).foldl sink out)
    terminator hnone
  have hdone : byteLength (w.after [.plain front (some label)]).done =
      byteLength w.done + byteLength front := by
    simp [Window.after, Lexeme.text]
  rw [String.toList_ofList, ← hdone] at hreplay
  cases hm : a.retake {} terminator with
  | error e =>
    rw [hm] at hagain
    cases hreplay.symm.trans hagain
  | ok x =>
    obtain ⟨c, ls⟩ := x
    rw [hm] at hagain
    cases hreplay.symm.trans hagain
    refine ⟨(w.after [.plain front (some label)]).after ls, c, terminator, ls, rfl, ?_, hm⟩
    have hspelled := congrArg byteLength (StateGraph.retake_spelled hm)
    rw [List.nil_append, Text.byteLength_append] at hspelled
    rw [Window.length_after _ ls, hdone, hpending, Text.byteLength_append]
    omega

/-- Where a symbol leads through a window. An open run is still open there. -/
theorem Reading.Sound.lands {lexicon : Lexicon} {matchers : List (GreedyMatcher Compilation)}
    {a : Automaton} {place : NodeId → Locus} {r : Reading} {w : Window} {τ : Type} {sink : Sink τ}
    {q₁ q : Progress} {out out' : τ} {s : Symbol} (hr : r.Sound a place 0)
    (h : Charted lexicon matchers a place)
    (hmove : a.transition sink ((w.before s.text).progress r) out s
      (byteLength w.done + byteLength r.pending) = .ok (q₁, out'))
    (hopen : a.openRun q₁ = .ok q) :
    ∃ (w' : Window) (r' : Reading), q = w'.progress r' ∧
      byteLength w.done + byteLength r.pending + byteLength s.text =
        byteLength w'.done + byteLength r'.pending ∧
      r'.Poised a place (byteLength s.text) ∧
      ∀ run, r.run = some run → r'.run = some run ∧ w'.position = w.position := by
  have hinside (c : Cursor) (ls : List Lexeme) (hm : a.move r.toCursor s = .ok (c, ls)) :
      ls = [] ∨ r.run = none := by
    cases hrun : r.run with
    | none => exact .inr rfl
    | some run => exact .inl (hr.move_of_run h hrun hm).1
  rw [w.transition_eq sink out s hinside] at hmove
  cases hm : a.move r.toCursor s with
  | error e => rw [hm] at hmove; cases hmove
  | ok x =>
    obtain ⟨c, ls⟩ := x
    rw [hm] at hmove
    cases hmove
    change a.openRun ((w.after ls).progress { r with toCursor := c }) = _ at hopen
    rw [Window.openRun_eq] at hopen
    cases he : Reading.enter a { r with toCursor := c } with
    | error e => rw [he] at hopen; cases hopen
    | ok r' =>
      rw [he] at hopen
      cases hopen
      refine ⟨w.after ls, r', rfl, ?_, hr.enter h hm he, fun run hrun => ?_⟩
      · have hspelled := congrArg byteLength (StateGraph.move_spelled hm)
        simp only [Text.byteLength_append] at hspelled
        rw [Window.length_after, Reading.enter_toCursor he]
        change _ = _ + byteLength c.pending
        omega
      · obtain ⟨rfl, -, -⟩ := hr.move_of_run h hrun hm
        rw [Window.after_nil, Reading.enter_of_run (r := { r with toCursor := c }) hrun he]
        exact ⟨hrun, rfl⟩

namespace Progress.Reads

variable {lexicon : Lexicon} {matchers : List (GreedyMatcher Compilation)} {a : Automaton}
  {place : NodeId → Locus} {clean : Prop} {τ : Type} {sink : Sink τ} {p p' q : Progress}
  {out out' : τ} {s : Symbol} {stop : Nat}

/-- What a symbol does to a scan through a window, and where it leaves the scan. -/
theorem step (hp : p.Reads clean a place stop) (h : Charted lexicon matchers a place)
    (htakes : ∀ id spec, a.runs[id]? = some spec → a.inner.Takes id)
    (hlone : clean → lexicon.LonePoint) (hs : p.Next stop s)
    (hstep : a.step sink a.inner p out s stop (stop + byteLength s.text) = .ok (p', out')) :
    p'.Reads clean a place (stop + byteLength s.text) ∧ p'.buffer = p.buffer ∧
      ∀ run run', p.run = some run → p'.run = some run' →
        p'.position = p.position ∧ out' = out ∧ run'.id = run.id ∧
          run'.interior = run.interior := by
  obtain ⟨w, r, rfl, rfl, hr⟩ := hp
  obtain ⟨ahead, hw⟩ := w.exists_before r hs
  generalize Window.mk w.base w.done ahead = w' at hw
  subst hw
  change a.step sink a.inner ((w'.before s.text).progress r) out s
    (byteLength w'.done + byteLength r.pending)
    (byteLength w'.done + byteLength r.pending + byteLength s.text) = _ at hstep
  rw [hr.sound.step_eq sink w' a.inner h out s] at hstep
  cases ha : r.advance a a.inner s with
  | error e => rw [ha] at hstep; cases hstep
  | ok x =>
    obtain ⟨r', ls⟩ := x
    rw [ha] at hstep
    cases hstep
    have hspelled := Reading.advance_spelled ha
    refine ⟨⟨w'.after ls, r', rfl, ?_, hr.advance htakes hlone h ha⟩, ?_,
      fun run run' hrun hrun' => ?_⟩
    · have hlength := congrArg byteLength hspelled
      simp only [Text.byteLength_append] at hlength
      rw [Window.length_after]
      change byteLength w'.done + byteLength r.pending + byteLength s.text = _
      omega
    · change String.ofList (w'.done ++ spelled ls ++ (r'.pending ++ w'.ahead)) =
        String.ofList (w'.done ++ (r.pending ++ (s.text ++ w'.ahead)))
      rw [List.append_assoc, ← List.append_assoc (spelled ls), hspelled, List.append_assoc]
    · obtain ⟨run₀, hrun₀, rfl⟩ := Option.map_eq_some_iff.1 hrun
      obtain ⟨run₁, hrun₁, rfl⟩ := Option.map_eq_some_iff.1 hrun'
      obtain ⟨rfl, hid, hint⟩ := hr.sound.advance_of_run h hrun₀ ha hrun₁
      refine ⟨?_, rfl, hid, ?_⟩
      · rw [Window.after_nil]
        rfl
      · rw [Window.after_nil]
        exact congrArg (w'.position + ·) hint

/-- Where the walk arrives, a run that was open before is still open. -/
theorem arrives (hp : p.Reads clean a place stop) (h : Charted lexicon matchers a place)
    (hs : p.Next stop s)
    (hq : a.Arrives sink p out s stop (stop + byteLength s.text) q out') :
    ∃ (w : Window) (r : Reading), q = w.progress r ∧
      stop + byteLength s.text = byteLength w.done + byteLength r.pending ∧
      r.Poised a place (byteLength s.text) ∧
      ∀ run, p.run = some run → q.run = some run ∧ q.position = p.position := by
  obtain ⟨w, r, rfl, rfl, hr⟩ := hp
  obtain ⟨ahead, hw⟩ := w.exists_before r hs
  generalize Window.mk w.base w.done ahead = w' at hw
  subst hw
  have hopened {w₁ : Window} {r₁ : Reading}
      (hkeep : ∀ run, r.run = some run → r₁.run = some run ∧ w₁.position = w'.position) :
      ∀ run, ((w'.before s.text).progress r).run = some run →
        (w₁.progress r₁).run = some run ∧
          (w₁.progress r₁).position = ((w'.before s.text).progress r).position := by
    intro run hrun
    obtain ⟨run₀, hrun₀, rfl⟩ := Option.map_eq_some_iff.1 hrun
    obtain ⟨hrun₁, hposition⟩ := hkeep run₀ hrun₀
    refine ⟨?_, hposition⟩
    simp only [Window.progress, hrun₁, Option.map_some, hposition]
    rfl
  cases hq with
  | symbol hmove hopen =>
    obtain ⟨w₁, r₁, rfl, hstop, hpoised, hkeep⟩ := hr.sound.lands h hmove hopen
    exact ⟨w₁, r₁, rfl, hstop, hpoised, hopened hkeep⟩
  | @terminator q₁ q₂ _ out₁ _ label length hmove hopen hb hcut =>
    obtain ⟨w₁, r₁, rfl, hstop, hpoised, hkeep⟩ := hr.sound.lands h hmove hopen
    have hb₁ : (a.behaviour r₁.node).action = .boundary label length := hb
    have hnone := hpoised.run_eq_none (h.boundary_not_isBody hb₁)
    obtain ⟨w₂, c, terminator, ls, rfl, hstop₂, hm⟩ :=
      hpoised.exists_of_cutOff h hb₁ (hstop ▸ hcut)
    refine ⟨w₂, { r₁ with toCursor := c }, rfl, hstop.trans hstop₂, hpoised.retake h hb₁ hm, ?_⟩
    refine hopened fun run hrun => ?_
    cases hnone.symm.trans (hkeep run hrun).1

/-- Where a run ends, its inner scan has not been given the end. -/
theorem closes (hp : p.Reads clean a place stop) (h : Charted lexicon matchers a place)
    (hs : p.Next stop s)
    (hq : a.Arrives sink p out s stop (stop + byteLength s.text) q out') :
    a.EndsAhead q (stop + byteLength s.text) := by
  intro c hc
  obtain ⟨w, r, rfl, hstop, hr, -⟩ := hp.arrives h hs hq
  have hc' : (a.behaviour r.node).action = .close c := hc
  refine ⟨fun run hrun => ?_, fun id hid => ?_⟩
  · obtain ⟨run₀, hrun₀, rfl⟩ := Option.map_eq_some_iff.1 hrun
    exact (hr.nested_of_run h hrun₀ hc').1
  · have hcurrent : ∃ x, r.current a id = .ok x ∧ x.1.id = id := by
      rw [Reading.current]
      cases hrun : r.run with
      | some run =>
        exact ⟨_, rfl, Option.some.inj ((hr.nested_of_run h hrun hc').1.symm.trans hid)⟩
      | none =>
        obtain ⟨spec, hspec⟩ := h.exists_nested hc' hid
        obtain ⟨⟨run, idle⟩, hwake⟩ := Automaton.exists_wake hspec r.idle 0
        obtain ⟨_, _, -, -, rfl⟩ := Automaton.wake_eq_ok hwake
        exact ⟨_, hwake, rfl⟩
    obtain ⟨⟨run, idle⟩, hcurrent, hrunid⟩ := hcurrent
    obtain ⟨-, -, hfed, -⟩ := hr.current h hc' hid hcurrent
    have htake := w.takeRun_eq (a := a) (r := r) id
    rw [hcurrent] at htake
    refine ⟨_, _, byteLength w.done + (byteLength r.pending - c.terminatorLength), htake, hrunid,
      ?_, ?_⟩
    · rw [hstop, difference, if_pos (by omega), Nat.add_sub_assoc (by omega)]
    · change w.base + byteLength w.done + run.fed ≤ w.base + _
      omega

end Progress.Reads

/-- Every moment of a scan is one of a scan in reading order through a window. -/
theorem Automaton.Moment.reads {lexicon : Lexicon} {matchers : List (GreedyMatcher Compilation)}
    {a : Automaton} {place : NodeId → Locus} {clean : Prop} {τ : Type} {sink : Sink τ}
    {p : Progress} {out : τ} {stop : Nat} (hp : a.Moment sink p out stop)
    (h : Charted lexicon matchers a place)
    (htakes : ∀ id spec, a.runs[id]? = some spec → a.inner.Takes id)
    (hlone : clean → lexicon.LonePoint) : p.Reads clean a place stop := by
  induction hp with
  | @call calls s out out' hcalls ahead =>
    obtain ⟨ha, r, position, hs, hr⟩ := (Scanner.reaches_ofAutomaton h).performAll_keeps h
      (Reading.Trails clean a place) (Reading.trails_park h)
      (fun _ hr ht => hr.take htakes hlone h ht) (Reading.trails_root h _) hcalls
    refine ⟨⟨position, [], ahead.toList⟩, r, ?_, ?_, hr⟩
    · rw [hs.progress]
      simp only [Reading.at, Window.progress, List.nil_append, List.append_nil,
        String.ofList_append, String.ofList_toList]
      rfl
    · rw [hs.progress, Reading.size_at]
      exact (Nat.zero_add _).symm
  | step _ hc hstep ih => exact (ih.step h htakes hlone hc hstep).1

/-- Each character of a text that is held leads to a next moment. -/
theorem Automaton.Moment.steps {lexicon : Lexicon} {matchers : List (GreedyMatcher Compilation)}
    {a : Automaton} {place : NodeId → Locus} {τ : Type} {sink : Sink τ} {p p' : Progress}
    {out out' : τ} {done text rest : List Char} (hp : a.Moment sink p out (byteLength done))
    (h : Charted lexicon matchers a place)
    (htakes : ∀ id spec, a.runs[id]? = some spec → a.inner.Takes id)
    (hbuffer : p.buffer = String.ofList (done ++ (text ++ rest)))
    (hs : a.steps sink a.inner p out (byteLength done) text = .ok (p', out')) :
    a.Moment sink p' out' (byteLength (done ++ text)) := by
  induction text generalizing p out done with
  | nil =>
    cases hs
    rwa [List.append_nil]
  | cons c text ih =>
    obtain ⟨⟨p₁, out₁⟩, hstep, hs⟩ := bind_eq_ok.1 hs
    have hc : p.Next (byteLength done) (.char c) := by
      refine .char ?_
      rw [hbuffer, Text.span?_ofList_append]
      rw [List.cons_append, Text.splitBytes?_eq_some_iff.2 ⟨List.singleton_append.symm, by simp⟩]
      exact congrArg some String.singleton_eq_ofList.symm
    obtain ⟨-, hkeep, -⟩ := (hp.reads h htakes False.elim).step h htakes False.elim hc hstep
    have hlength : byteLength done + c.utf8Size = byteLength (done ++ [c]) := by
      rw [Text.byteLength_append, Text.byteLength_cons, Text.byteLength_nil, Nat.add_zero]
    have hnext := hp.step hc hstep
    rw [hlength] at hnext hs
    have hmoment := ih hnext (by rw [hkeep, hbuffer, List.append_assoc]; rfl) hs
    rwa [List.append_assoc] at hmoment

/-- Where a chunk has led to that has been read in part is a moment of the scan. -/
theorem Grammar.moment_of_steps {g : Grammar} {a : Automaton} (h : g.compile.result = .ok a)
    {τ : Type} {sink : Sink τ} {calls : List Call} {s : Scanner} {out out₁ out₂ : τ}
    (hs : (Scanner.ofAutomaton a).performAll sink out calls = .ok (s, out₁)) {chunk ahead : String}
    {p : Progress} (hsteps : a.steps sink a.inner
      { s.progress with buffer := s.progress.buffer ++ (chunk ++ ahead) } out₁
        s.progress.buffer.utf8ByteSize chunk.toList = .ok (p, out₂)) :
    a.Moment sink p out₂ (s.progress.buffer ++ chunk).utf8ByteSize := by
  obtain ⟨place, hchart⟩ := g.charted_compile h
  have hlawful : Lawful False a := g.lawful_compile False.elim h
  have hmoment := Automaton.Moment.call hs (chunk ++ ahead)
  have hbuffer : s.progress.buffer ++ (chunk ++ ahead) =
      String.ofList (s.progress.buffer.toList ++ (chunk.toList ++ ahead.toList)) := by
    rw [← String.toList_append, ← String.toList_append, String.ofList_toList]
  rw [Text.utf8ByteSize_eq] at hmoment hsteps ⊢
  rw [String.toList_append]
  exact hmoment.steps hchart (fun _ _ hspec => hlawful.takes hspec) hbuffer hsteps

/-- An inner scan that has been given a text since it began anew has found what a scan of this text
alone finds, and coincides with it. -/
theorem Lawful.fresh {clean : Prop} {a : Automaton} (h : Lawful clean a) {id : RunId}
    {spec : NestedRun Automaton} (hs : a.runs[id]? = some spec) {text : List Char} {p : Progress}
    {tokens : Array Token} (hg : a.inner.Given id text p tokens) :
    ∃ s, (Scanner.ofAutomaton spec.automaton).consume .collect #[] (String.ofList text) =
      .ok (s, tokens) ∧ p.Coincides s.progress := by
  cases h with
  | mk _ _ hruns =>
    obtain ⟨q, hq⟩ := hg
    rw [Automaton.inner_eq hs] at hq
    obtain ⟨p', hp', hcoincides⟩ := (hruns spec (List.mem_of_getElem? hs)).coincides hq
      (.start spec.automaton.runs.length)
    refine ⟨⟨spec.automaton, p'⟩, ?_, hcoincides⟩
    change spec.automaton.scan .collect (.start spec.automaton.runs.length) #[] _ = _ at hp'
    simp only [Scanner.consume, Scanner.handle, Scanner.ofAutomaton, hp', ok_bind]
    rfl

/-- At every moment an open run lags behind. -/
theorem Progress.Reads.lags {g : Grammar} {a : Automaton} {place : NodeId → Locus} {p : Progress}
    {stop : Nat} {clean : Prop} (hp : p.Reads g.toLexicon.LonePoint a place stop)
    (h : Charted g.toLexicon (compileMatchers g.greedyMatchers) a place)
    (hlawful : Lawful clean a) : g.Lags a p stop := by
  obtain ⟨w, r, rfl, rfl, hr⟩ := hp
  intro run hrun
  obtain ⟨run₀, hrun₀, rfl⟩ := Option.map_eq_some_iff.1 hrun
  have hw := hr.sound.run hrun₀
  obtain ⟨b, m, path, hplace⟩ := hw.region
  obtain ⟨x, hx, spec, hspec, hserves⟩ := h.exists_serves hplace
  obtain ⟨spec', hspec', hint, hhold⟩ := hw.spec
  cases hspec.symm.trans hspec'
  have hfed := hw.fed_le h hr.sound.grounded
  have htight := hr.tight run₀ hrun₀
  have hposition : w.position = w.base + byteLength w.done := rfl
  have hfed_le : w.position + run₀.fed ≤
      w.base + (byteLength w.done + byteLength r.pending) := by omega
  have htail_le : w.base + (byteLength w.done + byteLength r.pending) ≤
      w.position + run₀.fed + (run₀.hold + 3) := by omega
  obtain ⟨text, hgiven, hlength, hpart⟩ := hr.fed run₀ hrun₀
  obtain ⟨s, hs, hcoincides⟩ := hlawful.fresh hspec hgiven
  have hgivenLength : w.position + run₀.fed =
      w.position + run₀.interior + (String.ofList text).utf8ByteSize := by
    rw [Text.utf8ByteSize_eq, String.toList_ofList, hlength, Nat.add_assoc]
  have hgivenText : String.ofList text = "" ∨ (w.progress r).stretch
      (w.position + run₀.interior - w.base) (w.position + run₀.fed - w.base) =
        .ok (String.ofList text) := by
    rcases hpart with rfl | ⟨opener, rest, hparts, hopens⟩
    · exact .inl rfl
    · have hstretch := w.stretch_part r hparts
      rw [hopens, ← hlength] at hstretch
      exact .inr hstretch
  have hlags : (run₀.forward w.position).Lags spec (w.progress r)
      (byteLength w.done + byteLength r.pending) :=
    { base_le := Nat.le_add_right _ _
      interior := congrArg (w.position + ·) hint
      interior_le := Nat.add_le_add_left hw.interior_le _
      fed_le := hfed_le
      hold := hhold
      tail_le := htail_le
      fresh := ⟨String.ofList text, s, hgivenLength, hgivenText, hs, hcoincides⟩ }
  refine ⟨x, hx, spec, hspec, hserves, hlags, fun hlone => ?_⟩
  obtain ⟨front, rest, hparts, hfront⟩ := hw.exists_front h (hr.spelled hlone).spells
  have hboundary := w.onBoundary r hparts
  rwa [hfront] at hboundary

/-! ### Open runs of a grammar -/

/-- Dropping the text of earlier tokens changes neither the next token nor an open run. -/
theorem Progress.trim_keeps {p p' : Progress} (h : p.trim = .ok p') :
    p'.position = p.position ∧ p'.run = p.run := by
  obtain ⟨start, -, h⟩ := bind_eq_ok.1 h
  split at h
  · cases h
    exact ⟨rfl, rfl⟩
  · obtain ⟨rest, -, h⟩ := bind_eq_ok.1 h
    cases h
    exact ⟨rfl, rfl⟩

/-- An open run lags behind between any two symbols and after each of them, and it stays where it
is, behind the opener of the next token. Where a run may end, its inner scan has not been given the
end. -/
theorem Grammar.lagging {g : Grammar} {a : Automaton} (h : g.compile.result = .ok a) {τ : Type}
    {sink : Sink τ} {p : Progress} {out : τ} {stop : Nat} (hp : a.Moment sink p out stop) :
    g.Lags a p stop ∧
    (∀ p', p.trim = .ok p' → p'.position = p.position ∧ p'.run = p.run) ∧
    ∀ s, p.Next stop s →
      (∀ q out', a.Arrives sink p out s stop (stop + byteLength s.text) q out' →
        (∀ run, p.run = some run → q.run = some run ∧ q.position = p.position) ∧
          a.EndsAhead q (stop + byteLength s.text)) ∧
      ∀ p' out', a.step sink a.inner p out s stop (stop + byteLength s.text) = .ok (p', out') →
        g.Lags a p' (stop + byteLength s.text) ∧
          ∀ run run', p.run = some run → p'.run = some run' →
            p'.position = p.position ∧ out' = out ∧ run'.id = run.id ∧
              run'.interior = run.interior := by
  obtain ⟨place, hchart⟩ := g.charted_compile h
  have hlawful : Lawful False a := g.lawful_compile False.elim h
  have htakes (id : RunId) (spec : NestedRun Automaton) (hs : a.runs[id]? = some spec) :
      a.inner.Takes id := hlawful.takes hs
  have hreads : p.Reads g.toLexicon.LonePoint a place stop := hp.reads hchart htakes id
  refine ⟨hreads.lags hchart hlawful, fun _ ht => Progress.trim_keeps ht, fun s hs =>
    ⟨fun q out' hq => ?_, fun p' out' hstep => ?_⟩⟩
  · obtain ⟨-, -, -, -, -, hkeep⟩ := hreads.arrives hchart hs hq
    exact ⟨hkeep, hreads.closes hchart hs hq⟩
  · obtain ⟨hreads', -, hkeep⟩ := hreads.step hchart htakes id hs hstep
    exact ⟨hreads'.lags hchart hlawful, hkeep⟩

/-- A grammar that compiles, and what is seen of a scanner after some calls. -/
theorem Grammar.exists_seen {α : Type} (g : Grammar) (calls : List Call)
    (see : Automaton → Scanner → Array Token → Option α) (x : α)
    (h : (g.compile.result.toOption.bind fun a =>
      ((Scanner.ofAutomaton a).performAll .collect #[] calls).toOption.bind fun z =>
        see a z.1 z.2) = some x) :
    ∃ a s tokens, g.compile.result = .ok a ∧
      (Scanner.ofAutomaton a).performAll .collect #[] calls = .ok (s, tokens) ∧
      see a s tokens = some x := by
  obtain ⟨a, ha, h⟩ := Option.bind_eq_some_iff.1 h
  obtain ⟨⟨s, tokens⟩, hs, hx⟩ := Option.bind_eq_some_iff.1 h
  exact ⟨a, s, tokens, eq_ok_of_toOption ha, eq_ok_of_toOption hs, hx⟩

/-- A grammar with runs whose ends are longer than a character. -/
def Grammar.guarded : Grammar where
  delimiters := [.bare ";"]
  greedyMatchers := [{
    kind := "guarded", startsWith := "<<", endsWith := some ">>>", subGrammar := some {} }]

/-- Before the last character of an end, its beginning is still held back, and all that comes before
it has been given. -/
theorem Grammar.lagging_guarded : ∃ a s tokens run q tokens', guarded.compile.result = .ok a ∧
    (Scanner.ofAutomaton a).performAll .collect #[] [.consume "b;<<éa>>"] = .ok (s, tokens) ∧
    s.progress.run = some run ∧ run.fed = 7 ∧
    ∃ p : Progress, p = { s.progress with buffer := s.progress.buffer ++ ">;" } ∧
      guarded.Lags a p 7 ∧ p.OnBoundary run.fed ∧ p.Next 7 (.char '>') ∧
      a.Arrives .collect p tokens (.char '>') 7 8 q tokens' ∧ q.run = some run ∧
      (∃ c, (a.behaviour q.node).action = .close c) ∧ a.EndsAhead q 8 := by
  obtain ⟨a, s, tokens, ha, hs, hseen⟩ := guarded.exists_seen [.consume "b;<<éa>>"]
    (fun a s tokens =>
      s.progress.run.bind fun run =>
        (a.transition .collect { s.progress with buffer := s.progress.buffer ++ ">;" } tokens
          (.char '>') 7).toOption.bind fun z =>
        (a.openRun z.1).toOption.map fun q =>
          (run.fed, s.progress.buffer, (a.behaviour q.node).action))
    (7, "<<éa>>", .close ⟨"guarded", false, none, 3, 2, 15, some 0⟩) (by decide +kernel)
  obtain ⟨run, hrun, hseen⟩ := Option.bind_eq_some_iff.1 hseen
  obtain ⟨⟨q₁, tokens'⟩, hmove, hseen⟩ := Option.bind_eq_some_iff.1 hseen
  obtain ⟨q, hopen, hseen⟩ := Option.map_eq_some_iff.1 hseen
  rw [Prod.mk.injEq, Prod.mk.injEq] at hseen
  obtain ⟨hfed, hbuffer, hcloses⟩ := hseen
  have hq : a.Arrives .collect _ tokens (.char '>') 7 8 q tokens' :=
    .symbol (eq_ok_of_toOption hmove) (eq_ok_of_toOption hopen)
  have hstop : s.progress.buffer.utf8ByteSize = 7 := by rw [hbuffer]; decide
  have hp := Automaton.Moment.call hs ">;"
  rw [hstop] at hp
  obtain ⟨hlags, -, hnext⟩ := lagging ha hp
  have hahead : ({ s.progress with buffer := s.progress.buffer ++ ">;" } : Progress).Next 7
      (.char '>') := .char (by dsimp only; rw [hbuffer]; decide +kernel)
  obtain ⟨hkeep, hends⟩ := (hnext _ hahead).1 q tokens' hq
  obtain ⟨-, -, -, -, -, -, hboundary⟩ := hlags run hrun
  exact ⟨a, s, tokens, run, q, tokens', ha, hs, hrun, hfed, _, rfl, hlags, hboundary (by decide),
    hahead, hq, (hkeep run hrun).1, ⟨_, hcloses⟩, hends⟩

/-- A grammar with a delimiter that goes on after a point as the opener of a run begins. -/
def Grammar.stray : Grammar where
  keywords := [.bare "k"]
  delimiters := [.bare ";", .bare ".k;é"]
  greedyMatchers := [{
    kind := "stray", startsWith := "k;<", endsWith := some ">>>>", subGrammar := some {} }]

/-- The point also begins a number, which the delimiter is to end. One character after the
delimiter, the text is cut the delimiter's five bytes before its end, and `k;é<` is taken again. The
walk passes over `é` and comes to the interior of a run, as it does on `k;<`. But three bytes after
the cut the text cannot be cut again: this is inside `é`. -/
theorem Grammar.lagging_stray : ∃ a s tokens run, stray.compile.result = .ok a ∧
    (Scanner.ofAutomaton a).performAll .collect #[] [.consume ".k;é<y"] = .ok (s, tokens) ∧
    s.progress.run = some run ∧ ¬s.progress.OnBoundary run.fed ∧
    s.consume .collect tokens "z" = .error .misplacedCut := by
  obtain ⟨a, s, tokens, ha, hs, hseen⟩ := stray.exists_seen [.consume ".k;é<y"]
    (fun _ s tokens =>
      s.progress.run.bind fun run =>
        match s.consume .collect tokens "z" with
        | .ok _ => none
        | .error e => some (decide (s.progress.OnBoundary run.fed), e))
    (false, .misplacedCut) (by decide +kernel)
  obtain ⟨run, hrun, hseen⟩ := Option.bind_eq_some_iff.1 hseen
  split at hseen
  · cases hseen
  · next e he =>
    obtain ⟨hinside, rfl⟩ := Prod.mk.inj (Option.some.inj hseen)
    exact ⟨a, s, tokens, run, ha, hs, hrun, of_decide_eq_false hinside, he⟩

end TrieLexer
