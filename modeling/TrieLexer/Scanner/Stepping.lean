import TrieLexer.Scanner.Progress

/-!
# Stepping through the input

A symbol first moves the walk, which may give out a punctuation literal that the symbol does not
extend. Then the node that the walk landed on acts: it may give out the text up to the symbol, or
the text before a terminator, which is then taken again from the root, or it may end a greedy run.
At last the inner scan of an open run is given what can no longer belong to a terminator. Inner
scans are scans of their own automata, so the recursion is on the automaton.

In this module `stop` is the offset in the held text at which a symbol ends.

## Main definitions

* `Progress.send` — gives out text as a token.
* `Automaton.transition` — the walk alone.
* `Automaton.fire` — what a node does.
* `Automaton.step` — one symbol.
* `Automaton.scan` — a chunk of input, or its end.
-/

namespace TrieLexer

/-- What a scan is given: a chunk of input, or the news that there is no more. -/
inductive Input where
  | chunk (text : String)
  | done
deriving DecidableEq, Repr, Inhabited

/-- The inner scan of a run, whose tokens are collected. -/
abbrev InnerScan :=
  RunId → Progress → Array Token → Input → Except ScanFault (Progress × Array Token)

namespace NestedScan

variable (inner : InnerScan) (run : NestedScan Progress)

/-- Gives text to the inner scan. -/
def feed (text : String) : Except ScanFault (NestedScan Progress) :=
  if text.isEmpty then .ok run
  else do
    let (scan, tokens) ← inner run.id run.scan run.tokens (.chunk text)
    return { run with scan, tokens, fed := run.fed + text.utf8ByteSize }

/-- Ends the inner scan, and returns it with its tokens at their offsets in the outer input. -/
def finish : Except ScanFault (Progress × Array Token) := do
  let (scan, tokens) ← inner run.id run.scan run.tokens .done
  return (scan, tokens.map (·.shifted run.interior))

end NestedScan

variable {τ : Type} (sink : Sink τ)

namespace Progress

/-- Gives out text at the position of the next token. The empty text and text without a label are
passed over. -/
def emit (p : Progress) (out : τ) (value : String) (label : Option Label) : Progress × τ :=
  let next := { p with position := p.position + value.utf8ByteSize }
  match label with
  | none => (next, out)
  | some kind => (next, if value.isEmpty then out else sink out ⟨value, kind, p.position⟩)

/-- Gives out everything from the next token up to `stop`, and goes back to the root. -/
def send (p : Progress) (out : τ) (stop : Nat) (label : Option Label) :
    Except ScanFault (Progress × τ) := do
  let start ← p.tokenStart
  let value ← p.stretch start stop
  let (p, out) := p.emit sink out value label
  return ({ p with node := .root }, out)

/-- Whether the terminator that begins at `termStart` is escaped: an odd number of escape
characters ends the interior of the run. The opener may end with escape characters as well. -/
def isEscaped (p : Progress) (close : Close) (termStart : Nat) : Except ScanFault Bool :=
  match close.escape with
  | none => .ok false
  | some escape => do
    let start ← p.tokenStart
    let floor := min (start + close.openerLength) termStart
    if Text.IsSpan p.buffer floor termStart then
      let bound := (termStart - floor) / escape.utf8Size
      return Text.rowBefore p.buffer escape bound termStart % 2 == 1
    else throw .misplacedCut

variable (inner : InnerScan)

/-- Gives the inner scan of a run the held text up to an offset, as far as it has not got it yet. -/
def feedTo (p : Progress) (run : NestedScan Progress) (limit : Nat) :
    Except ScanFault (NestedScan Progress) := do
  let start ← difference run.fed p.base
  if start < limit then run.feed inner (← p.stretch start limit) else return run

/-- Gives the inner scan of an open run what can no longer belong to a terminator. -/
def feedRun (p : Progress) (stop : Nat) : Except ScanFault Progress :=
  match p.run with
  | none => .ok p
  | some run => do
    let p := { p with run := none }
    let run ← p.feedTo inner run (Text.floorBoundary p.buffer (stop - run.hold))
    return { p with run := some run }

/-- Gives out the opener, the tokens of the interior and the terminator of a run whose inner scan
has been given the interior. -/
def giveOut (p : Progress) (out : τ) (run : NestedScan Progress) (close : Close)
    (termStart stop : Nat) : Except ScanFault (Progress × τ) := do
  let start ← p.tokenStart
  let interior ← difference run.interior p.base
  let opener ← p.stretch start interior
  let (p, out) := p.emit sink out opener (some close.label)
  let (scan, tokens) ← run.finish inner
  let out := tokens.foldl sink out
  let p ← p.advanceTo (p.base + termStart)
  let terminator ← p.stretch termStart stop
  let (p, out) := p.emit sink out terminator (some close.label)
  return ({ p with node := .root, idle := p.idle.setIfInBounds run.id (some scan) }, out)

/-- Gives the inner scan of a run the rest of the interior, and gives out the run. -/
def finishRun (p : Progress) (out : τ) (run : NestedScan Progress) (close : Close)
    (termStart stop : Nat) : Except ScanFault (Progress × τ) := do
  let run ← p.feedTo inner run termStart
  p.giveOut sink inner out run close termStart stop

end Progress

namespace Automaton

variable (a : Automaton) (inner : InnerScan)

/-- Moves the walk along a symbol that begins at `start`. A release gives out the text before it. -/
def transition (p : Progress) (out : τ) (symbol : Symbol) (start : Nat) :
    Except ScanFault (Progress × τ) :=
  match a.resolve p.node symbol with
  | .node next => .ok ({ p with node := next }, out)
  | .release label => do
    let (p, out) ← p.send sink out start (some label)
    match a.resolve .root symbol with
    | .node next => return ({ p with node := next }, out)
    | .release _ => throw .rootReleases

/-- Moves the walk along a text that begins at `start`. -/
def replay (p : Progress) (out : τ) (start : Nat) : List Char → Except ScanFault (Progress × τ)
  | [] => .ok (p, out)
  | c :: cs => do
    let (p, out) ← a.transition sink p out (.char c) start
    replay p out (start + c.utf8Size) cs

/-- An inner scan for a run of the token that begins at `start`. It is the one of the run's last
time, if there was one. -/
def wake (idle : Array (Option Progress)) (id : RunId) (start : Nat) :
    Except ScanFault (NestedScan Progress × Array (Option Progress)) :=
  match a.runs[id]? with
  | none => .error .unknownRun
  | some spec =>
    let scan := (idle[id]?.join.getD (.start spec.automaton.runs.length)).reset 0
    let interior := start + spec.openerLength
    .ok ({ id, scan, interior, fed := interior, hold := spec.hold }, idle.setIfInBounds id none)

/-- Starts the inner scan of a run of the next token. -/
def startRun (p : Progress) (id : RunId) :
    Except ScanFault (NestedScan Progress × Progress) := do
  let (run, idle) ← a.wake p.idle id p.position
  return (run, { p with idle })

/-- Opens the run of a body on the first landing there. -/
def openRun (p : Progress) : Except ScanFault Progress :=
  match p.run, (a.behaviour p.node).run with
  | none, some id => do
    let (run, p) ← a.startRun p id
    return { p with run := some run }
  | _, _ => .ok p

/-- Takes the open run out. A run that ends straight after its opener has not been opened before. -/
def takeRun (p : Progress) (id : RunId) : Except ScanFault (NestedScan Progress × Progress) :=
  match p.run with
  | some run => .ok (run, { p with run := none })
  | none => a.startRun p id

/-- Ends a greedy run, unless its terminator is escaped; then the walk goes back into the run. -/
def endRun (p : Progress) (out : τ) (close : Close) (stop : Nat) :
    Except ScanFault (Progress × τ) := do
  let termStart ← difference stop close.terminatorLength
  if ← p.isEscaped close termStart then return ({ p with node := close.body }, out)
  match close.nested with
  | none => p.send sink out stop (some close.label)
  | some id =>
    let (run, p) ← a.takeRun p id
    p.finishRun sink inner out run close termStart stop

/-- What the node of the walk does, except that the end of an open-ended token is passed over. -/
def settle (p : Progress) (out : τ) (stop : Nat) : Except ScanFault (Progress × τ) :=
  match (a.behaviour p.node).action with
  | .none => .ok (p, out)
  | .boundary .. => .ok (p, out)
  | .literal label => p.send sink out stop (label.or a.unnamed)
  | .close close => a.endRun sink inner p out close stop

/-- What the node of the walk does. The end of an open-ended token gives out the text before the
terminator, takes the terminator again from the root, and lets the node reached there act. -/
def fire (p : Progress) (out : τ) (stop : Nat) : Except ScanFault (Progress × τ) :=
  match (a.behaviour p.node).action with
  | .boundary label length => do
    let cut ← difference stop length
    let (p, out) ← p.send sink out cut (some label)
    let terminator ← p.stretch cut stop
    let (p, out) ← a.replay sink p out cut terminator.toList
    a.settle sink inner p out stop
  | _ => a.settle sink inner p out stop

/-- One symbol, which begins at `start` and ends at `stop`. -/
def step (p : Progress) (out : τ) (symbol : Symbol) (start stop : Nat) :
    Except ScanFault (Progress × τ) := do
  let (p, out) ← a.transition sink p out symbol start
  let p ← a.openRun p
  let (p, out) ← a.fire sink inner p out stop
  let p ← p.feedRun inner stop
  return (p, out)

/-- The characters of a text, which begins at `start`. -/
def steps (p : Progress) (out : τ) (start : Nat) : List Char → Except ScanFault (Progress × τ)
  | [] => .ok (p, out)
  | c :: cs => do
    let stop := start + c.utf8Size
    let (p, out) ← a.step sink inner p out (.char c) start stop
    steps p out stop cs

/-- A chunk of input. -/
def consumeWith (p : Progress) (out : τ) (chunk : String) : Except ScanFault (Progress × τ) := do
  let start := p.buffer.utf8ByteSize
  let (p, out) ← a.steps sink inner { p with buffer := p.buffer ++ chunk } out start chunk.toList
  return (← p.trim, out)

/-- The end of input. Whatever is still held then is passed over. -/
def flushWith (p : Progress) (out : τ) : Except ScanFault (Progress × τ) := do
  let stop := p.buffer.utf8ByteSize
  let (p, out) ← a.step sink inner p out .endOfInput stop stop
  let p ← (← p.trim).skip
  return ({ p with buffer := "", base := p.position, node := .root }.park, out)

/-- A chunk of input or its end, with the inner scans given. -/
def scanWith (p : Progress) (out : τ) : Input → Except ScanFault (Progress × τ)
  | .chunk text => a.consumeWith sink inner p out text
  | .done => a.flushWith sink inner p out

end Automaton

mutual

/-- The inner scans of an automaton. -/
def Automaton.inner : Automaton → InnerScan
  | ⟨_, runs⟩ => innerAt runs

/-- The inner scan of a run in a list. -/
def innerAt : List (NestedRun Automaton) → InnerScan
  | [], _ => fun _ _ _ => .error .unknownRun
  | run :: _, 0 => innerOf run
  | _ :: runs, id + 1 => innerAt runs id

/-- The inner scan of a run. -/
def innerOf : NestedRun Automaton → Progress → Array Token → Input →
    Except ScanFault (Progress × Array Token)
  | ⟨automaton, _, _⟩ => automaton.scanWith .collect automaton.inner

end

/-- A chunk of input or its end. -/
def Automaton.scan (a : Automaton) (sink : Sink τ) (p : Progress) (out : τ) (input : Input) :
    Except ScanFault (Progress × τ) :=
  a.scanWith sink a.inner p out input

end TrieLexer
