import TrieLexer.Automaton.Basic
import TrieLexer.Text.Span

/-!
# The progress of a scan

A scan holds the part of the input that it may still need: the text since the beginning of the
next token, and whatever has arrived after it. The text that tokens have been made of is dropped
when a chunk of input is done with. All offsets count bytes from the beginning of the whole input,
and the held text begins at the offset `base`.

While a greedy run whose interior has a grammar of its own is open, the interior is handed to a
scan of that grammar as it comes in, except for a short tail that may turn out to be a terminator.
The inner scan is kept for later runs of the same matcher when the run is over.

## Main definitions

* `Progress` — everything that a scan remembers.
* `NestedScan` — an open run and the scan of its interior.
* `ScanFault` — why a scan cannot go on.
* `Sink` — what is done with a token.
* `Progress.stretch`, `Progress.tokenStart` — the held text by its offsets.
* `Progress.trim`, `Progress.park`, `Progress.reset` — forgetting.
-/

namespace TrieLexer

/-- Why a scan cannot go on. -/
inductive ScanFault where
  /-- An offset or a length lies below zero. -/
  | belowZero
  /-- A stretch of the held text ends before it begins, or does not begin and end between two of
  its characters. -/
  | misplacedCut
  /-- The next token would begin before the last one. -/
  | movedBack
  /-- The root gives out text that is not there. -/
  | rootReleases
  /-- A node belongs to a nested run that does not exist. -/
  | unknownRun
deriving DecidableEq, Repr, Inhabited

/-- Takes a token into a value. -/
abbrev Sink (τ : Type) := τ → Token → τ

/-- Collects tokens in an array. -/
def Sink.collect : Sink (Array Token) := Array.push

/-- An open run and the scan of its interior. -/
structure NestedScan (γ : Type) where
  id : RunId
  /-- The inner scan, whose offsets count from the beginning of the interior. -/
  scan : γ
  /-- The offset of the interior. -/
  interior : Nat
  /-- The offset of the first byte that the inner scan has not been given. -/
  fed : Nat
  /-- So many bytes at the end of the interior may still belong to a terminator. -/
  hold : Nat
  /-- The tokens of the inner scan so far. -/
  tokens : Array Token := #[]

/-- Everything that a scan remembers. -/
structure Progress where
  /-- Where the walk stands. -/
  node : NodeId := .root
  /-- The held text. -/
  buffer : String := ""
  /-- The offset of the held text. -/
  base : Nat := 0
  /-- The offset of the next token. -/
  position : Nat := 0
  run : Option (NestedScan Progress) := none
  /-- For each nested run of the automaton the inner scan of its last time, if there was one. -/
  idle : Array (Option Progress) := #[]

/-- The difference of two offsets or lengths. -/
def difference (m n : Nat) : Except ScanFault Nat :=
  if n ≤ m then .ok (m - n) else .error .belowZero

namespace Progress

/-- A scan at its beginning, for an automaton with so many nested runs. -/
def start (runs : Nat) : Progress := { idle := Array.replicate runs none }

/-- A stretch of the held text. -/
def stretch (p : Progress) (start stop : Nat) : Except ScanFault String :=
  match Text.span? p.buffer start stop with
  | some text => .ok text
  | none => .error .misplacedCut

/-- Where the next token begins in the held text. -/
def tokenStart (p : Progress) : Except ScanFault Nat := difference p.position p.base

/-- Drops the held text before the next token. -/
def trim (p : Progress) : Except ScanFault Progress := do
  let start ← p.tokenStart
  if start = 0 then return p
  let rest ← p.stretch start p.buffer.utf8ByteSize
  return { p with buffer := rest, base := p.base + start }

/-- Goes on to a later token. -/
def advanceTo (p : Progress) (position : Nat) : Except ScanFault Progress :=
  if p.position ≤ position then .ok { p with position } else .error .movedBack

/-- Passes over everything that is still held. -/
def skip (p : Progress) : Except ScanFault Progress :=
  if p.buffer.isEmpty then .ok p else p.advanceTo (p.base + p.buffer.utf8ByteSize)

/-- Gives up the open run and keeps its inner scan. -/
def park (p : Progress) : Progress :=
  match p.run with
  | none => p
  | some run => { p with run := none, idle := p.idle.setIfInBounds run.id (some run.scan) }

/-- Forgets everything and goes on as if the input began at `position`. -/
def reset (p : Progress) (position : Nat) : Progress :=
  { p with buffer := "", base := position, position, node := .root }.park

end Progress

end TrieLexer
