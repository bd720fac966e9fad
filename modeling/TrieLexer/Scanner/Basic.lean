import TrieLexer.Scanner.Stepping

/-!
# Scanners

A scanner carries a scan through input that arrives in chunks. The tokens that it finds go to a
sink: a function that takes each into a value of the caller's choice. Between two calls a scanner
holds the text that belongs to no token yet, and nothing else.

## Main definitions

* `Scanner` — an automaton and the progress of a scan.
* `Scanner.consume`, `Scanner.flush`, `Scanner.reset` — input, end of input, a new beginning.
* `Scanner.scan`, `Automaton.tokenize` — a whole input.
* `Call`, `Scanner.performAll` — what can be asked of a scanner.
-/

namespace TrieLexer

/-- A scan over an input. -/
structure Scanner where
  automaton : Automaton
  progress : Progress

namespace Scanner

variable {τ : Type}

/-- A scanner at the beginning of an input. -/
def ofAutomaton (a : Automaton) : Scanner := ⟨a, .start a.runs.length⟩

/-- The byte offset of the next token in the whole input. -/
def position (s : Scanner) : Nat := s.progress.position

/-- Input that belongs to no token yet. -/
def pending (s : Scanner) : String :=
  let p := s.progress
  (Text.span? p.buffer (p.position - p.base) p.buffer.utf8ByteSize).getD ""

/-- Scans a chunk of input, or its end. -/
def handle (sink : Sink τ) (s : Scanner) (out : τ) (input : Input) :
    Except ScanFault (Scanner × τ) := do
  let (progress, out) ← s.automaton.scan sink s.progress out input
  return ({ s with progress }, out)

/-- Scans a chunk of input. -/
def consume (sink : Sink τ) (s : Scanner) (out : τ) (chunk : String) :
    Except ScanFault (Scanner × τ) :=
  s.handle sink out (.chunk chunk)

/-- Scans the end of input. Whatever is still pending is passed over. -/
def flush (sink : Sink τ) (s : Scanner) (out : τ) : Except ScanFault (Scanner × τ) :=
  s.handle sink out .done

/-- Forgets everything and goes on as if the input began at `position`. -/
def reset (s : Scanner) (position : Nat) : Scanner :=
  { s with progress := s.progress.reset position }

/-- Scans a whole input from position 0, up to its end. -/
def scan (sink : Sink τ) (s : Scanner) (out : τ) (input : String) :
    Except ScanFault (Scanner × τ) := do
  let (s, out) ← consume sink (s.reset 0) out input
  flush sink s out

end Scanner

/-- What can be asked of a scanner. -/
inductive Call where
  | consume (chunk : String)
  | flush
  | reset (position : Nat)
  | tokenize (input : String)
deriving DecidableEq, Repr, Inhabited

namespace Scanner

variable {τ : Type}

/-- Answers a call. -/
def perform (sink : Sink τ) (s : Scanner) (out : τ) : Call → Except ScanFault (Scanner × τ)
  | .consume chunk => s.consume sink out chunk
  | .flush => s.flush sink out
  | .reset position => .ok (s.reset position, out)
  | .tokenize input => s.scan sink out input

/-- Answers calls one after the other. -/
def performAll (sink : Sink τ) (s : Scanner) (out : τ) : List Call → Except ScanFault (Scanner × τ)
  | [] => .ok (s, out)
  | call :: calls => do
    let (s, out) ← s.perform sink out call
    performAll sink s out calls

end Scanner

/-- The tokens of a whole input. -/
def Automaton.tokenize (a : Automaton) (input : String) : Except ScanFault (List Token) := do
  let (_, tokens) ← Scanner.scan .collect (.ofAutomaton a) #[] input
  return tokens.toList

end TrieLexer
