import TrieLexer.Scanner.Basic

/-!
# Queues of tokens

A parser that backtracks takes tokens one by one, remembers a place, and later returns to it. The
queue holds the tokens that are scanned but not taken, and the end of the last one taken; to return
to a place, the caller supplies the input from there again.

## Main definitions

* `Checkpoint` — a place to return to.
* `TokenQueue` — a scanner with the tokens that wait.
* `TokenQueue.feed`, `TokenQueue.finish`, `TokenQueue.next`, `TokenQueue.save`, `TokenQueue.reset`.
-/

namespace TrieLexer

/-- A place in the input that a queue can return to. -/
structure Checkpoint where
  position : Nat
deriving DecidableEq, Repr, Inhabited

/-- A scanner whose tokens wait to be taken. -/
structure TokenQueue where
  scanner : Scanner
  /-- Tokens scanned but not taken, the next one first. -/
  waiting : List Token := []
  /-- The end of the last token taken. -/
  boundary : Nat := 0

namespace TokenQueue

/-- A queue at the beginning of an input. -/
def start (a : Automaton) : TokenQueue := { scanner := .ofAutomaton a }

/-- Scans another chunk of input. -/
def feed (q : TokenQueue) (chunk : String) : Except ScanFault TokenQueue := do
  let (scanner, tokens) ← q.scanner.consume .collect #[] chunk
  return { q with scanner, waiting := q.waiting ++ tokens.toList }

/-- Scans the end of input. -/
def finish (q : TokenQueue) : Except ScanFault TokenQueue := do
  let (scanner, tokens) ← q.scanner.flush .collect #[]
  return { q with scanner, waiting := q.waiting ++ tokens.toList }

/-- Takes the next token. -/
def next (q : TokenQueue) : Option Token × TokenQueue :=
  match q.waiting with
  | [] => (none, q)
  | token :: waiting => (some token, { q with waiting, boundary := token.stop })

/-- Takes up to `n` tokens. -/
def take (q : TokenQueue) : Nat → List Token × TokenQueue
  | 0 => ([], q)
  | n + 1 =>
    match q.next with
    | (none, q) => ([], q)
    | (some token, q) =>
      let (tokens, q) := take q n
      (token :: tokens, q)

/-- The place after the last token taken. -/
def save (q : TokenQueue) : Checkpoint := ⟨q.boundary⟩

/-- Returns to a place and scans a chunk, which is the input from there on. Tokens not taken are
forgotten. -/
def reset (q : TokenQueue) (chunk : String) (checkpoint : Checkpoint) :
    Except ScanFault TokenQueue :=
  feed
    { scanner := q.scanner.reset checkpoint.position, waiting := [],
      boundary := checkpoint.position }
    chunk

end TokenQueue

end TrieLexer
