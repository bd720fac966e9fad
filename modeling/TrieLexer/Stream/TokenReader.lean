import TrieLexer.Scanner.Basic
import TrieLexer.Text.Utf8

/-!
# Tokens of a byte stream

A stream delivers its bytes in reads of any size; a read may also be interrupted, in which case it
is tried again, or fail. The reader decodes what has come in, keeps back the bytes of a character
that is not complete, and scans the rest. It gives out the tokens one by one; after an error it
gives out nothing more.

## Main definitions

* `ReadOutcome` — what one read of the stream returns.
* `Delivery.outcomes` — the reads of given bytes under a schedule.
* `ReadError` — why a stream breaks off.
* `TokenReader.capacityOf` — the size of the buffer for the reads.
* `TokenReader.next` — the next token.
-/

namespace TrieLexer

/-- What one read of a stream returns. -/
inductive ReadOutcome where
  /-- Bytes; none at all means the end of the stream. -/
  | bytes (bs : List UInt8)
  /-- The read is to be tried again. -/
  | interrupted
  /-- The stream has failed. -/
  | failed (message : String)
deriving DecidableEq, Repr

/-- Why a stream breaks off. -/
inductive ReadError where
  /-- `count` bytes at `index` belong to no character. The index counts from the first byte that
  had not been scanned before. -/
  | invalidText (count index : Nat)
  /-- The stream ends inside a character. -/
  | truncatedText
  /-- The stream has failed. -/
  | failed (message : String)
  /-- The scan cannot go on. -/
  | fault (f : ScanFault)
deriving DecidableEq, Repr

/-- The reason in words. -/
def ReadError.message : ReadError → String
  | invalidText count index =>
    "invalid utf-8 sequence of " ++ toString count ++ " bytes from index " ++ toString index
  | truncatedText => "stream ended inside a UTF-8 sequence"
  | failed message => message
  | fault _ => "the scan cannot go on"

/-- How one read is served. -/
inductive Delivery where
  /-- At most so many bytes. -/
  | upTo (count : Nat)
  | interrupted
  | failed (message : String)
deriving DecidableEq, Repr

namespace Delivery

/-- Bytes in pieces of at most `capacity`. The first argument bounds the number of pieces. -/
def pieces (capacity : Nat) : Nat → List UInt8 → List ReadOutcome
  | 0, _ => []
  | fuel + 1, bs =>
    if bs.isEmpty then []
    else .bytes (bs.take capacity) :: pieces capacity fuel (bs.drop capacity)

/-- The reads of given bytes: first those of a schedule, then as many bytes as a read can take, as
long as there are any. Reads take at most `capacity` bytes. -/
def outcomes (capacity : Nat) : List Delivery → List UInt8 → List ReadOutcome
  | [], bs => pieces capacity bs.length bs
  | upTo count :: schedule, bs =>
    let size := min count capacity
    .bytes (bs.take size) :: outcomes capacity schedule (bs.drop size)
  | interrupted :: schedule, bs => .interrupted :: outcomes capacity schedule bs
  | failed message :: schedule, bs => .failed message :: outcomes capacity schedule bs

end Delivery

/-- A reader of tokens. -/
structure TokenReader where
  scanner : Scanner
  /-- What the reads to come return; after these every read finds the end of the stream. -/
  reads : List ReadOutcome
  /-- Bytes of a character that is not complete. -/
  carry : List UInt8 := []
  /-- Tokens not given out yet. -/
  ready : List Token := []
  /-- Whether the stream has ended or broken off. -/
  done : Bool := false
  /-- The number of reads so far. -/
  readCount : Nat := 0

namespace TokenReader

/-- The number of bytes that a read takes unless another is chosen. -/
def defaultCapacity : Nat := 8192

/-- The most bytes that one buffer can have on a machine with words of 64 bits, where a size is also
a signed number. That memory may run out before is left aside. -/
def maxCapacity : Nat := UInt64.size / 2 - 1

/-- The number of bytes that a read takes for a chosen chunk size. A read needs a buffer for them:
there is none if the buffer would be too large. -/
def capacityOf (chunkSize : Option Nat) : Option Nat :=
  match chunkSize with
  | none => some defaultCapacity
  | some n => if n ≤ maxCapacity then some (max n 1) else none

/-- A reader at the beginning of a stream. -/
def start (a : Automaton) (reads : List ReadOutcome) : TokenReader :=
  { scanner := .ofAutomaton a, reads }

/-- A fault of the scan as an error. -/
def liftFault {α : Type} (result : Except ScanFault α) : Except ReadError α :=
  result.mapError .fault

/-- Takes in the bytes of a read that found some. -/
def take (r : TokenReader) (bs : List UInt8) : Except ReadError TokenReader := do
  let decoded := Text.decode (r.carry ++ bs)
  let carry ← match decoded.finish with
    | .complete => .ok []
    | .partway rest => .ok rest
    | .invalid count => .error (.invalidText count decoded.length)
  let (scanner, tokens) ← liftFault <|
    r.scanner.consume .collect #[] (String.ofList decoded.text)
  return { r with scanner, carry, ready := r.ready ++ tokens.toList }

/-- Takes in the end of the stream. -/
def finish (r : TokenReader) : Except ReadError TokenReader := do
  if !r.carry.isEmpty then throw .truncatedText
  let (scanner, tokens) ← liftFault (r.scanner.flush .collect #[])
  return { r with scanner, ready := r.ready ++ tokens.toList, done := true }

/-- The token to be given out next, if one is ready. -/
def pop (r : TokenReader) : Option (Token × TokenReader) :=
  match r.ready with
  | [] => none
  | token :: ready => some (token, { r with ready })

/-- A reader that gives out nothing more. -/
def stopped (r : TokenReader) : TokenReader := { r with done := true, ready := [] }

/-- Reads on until a token is ready or the stream has ended. -/
def fill (r : TokenReader) : List ReadOutcome → Except ReadError TokenReader × TokenReader
  | [] =>
    let r := { r with reads := [], readCount := r.readCount + 1 }
    (r.finish, r)
  | outcome :: reads =>
    let r := { r with reads, readCount := r.readCount + 1 }
    match outcome with
    | .interrupted => fill r reads
    | .failed message => (.error (.failed message), r)
    | .bytes [] => (r.finish, r)
    | .bytes (b :: bs) =>
      match r.take (b :: bs) with
      | .error e => (.error e, r)
      | .ok r => if r.ready.isEmpty then fill r reads else (.ok r, r)

/-- The next token or the error that ends the stream; nothing after the end. -/
def next (r : TokenReader) : Option (Except ReadError Token) × TokenReader :=
  match r.pop with
  | some (token, r) => (some (.ok token), r)
  | none =>
    if r.done then (none, r)
    else match r.fill r.reads with
      | (.error e, r) => (some (.error e), r.stopped)
      | (.ok r, _) =>
        match r.pop with
        | some (token, r) => (some (.ok token), r)
        | none => (none, r)

/-- Everything that a reader gives out, and the reader at the end. At most so many items
are asked for. -/
def itemsWithin (r : TokenReader) : Nat → List (Except ReadError Token) × TokenReader
  | 0 => ([], r)
  | bound + 1 =>
    match r.next with
    | (none, r) => ([], r)
    | (some item, r) =>
      let (items, r) := itemsWithin r bound
      (item :: items, r)

/-- A bound on the number of items: no token is empty, so there are no more tokens than bytes. -/
def itemBound (r : TokenReader) : Nat :=
  let bytes := r.reads.map fun outcome =>
    match outcome with
    | .bytes bs => bs.length
    | _ => 0
  r.ready.length + r.carry.length + r.scanner.pending.utf8ByteSize + bytes.foldl (· + ·) 0 + 2

/-- Everything that a reader gives out, and the reader at the end. -/
def items (r : TokenReader) : List (Except ReadError Token) × TokenReader :=
  r.itemsWithin r.itemBound

end TokenReader

end TrieLexer
