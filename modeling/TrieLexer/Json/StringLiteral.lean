import TrieLexer.Json.Number
import TrieLexer.Text.Bytes
import TrieLexer.Text.Hexadecimal

/-!
# Strings in JSON text

The body of a string is a sequence of characters and of escapes; an escape by number gives one
16-bit unit, and a character beyond 16 bits takes two units, a leading and a trailing one. A reader
that skips a string checks its escapes only one by one; a reader that needs its value also requires
the units to pair up.

## Main definitions

* `Piece` — a character or a 16-bit unit.
* `scanString` — the pieces of a string and the text after its closing quote.
* `assemble` — the value of the pieces.
* `readString` — the string at the front of a text.
-/

namespace TrieLexer.Json

/-- A part of a string in writing. -/
inductive Piece where
  | char (c : Char)
  /-- An escape by number. -/
  | unit (n : Nat)
deriving DecidableEq, Repr

/-- The character that a one-letter escape stands for. -/
def letterEscape? : Char → Option Char
  | '"' => some '"'
  | '\\' => some '\\'
  | '/' => some '/'
  | 'b' => some '\x08'
  | 'f' => some '\x0c'
  | 'n' => some '\n'
  | 'r' => some '\r'
  | 't' => some '\t'
  | _ => none

/-- The value of four hexadecimal digits. -/
def hexQuad? (a b c d : Char) : Option Nat := do
  return 4096 * (← Text.hexValue? a) + 256 * (← Text.hexValue? b) + 16 * (← Text.hexValue? c) +
    (← Text.hexValue? d)

/-- The flaw of an escape by number that lacks its digits: fewer than four bytes are left, or
something else stands there. -/
def quadFlaw (rest : List Char) : Flaw :=
  if Text.byteLength (rest.take 4) < 4 then .truncated else .malformed

/-- The pieces of a string up to its closing quote, and the text after it. -/
def scanString : List Char → List Piece × Except Flaw (List Char)
  | [] => ([], .error .truncated)
  | '"' :: rest => ([], .ok rest)
  | '\\' :: 'u' :: a :: b :: c :: d :: rest =>
    match hexQuad? a b c d with
    | some n =>
      let (pieces, after) := scanString rest
      (.unit n :: pieces, after)
    | none => ([], .error (quadFlaw (a :: b :: c :: d :: rest)))
  | '\\' :: 'u' :: rest => ([], .error (quadFlaw rest))
  | '\\' :: c :: rest =>
    match letterEscape? c with
    | some d =>
      let (pieces, after) := scanString rest
      (.char d :: pieces, after)
    | none => ([], .error .malformed)
  | ['\\'] => ([], .error .truncated)
  | c :: rest =>
    if c.toNat < 32 then ([], .error .malformed)
    else
      let (pieces, after) := scanString rest
      (.char c :: pieces, after)

/-- Whether a unit is the first of a pair. -/
def isLeading (n : Nat) : Bool := decide (0xD800 ≤ n) && decide (n ≤ 0xDBFF)

/-- Whether a unit is the second of a pair. -/
def isTrailing (n : Nat) : Bool := decide (0xDC00 ≤ n) && decide (n ≤ 0xDFFF)

/-- The character of a pair of units. -/
def pairedChar (leading trailing : Nat) : Char :=
  Char.ofNat (0x10000 + 1024 * (leading - 0xD800) + (trailing - 0xDC00))

/-- The characters that the pieces stand for. `after` is the flaw that ended them, if any; it is
reported unless a unit without its partner comes first. -/
def assemble (after : Option Flaw) : List Piece → Except Flaw (List Char)
  | [] => match after with
    | some flaw => .error flaw
    | none => .ok []
  | .char c :: pieces => (assemble after pieces).map (c :: ·)
  | .unit n :: pieces =>
    if isTrailing n then .error .malformed
    else if isLeading n then
      match pieces with
      | [] => .error (after.getD .malformed)
      | .char _ :: _ => .error .malformed
      | .unit m :: pieces =>
        if isTrailing m then (assemble after pieces).map (pairedChar n m :: ·)
        else .error .malformed
    else (assemble after pieces).map (Char.ofNat n :: ·)

/-- The string at the front of a text that stands after the opening quote. -/
def readString (cs : List Char) : Front String :=
  match scanString cs with
  | (pieces, .ok rest) => .item ((assemble none pieces).map String.ofList) rest
  | (pieces, .error flaw) =>
    match assemble (some flaw) pieces with
    | .error reading => .broken reading flaw
    | .ok _ => .broken flaw flaw

end TrieLexer.Json
