import TrieLexer.Grammar.CharClass
import TrieLexer.Json.Problem
import TrieLexer.Text.Blank
import TrieLexer.Text.Hexadecimal

/-!
# Flags in writing

The groups of a class are written as their names, separated by bars. Bits of no group are written
last, as one hexadecimal number. When flags are read, names and hexadecimal numbers may be mixed in
any order, with blanks around each part; text without anything but blanks means no flags.

## Main definitions

* `CharFlags.text` — flags in writing.
* `CharFlags.ofText?` — the flags of a text, or why it is refused.
-/

namespace TrieLexer.CharFlags

/-- A byte in lowercase hexadecimal. -/
def hexText (bits : UInt8) : String := String.ofList ('0' :: 'x' :: Nat.toDigits 16 bits.toNat)

/-- Flags in writing. -/
def text (flags : CharFlags) : String :=
  let names := (CharGroup.all.filter flags.has).map CharGroup.name
  let others := if flags.unnamedBits = 0 then [] else [hexText flags.unnamedBits]
  " | ".intercalate (names ++ others)

/-- The value of hexadecimal digits after `n`, as long as it fits a byte. -/
def hexDigits? : Nat → List Char → Option Nat
  | n, [] => some n
  | n, c :: cs => do
    let next := 16 * n + (← Text.hexValue? c)
    if next < 256 then hexDigits? next cs else none

/-- A byte in hexadecimal, with an optional plus sign. -/
def hexByte? (cs : List Char) : Option UInt8 :=
  let digits := match cs with
    | '+' :: r => r
    | _ => cs
  if digits.isEmpty then none else (hexDigits? 0 digits).map UInt8.ofNat

/-- The bits of one part between bars. -/
def part? (cs : List Char) : Except Json.FlagProblem UInt8 :=
  match Text.trimBlank cs with
  | [] => .error .emptyFlag
  | '0' :: 'x' :: digits =>
    match hexByte? digits with
    | some bits => .ok bits
    | none => .error .invalidHex
  | name =>
    match CharGroup.all.find? (·.name.toList == name) with
    | some group => .ok group.bit
    | none => .error .unknownName

/-- The parts of a text between bars. -/
def parts : List Char → List (List Char)
  | [] => [[]]
  | c :: cs =>
    if c = '|' then [] :: parts cs
    else match parts cs with
      | [] => [[c]]
      | first :: rest => (c :: first) :: rest

/-- The bits of all parts together. -/
def combine : List (List Char) → Except Json.FlagProblem UInt8
  | [] => .ok 0
  | cs :: rest => do
    let bits ← part? cs
    let others ← combine rest
    return bits ||| others

/-- The flags of a text. -/
def ofText? (s : String) : Except Json.FlagProblem CharFlags :=
  if (Text.trimBlank s.toList).isEmpty then .ok {} else CharFlags.mk <$> combine (parts s.toList)

example : (CharFlags.mk 0xe5).text = "ASCII_LETTERS | UNDERSCORE | 0xe0" := by decide

end TrieLexer.CharFlags
