import TrieLexer.Decimal.Shortest

/-!
# Numbers in JSON text

A number is a sign, an integer part without superfluous zeros, and an optional fraction and
exponent. Whole numbers of 64 bits are kept exactly; every other number becomes a floating-point
number, and one too large for that is refused. The text of a number may break off or go wrong in
the middle; the two readers of numbers differ in what they report then, so a broken number carries
both reports.

## Main definitions

* `Flaw` — how text fails to be JSON.
* `Json.Number` — the numbers of a document.
* `Json.readNumber` — the number at the front of a text.
-/

namespace TrieLexer.Json

/-- How text fails to be JSON. -/
inductive Flaw where
  /-- The text ends too early. -/
  | truncated
  /-- The text goes wrong before its end. -/
  | malformed
deriving DecidableEq, Repr, Inhabited

/-- A number of a document. -/
inductive Number where
  /-- A whole number below `2 ^ 64`. -/
  | natural (n : Nat)
  /-- The negative of a whole number from 1 to `2 ^ 63`. -/
  | negative (n : Nat)
  /-- Any other number. -/
  | real (isNegative : Bool) (magnitude : Binary64)
deriving DecidableEq, Repr, Inhabited

/-- The parts of a number in writing. -/
structure NumberText where
  isNegative : Bool
  whole : List Char
  /-- The digits after the point, if there is one. -/
  fraction : Option (List Char)
  /-- Whether the exponent is negative, and its digits. -/
  exponent : Option (Bool × List Char)

/-- The value of a decimal digit. -/
def digitValue (c : Char) : Nat := c.toNat - '0'.toNat

/-- The value of a list of decimal digits. -/
def digitsValue (digits : List Char) : Nat := digits.foldl (fun n c => 10 * n + digitValue c) 0

/-- Appends digits to a number as long as it stays below `2 ^ 64`, and counts those left over. -/
def absorbDigits (n : Nat) : List Char → Nat × Nat
  | [] => (n, 0)
  | c :: cs =>
    let next := 10 * n + digitValue c
    if next < UInt64.size then absorbDigits next cs else (n, cs.length + 1)

/-- The largest exponent that counts as one. -/
def maxExponent : Nat := Nat.pow 2 31 - 1

namespace NumberText

/-- The significand of 64 bits and the power of ten that the digits before the exponent give.
Digits that no longer fit are dropped, before the point with a higher power. -/
def significand (t : NumberText) : Nat × Int :=
  let (whole, dropped) := absorbDigits 0 t.whole
  let fraction := t.fraction.getD []
  let (all, ignored) := absorbDigits whole fraction
  (all, (dropped : Int) - (fraction.length - ignored : Nat))

/-- The value of a number that is not a whole number of 64 bits. -/
def realValue? (t : NumberText) : Option Binary64 :=
  let (digits, power) := t.significand
  match t.exponent with
  | none => Binary64.scale? digits power
  | some (isNegative, exponentDigits) =>
    let size := digitsValue exponentDigits
    if maxExponent < size then
      if digits ≠ 0 ∧ !isNegative then none else some .zero
    else Binary64.scale? digits (if isNegative then power - size else power + size)

/-- The value of a number, unless it is too large. -/
def value (t : NumberText) : Except Flaw Number :=
  let (whole, dropped) := absorbDigits 0 t.whole
  let isWhole := t.fraction.isNone && t.exponent.isNone && dropped == 0
  if isWhole && !t.isNegative then .ok (.natural whole)
  else if isWhole && t.isNegative && whole != 0 && decide (whole ≤ Nat.pow 2 63) then
    .ok (.negative whole)
  else match t.realValue? with
    | some magnitude => .ok (.real t.isNegative magnitude)
    | none => .error .malformed

end NumberText

/-- What a text holds at its front. -/
inductive Front (α : Type) where
  /-- A well-written item, its value, and the text after it. The value may still be refused. -/
  | item (value : Except Flaw α) (rest : List Char)
  /-- A broken item: the report of a reader that needs the value, and that of one that skips. -/
  | broken (reading skipping : Flaw)

/-- A number that breaks off where a digit is needed: at the end of the text or before it. -/
def missingDigit {α : Type} (rest : List Char) : Front α :=
  .broken (if rest.isEmpty then .truncated else .malformed) .malformed

/-- The exponent at the front of a text, and what follows it. -/
def readExponent (text : NumberText) : List Char → Front Number
  | cs =>
    let (isNegative, cs) := match cs with
      | '-' :: r => (true, r)
      | '+' :: r => (false, r)
      | _ => (false, cs)
    match cs.span Char.isDigit with
    | ([], rest) => missingDigit rest
    | (digits, rest) =>
      .item { text with exponent := some (isNegative, digits) }.value rest

/-- The exponent, if there is one. -/
def readExponent? (text : NumberText) : List Char → Front Number
  | 'e' :: cs => readExponent text cs
  | 'E' :: cs => readExponent text cs
  | cs => .item text.value cs

/-- The fraction and the exponent, if there are any. -/
def readFraction? (text : NumberText) : List Char → Front Number
  | '.' :: cs =>
    match cs.span Char.isDigit with
    | ([], rest) => missingDigit rest
    | (digits, rest) => readExponent? { text with fraction := some digits } rest
  | cs => readExponent? text cs

/-- The integer part and what may follow it. A zero stands alone. -/
def readWhole (isNegative : Bool) : List Char → Front Number
  | '0' :: cs =>
    if cs.head?.any Char.isDigit then .broken .malformed .malformed
    else readFraction? ⟨isNegative, ['0'], none, none⟩ cs
  | cs =>
    match cs.span Char.isDigit with
    | ([], rest) => missingDigit rest
    | (digits, rest) => readFraction? ⟨isNegative, digits, none, none⟩ rest

/-- The number at the front of a text. -/
def readNumber : List Char → Front Number
  | '-' :: cs => readWhole true cs
  | cs => readWhole false cs

/-- A number in words, for messages. -/
def Number.description : Number → String
  | natural n => "integer `" ++ toString n ++ "`"
  | negative n => "integer `-" ++ toString n ++ "`"
  | real isNegative magnitude =>
    "floating point `" ++ (if isNegative then "-" else "") ++ String.ofList magnitude.text ++ "`"

end TrieLexer.Json
