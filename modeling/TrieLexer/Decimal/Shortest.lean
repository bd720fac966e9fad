import TrieLexer.Decimal.Binary64

/-!
# The shortest decimal of a binary number

The written form of a floating-point number has the fewest digits that read back as the number,
and among those the digits nearest to it. The decimals that read back are those in the interval of
reals that round to the number; its ends belong to it where the significand is even.

## Main definitions

* `Binary64.readsBack` — whether a decimal lies in the interval.
* `Binary64.shortest` — the digits and the power of ten of the chosen decimal.
* `Binary64.text` — the written form: positional for exponents from -5 to 15, otherwise with a
  signed exponent.
-/

namespace TrieLexer.Binary64

/-- A whole number times a power of ten. -/
structure Decimal where
  digits : Nat
  exponent : Int
deriving DecidableEq, Repr, Inhabited

/-- A decimal as a quotient of natural numbers, in units of `2 ^ (-1074)`. -/
def Decimal.units (d : Decimal) : Nat × Nat :=
  if d.exponent < 0 then (d.digits * Nat.pow 2 minExponent, Nat.pow 10 d.exponent.natAbs)
  else (d.digits * Nat.pow 10 d.exponent.natAbs * Nat.pow 2 minExponent, 1)

/-- Whether a decimal rounds to `x`: it lies between the midpoints to the neighbours of `x`. The
neighbour below a power of two is half as far away. -/
def readsBack (x : Binary64) (d : Decimal) : Bool :=
  let (num, den) := d.units
  let four := 4 * num
  let below := if x.significand = Nat.pow 2 52 ∧ x.shift ≠ 0 then 1 else 2
  let low := (4 * x.significand - below) * Nat.pow 2 x.shift * den
  let high := (4 * x.significand + 2) * Nat.pow 2 x.shift * den
  if x.significand % 2 = 0 then decide (low ≤ four) && decide (four ≤ high)
  else decide (low < four) && decide (four < high)

/-- The least `p`, above -330, with `x < 10 ^ p`. -/
def magnitude (x : Binary64) : Int :=
  let exceeds (k : Nat) : Bool :=
    let (num, den) := Decimal.units ⟨1, (k : Int) - 330⟩
    decide (x.units * den < num)
  ((List.range 640).findIdx exceeds : Int) - 330

/-- The decimals of `n` digits next to `x`, the nearer one first; a tie puts the even one first. -/
def neighbours (x : Binary64) (n : Nat) : List Decimal :=
  let exponent := x.magnitude - n
  let (num, den) := Decimal.units ⟨1, exponent⟩
  let below := x.units * den / num
  let twice := 2 * (x.units * den % num)
  let low : Decimal := ⟨below, exponent⟩
  let high : Decimal :=
    if below + 1 = Nat.pow 10 n then ⟨Nat.pow 10 (n - 1), exponent + 1⟩ else ⟨below + 1, exponent⟩
  if twice < num ∨ twice = num ∧ below % 2 = 0 then [low, high] else [high, low]

/-- The fewest digits that read back, and of these the nearest. -/
def shortest (x : Binary64) : Decimal :=
  (((List.range 17).flatMap fun n => x.neighbours (n + 1)).find? x.readsBack).getD default

/-- The digits of a number in base ten. -/
def digitsOf (n : Nat) : List Char := Nat.toDigits 10 n

/-- Decimal digits with the point after `whole` of them. -/
def positional (digits : List Char) (whole : Int) : List Char :=
  if whole ≤ 0 then
    ['0', '.'] ++ List.replicate whole.natAbs '0' ++ digits
  else
    let n := whole.natAbs
    let fraction := digits.drop n
    digits.take n ++ List.replicate (n - digits.length) '0' ++ ['.'] ++
      (if fraction.isEmpty then ['0'] else fraction)

/-- Decimal digits with the point after the first, and a signed exponent. -/
def scientific (digits : List Char) (exponent : Int) : List Char :=
  digits.take 1 ++ (if digits.length ≤ 1 then [] else '.' :: digits.drop 1) ++
    ['e', if exponent < 0 then '-' else '+'] ++ digitsOf exponent.natAbs

/-- The written form of a number. -/
def text (x : Binary64) : List Char :=
  if x.units = 0 then ['0', '.', '0']
  else
    let d := x.shortest
    let digits := digitsOf d.digits
    let exponent := d.exponent + digits.length - 1
    if -5 ≤ exponent ∧ exponent ≤ 15 then positional digits (exponent + 1)
    else scientific digits exponent

example : (scale? 15 (-1)).map text = some "1.5".toList := by decide +kernel
example : (scale? 100 0).map text = some "100.0".toList := by decide +kernel
example : (scale? 99999999999999999999 0).map text = some "1e+20".toList := by decide +kernel
example : (scale? 5 (-324)).map text = some "5e-324".toList := by decide +kernel
example : (scale? 1 (-5)).map text = some "0.00001".toList := by decide +kernel
example : (scale? 1 (-6)).map text = some "1e-6".toList := by decide +kernel

end TrieLexer.Binary64
