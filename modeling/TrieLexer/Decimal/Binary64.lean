/-!
# Binary floating point, in whole numbers

A non-negative number of the 64-bit binary format is a significand below `2 ^ 53` times a power of
two, and the smallest power is `2 ^ (-1074)`. So its value, counted in units of `2 ^ (-1074)`, is
`significand * 2 ^ shift`, a natural number. All arithmetic here is exact on natural numbers, with
one rounding at its end.

## Main definitions

* `Binary64` — a non-negative finite number of the format.
* `Binary64.round?` — the number nearest a quotient, a tie going to the even significand; `none`
  where the quotient is too large for the format.
* `Binary64.scale?` — a natural number times a power of ten, in the steps of a decimal reader.
-/

namespace TrieLexer

/-- A non-negative number of the 64-bit binary format. -/
structure Binary64 where
  /-- Below `2 ^ 53`, and at least `2 ^ 52` unless `shift` is zero. -/
  significand : Nat
  /-- The power of two above `2 ^ (-1074)`. -/
  shift : Nat
deriving DecidableEq, Repr, Inhabited

namespace Binary64

/-- The number zero. -/
def zero : Binary64 := ⟨0, 0⟩

/-- The exponent, below zero, of the smallest power of two. -/
def minExponent : Nat := 1074

/-- The value in units of `2 ^ (-1074)`. -/
def units (x : Binary64) : Nat := x.significand * Nat.pow 2 x.shift

/-- The quotient rounded to a whole number, a half going to the even neighbour. -/
def divideToEven (num den : Nat) : Nat :=
  let below := num / den
  let twice := 2 * (num % den)
  if twice < den then below
  else if den < twice then below + 1
  else below + below % 2

/-- The number nearest `num / den`, given in units of `2 ^ (-1074)`. -/
def roundUnits? (num den : Nat) : Option Binary64 :=
  let shift := (num / den).log2 + 1 - 53
  let significand := divideToEven num (den * Nat.pow 2 shift)
  let result : Binary64 :=
    if significand = Nat.pow 2 53 then ⟨Nat.pow 2 52, shift + 1⟩ else ⟨significand, shift⟩
  if result.shift ≤ 971 + minExponent then some result else none

/-- The number nearest `num / den`. -/
def round? (num den : Nat) : Option Binary64 := roundUnits? (num * Nat.pow 2 minExponent) den

/-- The product, rounded. -/
def multiply? (x y : Binary64) : Option Binary64 :=
  roundUnits? (x.units * y.units) (Nat.pow 2 minExponent)

/-- The quotient, rounded. A quotient by zero is refused. -/
def divide? (x y : Binary64) : Option Binary64 :=
  if y.units = 0 then none else round? x.units y.units

/-- The power of ten that the format's largest numbers still reach. -/
def maxPower : Nat := 308

/-- `x` divided by `10 ^ n`, in steps that each divide by at most `10 ^ 308`. The division stops
when nothing is left of `x`. -/
def scaleDown? (x : Binary64) (n : Nat) : Option Binary64 :=
  go (n / maxPower + 1) x n
where
  go : Nat → Binary64 → Nat → Option Binary64
    | 0, x, _ => some x
    | steps + 1, x, n =>
      if n ≤ maxPower then do x.divide? (← round? (Nat.pow 10 n) 1)
      else if x.units = 0 then some x
      else do go steps (← x.divide? (← round? (Nat.pow 10 maxPower) 1)) (n - maxPower)

/-- `x` times `10 ^ n`, in one step. -/
def scaleUp? (x : Binary64) (n : Nat) : Option Binary64 :=
  if n ≤ maxPower then do x.multiply? (← round? (Nat.pow 10 n) 1)
  else if x.units = 0 then some x
  else none

/-- `significand` times `10 ^ exponent`. The significand, the power of ten and the result are
rounded one after the other. -/
def scale? (significand : Nat) (exponent : Int) : Option Binary64 := do
  let x ← round? significand 1
  if exponent < 0 then x.scaleDown? exponent.natAbs else x.scaleUp? exponent.natAbs

example : round? 1 1 = some ⟨Nat.pow 2 52, 1022⟩ := by decide +kernel
example : round? (Nat.pow 2 1024) 1 = none := by decide +kernel
example : scale? 5 (-324) = some ⟨1, 0⟩ := by decide +kernel

end Binary64

end TrieLexer
