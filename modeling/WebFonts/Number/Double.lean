/-!
# Doubles

The finite non-negative values of a binary floating-point format with 53 bits of precision, and
exact arithmetic on them: every result is the double nearest to the true one, and of two equally
near ones the one with the even mantissa.
-/

namespace WebFonts

/-- The value `mantissa * 2 ^ exponent`. -/
structure Double where
  mantissa : Nat
  exponent : Int
  deriving DecidableEq, Repr

namespace Double

/-- The least exponent; values below `2 ^ 52` of these units are subnormal. -/
def minExponent : Int := -1074

/-- The greatest exponent. -/
def maxExponent : Int := 971

/-- The quotient `num / den`, rounded to the nearest integer, ties to even. -/
def roundDiv (num den : Nat) : Nat :=
  let quotient := num / den
  let twice := 2 * (num % den)
  if twice < den then quotient
  else if den < twice then quotient + 1
  else quotient + quotient % 2

/-- The fraction `num / den / 2 ^ exponent`. -/
def scaled (num den : Nat) (exponent : Int) : Nat × Nat :=
  if 0 ≤ exponent then (num, den * Nat.pow 2 exponent.toNat)
  else (num * Nat.pow 2 (-exponent).toNat, den)

/-- The exponent at which the quotient of a fraction has 53 binary digits, or the least one. -/
def exponentOf (num den : Nat) : Int :=
  let guess := (num.log2 : Int) - den.log2 - 53
  let (n, d) := scaled num den guess
  max minExponent (if Nat.pow 2 53 ≤ n / d then guess + 1 else guess)

/-- The double nearest to a fraction, or `none` if it lies beyond the greatest one. -/
def nearest? (num den : Nat) : Option Double :=
  let exponent := exponentOf num den
  let (n, d) := scaled num den exponent
  let mantissa := roundDiv n d
  let rounded : Double :=
    if mantissa = Nat.pow 2 53 then ⟨Nat.pow 2 52, exponent + 1⟩ else ⟨mantissa, exponent⟩
  if rounded.exponent ≤ maxExponent then some rounded else none

/-- Zero. -/
def zero : Double := ⟨0, minExponent⟩

/-- The fraction `num * 2 ^ exponent / den`, rounded. -/
def ofScaled? (num den : Nat) (exponent : Int) : Option Double :=
  if 0 ≤ exponent then nearest? (num * Nat.pow 2 exponent.toNat) den
  else nearest? num (den * Nat.pow 2 (-exponent).toNat)

/-- The product of two doubles, unless it is too large. -/
def mul? (x y : Double) : Option Double :=
  ofScaled? (x.mantissa * y.mantissa) 1 (x.exponent + y.exponent)

/-- The quotient of two doubles, unless it is too large. The divisor is not zero. -/
def div? (x y : Double) : Option Double :=
  ofScaled? x.mantissa y.mantissa (x.exponent - y.exponent)

/-- The double nearest to a power of ten. -/
def pow10? (n : Nat) : Option Double := nearest? (Nat.pow 10 n) 1

end Double

end WebFonts
