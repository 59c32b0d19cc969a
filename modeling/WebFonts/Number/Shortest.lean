import WebFonts.Number.Double

/-!
# Shortest decimals

The decimal with the fewest digits that reads back as a given double; among those the nearest to
it, and of two equally near ones the greater.
-/

namespace WebFonts

/-- The value `digits * 10 ^ exponent`. -/
structure Decimal where
  digits : Nat
  exponent : Int
  deriving DecidableEq, Repr

namespace Double

/-- The number of decimal digits of a positive integer. -/
def digitCount (n : Nat) : Nat := (Nat.toDigits 10 n).length

/-- The number of digits a positive fraction has in front of its decimal point; for one below a
tenth this is minus the number of zeros behind the point. -/
def wholeDigits (num den : Nat) : Int :=
  if den ≤ num then digitCount (num / den)
  else 1 - (digitCount ((den + num - 1) / num - 1) : Int)

/-- The fraction that a number of units of `2 ^ exponent / 4` makes, divided by a power of ten. -/
def quarters (exponent power : Int) (units : Nat) : Nat × Nat :=
  let two := exponent - 2
  (units * Nat.pow 2 two.toNat * Nat.pow 10 (-power).toNat,
    Nat.pow 2 (-two).toNat * Nat.pow 10 power.toNat)

/-- Whether `multiple * 10 ^ power` reads back as a double: it lies between the halfway points to
the two neighbours of the double, which themselves count if the mantissa is even. -/
def readsBack (x : Double) (power : Int) (multiple : Nat) : Bool :=
  let below := if x.mantissa = Nat.pow 2 52 ∧ minExponent < x.exponent then 1 else 2
  let (low, den) := quarters x.exponent power (4 * x.mantissa - below)
  let (high, _) := quarters x.exponent power (4 * x.mantissa + 2)
  if x.mantissa % 2 = 0 then low ≤ multiple * den && multiple * den ≤ high
  else low < multiple * den && multiple * den < high

/-- The multiple of `10 ^ power` next to a double that reads back as it; the nearer one if both
neighbours do, and the greater one of two that are equally near. -/
def onGrid? (x : Double) (power : Int) : Option Nat :=
  let (num, den) := quarters x.exponent power (4 * x.mantissa)
  let floor := num / den
  match readsBack x power floor, readsBack x power (floor + 1) with
  | true, false => some floor
  | false, true => some (floor + 1)
  | true, true => if 2 * num < (2 * floor + 1) * den then some floor else some (floor + 1)
  | false, false => none

/-- The shortest decimal that reads back as a positive double; 17 digits are always enough. -/
def shortest (x : Double) : Decimal :=
  let (num, den) := quarters x.exponent 0 (4 * x.mantissa)
  let whole := wholeDigits num den
  let onGridOf (count : Nat) : Option Decimal :=
    (onGrid? x (whole - (count + 1))).map fun digits => ⟨digits, whole - (count + 1)⟩
  ((List.range 17).findSome? onGridOf).getD ⟨0, 0⟩

end Double

namespace Decimal

/-- A run of zeros. -/
def zeros (n : Nat) : List Char := List.replicate n '0'

/-- A text without the zeros it ends with. -/
def trimZeros (text : List Char) : List Char := (text.reverse.dropWhile (· == '0')).reverse

/-- A decimal without an exponent: whole numbers end in as many zeros as they need, and all
others have a digit in front of the point and none that is a final zero. -/
def positional (decimal : Decimal) : List Char :=
  let written := Nat.toDigits 10 decimal.digits
  if 0 ≤ decimal.exponent then written ++ zeros decimal.exponent.toNat
  else
    let places := (-decimal.exponent).toNat
    let padded := zeros (places + 1 - written.length) ++ written
    let whole := padded.take (padded.length - places)
    let fraction := trimZeros (padded.drop (padded.length - places))
    if fraction.isEmpty then whole else whole ++ '.' :: fraction

end Decimal

end WebFonts
