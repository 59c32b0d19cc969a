import WebFonts.Number.Double

/-!
# Numerals

Numbers as JSON writes them, and the doubles they are read as. A value is found in two steps, each
of which rounds: the first digits that make an integer below `2 ^ 64` become a double, which is
then scaled by a power of ten.
-/

namespace WebFonts

/-- A number as it is written, its digits as characters. -/
structure Numeral where
  negative : Bool
  whole : List Char
  fraction : Option (List Char)
  exponent : Option (List Char × List Char)
  deriving DecidableEq, Repr

namespace Numeral

/-- The numeral of a natural number. -/
def ofNat (n : Nat) : Numeral := ⟨false, Nat.toDigits 10 n, none, none⟩

/-- The spelling of a numeral. -/
def toChars (numeral : Numeral) : List Char :=
  (if numeral.negative then ['-'] else []) ++ numeral.whole ++
    (match numeral.fraction with
      | none => []
      | some digits => '.' :: digits) ++
    match numeral.exponent with
    | none => []
    | some (mark, digits) => 'e' :: (mark ++ digits)

/-- The number that decimal digits spell. -/
def digitsValue (digits : List Char) : Nat :=
  digits.foldl (fun n c => 10 * n + (c.toNat - '0'.toNat)) 0

/-- The natural number that a numeral without sign, fraction and exponent spells. -/
def toNat? (numeral : Numeral) : Option Nat :=
  if numeral.negative || numeral.fraction.isSome || numeral.exponent.isSome then none
  else some (digitsValue numeral.whole)

/-- Appends digits to a number while it stays below `2 ^ 64`, and tells how many were left. -/
def appendDigits (n : Nat) : List Char → Nat × Nat
  | [] => (n, 0)
  | c :: rest =>
    let longer := 10 * n + (c.toNat - '0'.toNat)
    if longer < Nat.pow 2 64 then appendDigits longer rest else (n, rest.length + 1)

/-- The power of ten that an exponent asks for. -/
def power (numeral : Numeral) : Int :=
  match numeral.exponent with
  | none => 0
  | some (mark, digits) => if mark = ['-'] then -(digitsValue digits : Int) else digitsValue digits

/-- The leading digits and the power of ten they are to be scaled by. Digits of the whole part
that are left out raise that power, and digits of the fraction that are taken lower it. -/
def parts (numeral : Numeral) : Nat × Int :=
  let (whole, dropped) := appendDigits 0 numeral.whole
  let fraction := numeral.fraction.getD []
  let (all, left) := appendDigits whole fraction
  (all, dropped - ((fraction.length : Int) - left) + numeral.power)

/-- The greatest power of ten below the greatest double. -/
def maxPower : Nat := 308

/-- Divides a double below `2 ^ 64` by a power of ten, in steps of at most `10 ^ maxPower`; two
whole steps leave nothing of it. -/
def scaleDown (x : Double) (power : Nat) : Option Double :=
  if power ≤ maxPower then (Double.pow10? power).bind x.div?
  else if power ≤ 2 * maxPower then do
    let quotient ← x.div? (← Double.pow10? maxPower)
    quotient.div? (← Double.pow10? (power - maxPower))
  else some Double.zero

/-- A double times a power of ten. -/
def scale? (x : Double) (power : Int) : Option Double :=
  if x.mantissa = 0 then some x
  else if power < 0 then scaleDown x (-power).toNat
  else if power ≤ maxPower then (Double.pow10? power.toNat).bind x.mul?
  else none

/-- The magnitude of a numeral, or `none` if it is beyond all doubles. -/
def toDouble? (numeral : Numeral) : Option Double :=
  let (leading, power) := numeral.parts
  (Double.nearest? leading 1).bind fun x => scale? x power

end Numeral

end WebFonts
