/-!
# Variable-length quantities

An integer as Base64 digits of five bits each, lowest first; every digit but the last has its
sixth bit set, and the lowest bit of all is the sign. Reading works on words of 64 bits.
-/

namespace WebFonts.SourceMap.Vlq

/-- The Base64 alphabet. -/
def alphabet : List Char :=
  "ABCDEFGHIJKLMNOPQRSTUVWXYZabcdefghijklmnopqrstuvwxyz0123456789+/".toList

/-- The digit for a number below 64. -/
def digit (n : Nat) : Char := alphabet.getD n 'A'

/-- The number that a digit stands for. -/
def value? (c : Char) : Option Nat := alphabet.idxOf? c

/-- An integer with its sign moved to the lowest bit. -/
def fold (v : Int) : Nat := if v < 0 then 2 * v.natAbs + 1 else 2 * v.natAbs

/-- The digits of a natural number. -/
def encodeNat (n : Nat) : List Char :=
  if n < 32 then [digit n] else digit (n % 32 + 32) :: encodeNat (n / 32)
termination_by n
decreasing_by omega

/-- The digits of an integer. -/
def encode (v : Int) : List Char := encodeNat (fold v)

/-- The representative of an integer in a signed word of 64 bits. -/
def word (n : Int) : Int := n.bmod (Nat.pow 2 64)

/-- A word with its sign taken back from the lowest bit. -/
def unfold (n : Int) : Int := if n % 2 = 1 then -(n / 2) else n / 2

/-- Reads on at a digit of weight `2 ^ shift`, given what the digits before it add up to. As in
the word that holds the sum, a shift counts modulo 64. -/
def decodeFrom (sum : Int) (shift : Nat) : List Char → Option (Int × List Char)
  | [] => none
  | c :: rest =>
    match value? c with
    | none => none
    | some n =>
      let sum := word (sum + word (n % 32 * Nat.pow 2 (shift % 64) : Nat))
      if n < 32 then some (unfold sum, rest) else decodeFrom sum (shift + 5) rest

/-- The integer at the start of a text, and the text behind its last digit. -/
def decode (text : List Char) : Option (Int × List Char) := decodeFrom 0 0 text

end WebFonts.SourceMap.Vlq
