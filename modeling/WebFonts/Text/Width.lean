/-!
# Widths of a text

Offsets into a stylesheet count the bytes of its UTF-8 form; columns of a source map count
UTF-16 units.
-/

namespace WebFonts.Text

/-- The bytes of a text in UTF-8. -/
def utf8Width : List Char → Nat
  | [] => 0
  | c :: rest => c.utf8Size + utf8Width rest

/-- The UTF-16 units of a character: two beyond the basic plane, else one. -/
def utf16Size (c : Char) : Nat := if c.toNat < 0x10000 then 1 else 2

/-- The UTF-16 units of a text. -/
def utf16Width : List Char → Nat
  | [] => 0
  | c :: rest => utf16Size c + utf16Width rest

@[simp] theorem utf8Width_append (s t : List Char) :
    utf8Width (s ++ t) = utf8Width s + utf8Width t := by
  induction s with
  | nil => simp [utf8Width]
  | cons c s ih => simp [utf8Width, ih, Nat.add_assoc]

@[simp] theorem utf16Width_append (s t : List Char) :
    utf16Width (s ++ t) = utf16Width s + utf16Width t := by
  induction s with
  | nil => simp [utf16Width]
  | cons c s ih => simp [utf16Width, ih, Nat.add_assoc]

end WebFonts.Text
