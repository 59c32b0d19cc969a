import WebFonts.Json.Value
import WebFonts.Text.Hex
import WebFonts.Text.Width

/-!
# Strings and numerals of JSON

Reading the text of a string or of a numeral. A text is also passed over without being read; that
is less strict on strings, which may then hold halves of surrogate pairs.
-/

namespace WebFonts.Json

open Text

/-- Why a text cannot be read: it is no JSON, it is JSON of another kind than the one asked for,
or it ends too soon. -/
inductive Problem where
  | malformed
  | unsuitable
  | cutShort
  deriving DecidableEq, Repr

/-- The white space of JSON. -/
def isSpace (c : Char) : Bool := c == ' ' || c == '\t' || c == '\n' || c == '\r'

/-- A text without the white space it starts with. -/
def skipSpace (text : List Char) : List Char := text.dropWhile isSpace

theorem length_skipSpace_le (text : List Char) : (skipSpace text).length ≤ text.length :=
  (List.dropWhile_suffix _).length_le

/-- What follows the white space in front of a character is shorter than the whole. -/
theorem skipSpace_shorter {text rest : List Char} {c : Char} (h : skipSpace text = c :: rest) :
    rest.length < text.length := by
  have := length_skipSpace_le text
  rw [h, List.length_cons] at this
  omega

/-! ## Strings -/

/-- The number that four hexadecimal digits spell. A text of less than four bytes ends too soon,
whatever it holds. -/
def readHex (text : List Char) : Except Problem (Nat × List Char) :=
  if utf8Width (text.take 4) < 4 then .error .cutShort
  else
    match text with
    | a :: b :: c :: d :: rest =>
      match hexValue? a, hexValue? b, hexValue? c, hexValue? d with
      | some a, some b, some c, some d => .ok (((a * 16 + b) * 16 + c) * 16 + d, rest)
      | _, _, _, _ => .error .malformed
    | _ => .error .malformed

/-- The character that a letter behind a backslash stands for. -/
def shortEscape? : Char → Option Char
  | '"' => some '"'
  | '\\' => some '\\'
  | '/' => some '/'
  | 'b' => some '\x08'
  | 'f' => some '\x0c'
  | 'n' => some '\n'
  | 'r' => some '\r'
  | 't' => some '\t'
  | _ => none

/-- The character that hexadecimal escapes stand for, given the text behind the first `\u`. Two
of them make up a character beyond the basic plane. -/
def readUnicode (text : List Char) : Except Problem (Char × List Char) :=
  match readHex text with
  | .error problem => .error problem
  | .ok (high, rest) =>
    if 0xDC00 ≤ high ∧ high ≤ 0xDFFF then .error .malformed
    else if 0xD800 ≤ high ∧ high ≤ 0xDBFF then
      match rest with
      | [] => .error .cutShort
      | ['\\'] => .error .cutShort
      | '\\' :: 'u' :: rest =>
        match readHex rest with
        | .error problem => .error problem
        | .ok (low, rest) =>
          if 0xDC00 ≤ low ∧ low ≤ 0xDFFF then
            .ok (Char.ofNat (0x10000 + (high - 0xD800) * 0x400 + (low - 0xDC00)), rest)
          else .error .malformed
      | _ => .error .malformed
    else .ok (Char.ofNat high, rest)

/-- The character that an escape stands for, given the text behind its backslash. -/
def readEscape : List Char → Except Problem (Char × List Char)
  | [] => .error .cutShort
  | 'u' :: rest => readUnicode rest
  | c :: rest =>
    match shortEscape? c with
    | some e => .ok (e, rest)
    | none => .error .malformed

theorem readHex_shorter {text rest : List Char} {n : Nat} (h : readHex text = .ok (n, rest)) :
    rest.length < text.length := by
  unfold readHex at h
  split at h
  · simp at h
  · split at h
    · split at h
      · simp only [Except.ok.injEq, Prod.mk.injEq] at h
        obtain ⟨-, rfl⟩ := h
        simp only [List.length_cons]
        omega
      · simp at h
    · simp at h

theorem readUnicode_shorter {text rest : List Char} {c : Char}
    (h : readUnicode text = .ok (c, rest)) : rest.length < text.length := by
  unfold readUnicode at h
  split at h
  · simp at h
  · next eq =>
    have := readHex_shorter eq
    split at h
    · simp at h
    · split at h
      · split at h
        · simp at h
        · simp at h
        · split at h
          · simp at h
          · next eq' =>
            have := readHex_shorter eq'
            split at h
            · simp only [Except.ok.injEq, Prod.mk.injEq] at h
              obtain ⟨-, rfl⟩ := h
              simp only [List.length_cons] at *
              omega
            · simp at h
        · simp at h
      · simp only [Except.ok.injEq, Prod.mk.injEq] at h
        obtain ⟨-, rfl⟩ := h
        assumption

theorem readEscape_shorter {text rest : List Char} {c : Char}
    (h : readEscape text = .ok (c, rest)) : rest.length < text.length := by
  unfold readEscape at h
  split at h
  · simp at h
  · exact Nat.lt_succ_of_lt (readUnicode_shorter h)
  · split at h
    · simp only [Except.ok.injEq, Prod.mk.injEq] at h
      obtain ⟨-, rfl⟩ := h
      simp
    · simp at h

/-- The contents of a string and the text behind it, given the text behind its first quote. -/
def readString (text : List Char) : Except Problem (List Char × List Char) :=
  match text with
  | [] => .error .cutShort
  | c :: rest =>
    if c = '"' then .ok ([], rest)
    else if c = '\\' then
      match _h : readEscape rest with
      | .error problem => .error problem
      | .ok (e, behind) =>
        match readString behind with
        | .error problem => .error problem
        | .ok (contents, last) => .ok (e :: contents, last)
    else if c.toNat < 0x20 then .error .malformed
    else
      match readString rest with
      | .error problem => .error problem
      | .ok (contents, last) => .ok (c :: contents, last)
termination_by text.length
decreasing_by
  · have := readEscape_shorter _h
    simp only [List.length_cons]
    omega
  · simp

/-- Passes over an escape, given the text behind its backslash. -/
def skipEscape : List Char → Except Problem (List Char)
  | [] => .error .cutShort
  | 'u' :: rest => (readHex rest).map Prod.snd
  | c :: rest =>
    match shortEscape? c with
    | some _ => .ok rest
    | none => .error .malformed

theorem skipEscape_shorter {text rest : List Char} (h : skipEscape text = .ok rest) :
    rest.length < text.length := by
  unfold skipEscape at h
  split at h
  · simp at h
  · next behind =>
    cases eq : readHex behind with
    | error => simp [eq, Except.map] at h
    | ok both =>
      obtain ⟨n, last⟩ := both
      have := readHex_shorter eq
      simp only [eq, Except.map, Except.ok.injEq] at h
      subst h
      simp only [List.length_cons]
      omega
  · split at h
    · simp only [Except.ok.injEq] at h
      simp [h]
    · simp at h

/-- Passes over a string, given the text behind its first quote. -/
def skipString (text : List Char) : Except Problem (List Char) :=
  match text with
  | [] => .error .cutShort
  | c :: rest =>
    if c = '"' then .ok rest
    else if c = '\\' then
      match _h : skipEscape rest with
      | .error problem => .error problem
      | .ok behind => skipString behind
    else if c.toNat < 0x20 then .error .malformed
    else skipString rest
termination_by text.length
decreasing_by
  · have := skipEscape_shorter _h
    simp only [List.length_cons]
    omega
  · simp

theorem readString_shorter {text contents rest : List Char}
    (h : readString text = .ok (contents, rest)) : rest.length < text.length := by
  fun_induction readString text generalizing contents with
  | case1 => simp at h
  | case2 =>
    obtain ⟨-, rfl⟩ := Prod.mk.inj (Except.ok.inj h)
    simp
  | case3 => simp at h
  | case4 => simp at h
  | case5 text e behind eq found last eq' _ ih =>
    obtain ⟨-, rfl⟩ := Prod.mk.inj (Except.ok.inj h)
    have := readEscape_shorter eq
    have := ih eq'
    simp only [List.length_cons]
    omega
  | case6 => simp at h
  | case7 => simp at h
  | case8 c text _ _ _ found last eq ih =>
    obtain ⟨-, rfl⟩ := Prod.mk.inj (Except.ok.inj h)
    exact Nat.lt_succ_of_lt (ih eq)

theorem skipString_shorter {text rest : List Char} (h : skipString text = .ok rest) :
    rest.length < text.length := by
  fun_induction skipString text with
  | case1 => simp at h
  | case2 => simp_all
  | case3 => simp at h
  | case4 text behind eq _ ih =>
    have := skipEscape_shorter eq
    have := ih h
    simp only [List.length_cons]
    omega
  | case5 => simp at h
  | case6 c text _ _ _ ih => exact Nat.lt_succ_of_lt (ih h)

/-! ## Numerals -/

/-- The digits at the start of a text; there must be one. -/
def readDigits (text : List Char) : Except Problem (List Char × List Char) :=
  match text with
  | [] => .error .cutShort
  | c :: _ =>
    if c.isDigit then .ok (text.takeWhile Char.isDigit, text.dropWhile Char.isDigit)
    else .error .malformed

/-- The whole part of a numeral: a lone zero, or digits that start with none. -/
def readWhole (text : List Char) : Except Problem (List Char × List Char) :=
  match text with
  | '0' :: c :: rest => if c.isDigit then .error .malformed else .ok (['0'], c :: rest)
  | _ => readDigits text

/-- The fraction of a numeral, if there is a point. -/
def readFraction : List Char → Except Problem (Option (List Char) × List Char)
  | '.' :: text =>
    match readDigits text with
    | .error problem => .error problem
    | .ok (digits, rest) => .ok (some digits, rest)
  | text => .ok (none, text)

/-- The sign of an exponent, if there is one. -/
def readMark : List Char → List Char × List Char
  | '+' :: rest => (['+'], rest)
  | '-' :: rest => (['-'], rest)
  | rest => ([], rest)

/-- The exponent of a numeral with its sign, if there is an `e` in front of it. -/
def readExponent (text : List Char) :
    Except Problem (Option (List Char × List Char) × List Char) :=
  match text with
  | [] => .ok (none, [])
  | c :: behind =>
    if c = 'e' ∨ c = 'E' then
      match readDigits (readMark behind).2 with
      | .error problem => .error problem
      | .ok (digits, rest) => .ok (some ((readMark behind).1, digits), rest)
    else .ok (none, text)

/-- The numeral at the start of a text and the text behind it. -/
def readNumeral (text : List Char) : Except Problem (Numeral × List Char) := do
  let negative := text.head? == some '-'
  let (whole, rest) ← readWhole (if negative then text.tail else text)
  let (fraction, rest) ← readFraction rest
  let (exponent, rest) ← readExponent rest
  return (⟨negative, whole, fraction, exponent⟩, rest)

theorem readDigits_le {text digits rest : List Char}
    (h : readDigits text = .ok (digits, rest)) : rest.length ≤ text.length := by
  unfold readDigits at h
  split at h
  · simp at h
  · split at h
    · obtain ⟨-, rfl⟩ := Prod.mk.inj (Except.ok.inj h)
      exact (List.dropWhile_suffix _).length_le
    · simp at h

theorem readWhole_le {text digits rest : List Char}
    (h : readWhole text = .ok (digits, rest)) : rest.length ≤ text.length := by
  unfold readWhole at h
  split at h
  · split at h
    · simp at h
    · obtain ⟨-, rfl⟩ := Prod.mk.inj (Except.ok.inj h)
      simp
  · exact readDigits_le h

theorem readFraction_le {text rest : List Char} {digits : Option (List Char)}
    (h : readFraction text = .ok (digits, rest)) : rest.length ≤ text.length := by
  unfold readFraction at h
  split at h
  · split at h
    · simp at h
    · next eq =>
      obtain ⟨-, rfl⟩ := Prod.mk.inj (Except.ok.inj h)
      exact Nat.le_succ_of_le (readDigits_le eq)
  · obtain ⟨-, rfl⟩ := Prod.mk.inj (Except.ok.inj h)
    exact Nat.le_refl _

theorem readMark_le (text : List Char) : (readMark text).2.length ≤ text.length := by
  unfold readMark
  split <;> simp

theorem readExponent_le {text rest : List Char} {power : Option (List Char × List Char)}
    (h : readExponent text = .ok (power, rest)) : rest.length ≤ text.length := by
  unfold readExponent at h
  split at h
  · simp_all
  · next c behind =>
    split at h
    · split at h
      · simp at h
      · next eq =>
        obtain ⟨-, rfl⟩ := Prod.mk.inj (Except.ok.inj h)
        exact Nat.le_succ_of_le (Nat.le_trans (readDigits_le eq) (readMark_le behind))
    · obtain ⟨-, rfl⟩ := Prod.mk.inj (Except.ok.inj h)
      exact Nat.le_refl _

theorem readNumeral_le {text rest : List Char} {numeral : Numeral}
    (h : readNumeral text = .ok (numeral, rest)) : rest.length ≤ text.length := by
  simp only [readNumeral, bind, Except.bind, pure, Except.pure] at h
  split at h
  · simp at h
  · next whole eq =>
    split at h
    · simp at h
    · next fraction eq' =>
      split at h
      · simp at h
      · next power eq'' =>
        obtain ⟨-, rfl⟩ := Prod.mk.inj (Except.ok.inj h)
        have := readExponent_le eq''
        have := readFraction_le eq'
        have := readWhole_le eq
        split at this <;> simp_all <;> omega

end WebFonts.Json
