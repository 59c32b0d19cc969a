import WebFonts.Text.Blank
import WebFonts.Text.Hex

/-!
# Words

Names, identifiers, hashes and numbers as they are spelled in a stylesheet, and what an escaped
spelling stands for. Each reader splits a text into the word it starts with and the rest.
-/

namespace WebFonts.Css

open Text

/-! ## Names -/

/-- ASCII letters and digits, `-`, `_`, and every character beyond ASCII. -/
def isNameCharacter (c : Char) : Bool :=
  c.isAlphanum || c == '-' || c == '_' || 128 ≤ c.toNat

/-- The longest run of name characters and escapes at the start of a text. A backslash escapes
whatever character follows it. -/
def name : List Char → List Char × List Char
  | '\\' :: c :: text => ('\\' :: c :: (name text).1, (name text).2)
  | c :: text => if isNameCharacter c then (c :: (name text).1, (name text).2) else ([], c :: text)
  | [] => ([], [])

/-- Whether a name is a lone `-`, or starts like a number. -/
def startsLikeNumber : List Char → Bool
  | ['-'] => true
  | '-' :: c :: _ => c.isDigit
  | c :: _ => c.isDigit
  | [] => false

/-- An identifier: a name that does not look like a number. -/
def identifier? (text : List Char) : Option (List Char × List Char) :=
  if (name text).1.isEmpty || startsLikeNumber (name text).1 then none else some (name text)

/-- The name behind a `#`. -/
def hash? : List Char → Option (List Char × List Char)
  | '#' :: text => if (name text).1.isEmpty then none else some (name text)
  | _ => none

theorem name_split (text : List Char) : (name text).1 ++ (name text).2 = text := by
  fun_induction name text <;> simp_all

theorem identifier?_split {text run rest : List Char} (h : identifier? text = some (run, rest)) :
    run ++ rest = text ∧ run ≠ [] := by
  have split := name_split text
  simp only [identifier?, Option.ite_none_left_eq_some, Option.some.injEq] at h
  obtain ⟨ne, eq⟩ := h
  rw [eq] at split ne
  exact ⟨split, fun nil => ne (by simp [nil])⟩

theorem hash?_split {text run rest : List Char} (h : hash? text = some (run, rest)) :
    '#' :: (run ++ rest) = text ∧ run ≠ [] := by
  unfold hash? at h
  split at h
  · next text =>
    have split := name_split text
    simp only [Option.ite_none_left_eq_some, Option.some.injEq] at h
    obtain ⟨ne, eq⟩ := h
    rw [eq] at split ne
    exact ⟨by simp [← split], fun nil => ne (by simp [nil])⟩
  · simp at h

/-! ## Numbers -/

/-- The digits at the start of a text. -/
def digits (text : List Char) : List Char × List Char :=
  (text.takeWhile Char.isDigit, text.dropWhile Char.isDigit)

/-- The sign at the start of a text, if there is one. -/
def sign : List Char → List Char × List Char
  | '+' :: rest => (['+'], rest)
  | '-' :: rest => (['-'], rest)
  | rest => ([], rest)

/-- A point with digits behind it, or nothing. -/
def fraction : List Char → List Char × List Char
  | '.' :: text =>
    if (digits text).1.isEmpty then ([], '.' :: text) else ('.' :: (digits text).1, (digits text).2)
  | text => ([], text)

/-- Digits with an optional fraction, or a fraction alone. -/
def magnitude? (text : List Char) : Option (List Char × List Char) :=
  let whole := digits text
  let part := fraction whole.2
  if whole.1.isEmpty && part.1.isEmpty then none else some (whole.1 ++ part.1, part.2)

/-- An exponent with at least one digit, or nothing. -/
def exponent : List Char → List Char × List Char
  | c :: text =>
    let mark := sign text
    let power := digits mark.2
    if (c = 'e' ∨ c = 'E') ∧ power.1 ≠ [] then (c :: (mark.1 ++ power.1), power.2)
    else ([], c :: text)
  | [] => ([], [])

/-- A percent sign or a unit, or nothing. -/
def dimension : List Char → List Char × List Char
  | '%' :: rest => (['%'], rest)
  | text => (identifier? text).getD ([], text)

/-- A number with its sign, exponent and unit. -/
def number? (text : List Char) : Option (List Char × List Char) :=
  (magnitude? (sign text).2).map fun amount =>
    let power := exponent amount.2
    let unit := dimension power.2
    ((sign text).1 ++ amount.1 ++ power.1 ++ unit.1, unit.2)

theorem digits_split (text : List Char) : (digits text).1 ++ (digits text).2 = text :=
  List.takeWhile_append_dropWhile

theorem sign_split (text : List Char) : (sign text).1 ++ (sign text).2 = text := by
  unfold sign
  split <;> simp

theorem fraction_split (text : List Char) : (fraction text).1 ++ (fraction text).2 = text := by
  unfold fraction
  split
  · split <;> simp [digits_split]
  · simp

theorem magnitude?_split {text run rest : List Char} (h : magnitude? text = some (run, rest)) :
    run ++ rest = text ∧ run ≠ [] := by
  simp only [magnitude?, Option.ite_none_left_eq_some, Option.some.injEq, Prod.mk.injEq] at h
  obtain ⟨ne, rfl, rfl⟩ := h
  refine ⟨by rw [List.append_assoc, fraction_split, digits_split], fun nil => ne ?_⟩
  simp_all

theorem exponent_split (text : List Char) : (exponent text).1 ++ (exponent text).2 = text := by
  unfold exponent
  split
  · simp only
    split
    · simp [digits_split, sign_split]
    · simp
  · simp

theorem dimension_split (text : List Char) :
    (dimension text).1 ++ (dimension text).2 = text := by
  unfold dimension
  split
  · simp
  · cases eq : identifier? text with
    | none => simp
    | some both => exact (identifier?_split eq).1

theorem number?_split {text run rest : List Char} (h : number? text = some (run, rest)) :
    run ++ rest = text ∧ run ≠ [] := by
  obtain ⟨⟨amount, rest'⟩, eq, h⟩ := Option.map_eq_some_iff.1 h
  obtain ⟨split, ne⟩ := magnitude?_split eq
  simp only [Prod.mk.injEq] at h
  obtain ⟨rfl, rfl⟩ := h
  refine ⟨?_, by simp [ne]⟩
  simp only [List.append_assoc, dimension_split, exponent_split, split, sign_split]

/-! ## Escapes -/

/-- The hexadecimal digits at the start of a text, six at most. -/
def hexDigits (text : List Char) : List Char :=
  (text.take 6).takeWhile fun c => (hexValue? c).isSome

/-- The number that hexadecimal digits spell. -/
def hexNumber (run : List Char) : Nat :=
  run.foldl (fun n c => 16 * n + (hexValue? c).getD 0) 0

/-- The character with a code point; U+FFFD stands in for zero and for what is no code point. -/
def charOfCode (code : Nat) : Char :=
  if code ≠ 0 ∧ code.isValidChar then Char.ofNat code else '\uFFFD'

/-- A text without the one blank that may end a hexadecimal escape. -/
def skipBlank : List Char → List Char
  | c :: text => if isBlank c then text else c :: text
  | [] => []

theorem length_skipBlank_le (text : List Char) : (skipBlank text).length ≤ text.length := by
  cases text with
  | nil => simp [skipBlank]
  | cons c text =>
    simp only [skipBlank]
    split <;> simp

/-- What follows a hexadecimal escape, given the text behind its first digit. -/
def behindEscape (c : Char) (text : List Char) : List Char :=
  skipBlank (text.drop ((hexDigits (c :: text)).length - 1))

theorem length_behindEscape_le (c : Char) (text : List Char) :
    (behindEscape c text).length ≤ text.length := by
  have := length_skipBlank_le (text.drop ((hexDigits (c :: text)).length - 1))
  rw [List.length_drop] at this
  unfold behindEscape
  omega

/-- What a spelling with escapes stands for. A backslash in front of hexadecimal digits makes a
code point, in front of a line feed or at the end of the text it makes nothing, and any other
character stands for itself. -/
def unescape : List Char → List Char
  | [] => []
  | ['\\'] => []
  | '\\' :: c :: text =>
    if c = '\n' then unescape text
    else if hexValue? c = none then c :: unescape text
    else charOfCode (hexNumber (hexDigits (c :: text))) :: unescape (behindEscape c text)
  | c :: text => c :: unescape text
termination_by text => text.length
decreasing_by
  all_goals simp only [List.length_cons]
  all_goals have := length_behindEscape_le c text
  all_goals omega

end WebFonts.Css
