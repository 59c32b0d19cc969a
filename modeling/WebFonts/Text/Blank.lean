/-!
# Blank characters

The white space of Unicode, and texts with the blanks cut off at their ends.
-/

namespace WebFonts.Text

/-- Membership in the Unicode property White_Space. -/
def isBlank (c : Char) : Bool :=
  let n := c.toNat
  (9 ≤ n && n ≤ 13) || n == 0x20 || n == 0x85 || n == 0xA0 || n == 0x1680 ||
    (0x2000 ≤ n && n ≤ 0x200A) || n == 0x2028 || n == 0x2029 || n == 0x202F ||
    n == 0x205F || n == 0x3000

/-- A text without the blanks it starts with. -/
def trimStart (text : List Char) : List Char := text.dropWhile isBlank

/-- A text without the blanks it ends with. -/
def trimEnd (text : List Char) : List Char := (text.reverse.dropWhile isBlank).reverse

/-- A text without the blanks at either end. -/
def trim (text : List Char) : List Char := trimEnd (trimStart text)

theorem mem_trimStart {c : Char} {text : List Char} (h : isBlank c = false) :
    c ∈ trimStart text ↔ c ∈ text := by
  induction text with
  | nil => rfl
  | cons d text ih =>
    by_cases hd : isBlank d = true
    · have hne : c ≠ d := by
        rintro rfl
        simp [h] at hd
      rw [trimStart, List.dropWhile_cons_of_pos hd, ← trimStart, ih]
      simp [hne]
    · rw [trimStart, List.dropWhile_cons_of_neg hd]

theorem mem_trimEnd {c : Char} {text : List Char} (h : isBlank c = false) :
    c ∈ trimEnd text ↔ c ∈ text := by
  rw [trimEnd, List.mem_reverse]
  exact (mem_trimStart h).trans List.mem_reverse

/-- Cutting off blanks keeps all other characters. -/
theorem mem_trim {c : Char} {text : List Char} (h : isBlank c = false) :
    c ∈ trim text ↔ c ∈ text :=
  (mem_trimEnd h).trans (mem_trimStart h)

end WebFonts.Text
