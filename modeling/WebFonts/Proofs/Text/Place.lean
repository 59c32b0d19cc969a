import Mathlib.Algebra.Group.Nat.Defs
import Mathlib.Data.List.Infix
import WebFonts.Text.Split
import WebFonts.Text.Width

/-! # Places in a text

Lines end at line feeds, and columns count UTF-16 units. Both count from zero. -/

namespace WebFonts.Text

theorem splitAt_eq_splitOn (separator : Char) (text : List Char) :
    splitAt separator text = text.splitOn separator := by
  induction text with
  | nil => rfl
  | cons c rest ih =>
    rw [List.splitOn_cons_eq_if_modifyHead, splitAt, ih]
    by_cases hc : c = separator
    · simp [hc]
    · simp only [hc, beq_iff_eq, ↓reduceIte]
      cases hrest : rest.splitOn separator with
      | nil => exact (List.splitOn_ne_nil separator rest hrest).elim
      | cons piece pieces => rfl

theorem splitAt_cons_self (separator : Char) (text : List Char) :
    splitAt separator (separator :: text) = [] :: splitAt separator text := by
  simp [splitAt]

/-- A character that does not separate belongs to the first piece. -/
theorem splitAt_cons_of_ne {separator c : Char} {text piece : List Char}
    {pieces : List (List Char)} (hc : c ≠ separator)
    (h : splitAt separator text = piece :: pieces) :
    splitAt separator (c :: text) = (c :: piece) :: pieces := by
  simp [splitAt, hc, h]

theorem exists_splitAt (separator : Char) (text : List Char) :
    ∃ piece pieces, splitAt separator text = piece :: pieces :=
  List.exists_cons_of_ne_nil (splitAt_ne_nil separator text)

theorem utf16Size_pos (c : Char) : 0 < utf16Size c := by
  unfold utf16Size
  split <;> decide

/-! ## The place behind a text -/

/-- The line and the column behind a text: the line feeds in it, and the UTF-16 units that follow
the last of them. -/
def placeAfter (text : List Char) : Nat × Nat :=
  (text.count '\n', utf16Width (text.reverse.takeWhile (· ≠ '\n')).reverse)

/-- The place behind a text that starts in some other place. -/
def advance (place : Nat × Nat) : List Char → Nat × Nat
  | [] => place
  | c :: rest =>
    advance (if c = '\n' then (place.1 + 1, 0) else (place.1, place.2 + utf16Size c)) rest

theorem advance_append (place : Nat × Nat) (s t : List Char) :
    advance place (s ++ t) = advance (advance place s) t := by
  induction s generalizing place with
  | nil => rfl
  | cons c s ih => exact ih _

theorem placeAfter_concat (text : List Char) (c : Char) :
    placeAfter (text ++ [c]) =
      if c = '\n' then ((placeAfter text).1 + 1, 0)
      else ((placeAfter text).1, (placeAfter text).2 + utf16Size c) := by
  by_cases hc : c = '\n'
  · simp [placeAfter, hc, utf16Width]
  · simp [placeAfter, hc, utf16Width]

theorem placeAfter_eq_advance (text : List Char) : placeAfter text = advance (0, 0) text := by
  induction text using List.reverseRecOn with
  | nil => rfl
  | append_singleton text c ih =>
    rw [placeAfter_concat, advance_append, ih]
    rfl

theorem placeAfter_append (s t : List Char) :
    placeAfter (s ++ t) = advance (placeAfter s) t := by
  rw [placeAfter_eq_advance, placeAfter_eq_advance, advance_append]

/-- Lines passed before do not change the columns behind them. -/
theorem advance_add_line (n : Nat) (place : Nat × Nat) (text : List Char) :
    advance (n + place.1, place.2) text =
      (n + (advance place text).1, (advance place text).2) := by
  induction text generalizing place with
  | nil => rfl
  | cons c rest ih =>
    by_cases hc : c = '\n'
    · simpa only [advance, hc, ↓reduceIte, Nat.add_assoc] using ih (place.1 + 1, 0)
    · simpa only [advance, hc, ↓reduceIte] using ih (place.1, place.2 + utf16Size c)

/-- Reading on never leads back to an earlier line, nor to an earlier column of the same line. -/
theorem advance_le (place : Nat × Nat) (text : List Char) :
    place.1 ≤ (advance place text).1 ∧
      ((advance place text).1 = place.1 → place.2 ≤ (advance place text).2) := by
  induction text generalizing place with
  | nil => exact ⟨le_rfl, fun _ => le_rfl⟩
  | cons c rest ih =>
    by_cases hc : c = '\n'
    · have h := ih (place.1 + 1, 0)
      simp only [advance, hc, ↓reduceIte]
      exact ⟨by omega, fun he => by omega⟩
    · have h := ih (place.1, place.2 + utf16Size c)
      simp only [advance, hc, ↓reduceIte]
      exact ⟨h.1, fun he => (Nat.le_add_right _ _).trans (h.2 he)⟩

/-- The further on a text starts, the further on is the place behind it. -/
theorem advance_mono (p q : Nat × Nat) (hline : p.1 ≤ q.1) (hcolumn : p.2 ≤ q.2)
    (text : List Char) :
    (advance p text).1 ≤ (advance q text).1 ∧ (advance p text).2 ≤ (advance q text).2 := by
  induction text generalizing p q with
  | nil => exact ⟨hline, hcolumn⟩
  | cons c rest ih =>
    by_cases hc : c = '\n'
    · simpa only [advance, hc, ↓reduceIte] using
        ih (p.1 + 1, 0) (q.1 + 1, 0) (Nat.succ_le_succ hline) le_rfl
    · simpa only [advance, hc, ↓reduceIte] using
        ih (p.1, p.2 + utf16Size c) (q.1, q.2 + utf16Size c) hline
          (Nat.add_le_add_right hcolumn _)

/-- The lines of a text tell the place behind it. -/
theorem advance_splitAt (column : Nat) (text first : List Char) (lines : List (List Char))
    (h : splitAt '\n' text = first :: lines) :
    advance (0, column) text =
      (lines.length, if lines = [] then column + utf16Width first
        else utf16Width (lines.getLastD [])) := by
  induction text generalizing column first lines with
  | nil =>
    rcases List.cons.inj h with ⟨rfl, rfl⟩
    simp [advance, utf16Width]
  | cons c rest ih =>
    rcases exists_splitAt '\n' rest with ⟨next, others, hrest⟩
    by_cases hc : c = '\n'
    · rw [hc, splitAt_cons_self, hrest] at h
      rcases List.cons.inj h with ⟨rfl, rfl⟩
      have hline : advance (1, 0) rest =
          (1 + (advance (0, 0) rest).1, (advance (0, 0) rest).2) := advance_add_line 1 (0, 0) rest
      simp only [advance, hc, ↓reduceIte, Nat.zero_add]
      rw [hline, ih 0 next others hrest]
      cases others <;> simp [Nat.add_comm]
    · rw [splitAt_cons_of_ne hc hrest] at h
      rcases List.cons.inj h with ⟨rfl, rfl⟩
      simp only [advance, hc, ↓reduceIte]
      rw [ih (column + utf16Size c) next others hrest]
      cases others <;> simp [utf16Width, Nat.add_assoc]

theorem placeAfter_splitAt (text : List Char) :
    placeAfter text =
      ((splitAt '\n' text).dropLast.length, utf16Width ((splitAt '\n' text).getLastD [])) := by
  rcases exists_splitAt '\n' text with ⟨first, lines, h⟩
  rw [placeAfter_eq_advance, advance_splitAt 0 text first lines h, h]
  cases lines <;> simp

/-! ## Where a character begins -/

/-- The character with this index is no line feed, and it begins in this line and column. -/
def BeginsAt (text : List Char) (index : Nat) (place : Nat × Nat) : Prop :=
  ∃ c, text[index]? = some c ∧ c ≠ '\n' ∧ placeAfter (text.take index) = place

/-- Line numbers and columns fit in 32 bits, up to the ends of the lines. -/
def FitsIn32Bits (text : List Char) : Prop :=
  ∀ before ∈ text.inits, (placeAfter before).1 < 2 ^ 32 ∧ (placeAfter before).2 < 2 ^ 32

instance (text : List Char) : Decidable (FitsIn32Bits text) :=
  inferInstanceAs (Decidable (∀ before ∈ text.inits, _ ∧ _))

theorem FitsIn32Bits.of_beginsAt {text : List Char} (h : FitsIn32Bits text) {index : Nat}
    {place : Nat × Nat} (hbegins : BeginsAt text index place) :
    place.1 < 2 ^ 32 ∧ place.2 < 2 ^ 32 := by
  obtain ⟨c, -, -, rfl⟩ := hbegins
  exact h _ ((List.mem_inits _ _).mpr (List.take_prefix index text))

end WebFonts.Text
