/-!
# Pieces of a text

Splitting at a separator, joining, and searching for a phrase.
-/

namespace WebFonts.Text

/-- The pieces between the occurrences of a separator, one more than there are separators. -/
def splitAt (separator : Char) : List Char → List (List Char)
  | [] => [[]]
  | c :: rest =>
    if c = separator then [] :: splitAt separator rest
    else
      match splitAt separator rest with
      | [] => [[c]]
      | piece :: pieces => (c :: piece) :: pieces

theorem splitAt_ne_nil (separator : Char) (text : List Char) : splitAt separator text ≠ [] := by
  cases text with
  | nil => simp [splitAt]
  | cons c rest =>
    unfold splitAt
    split
    · simp
    · split <;> simp

/-- Whether a phrase stands somewhere in a text. -/
def contains (phrase : List Char) : List Char → Bool
  | [] => phrase.isEmpty
  | c :: rest => phrase.isPrefixOf (c :: rest) || contains phrase rest

theorem contains_iff_isInfix {phrase text : List Char} :
    contains phrase text = true ↔ phrase <:+: text := by
  induction text with
  | nil => simp [contains]
  | cons c rest ih =>
    rw [contains, Bool.or_eq_true, ih, List.isPrefixOf_iff_prefix, List.infix_cons_iff]

/-- What follows the last occurrence of a mark, with the text before it. -/
def splitLast? (mark : Char) : List Char → Option (List Char × List Char)
  | [] => none
  | c :: rest =>
    match splitLast? mark rest with
    | some (before, behind) => some (c :: before, behind)
    | none => if c = mark then some ([], rest) else none

theorem splitLast?_eq_none_iff {mark : Char} {text : List Char} :
    splitLast? mark text = none ↔ mark ∉ text := by
  induction text with
  | nil => simp [splitLast?]
  | cons c rest ih =>
    rw [splitLast?]
    cases hrest : splitLast? mark rest with
    | none => simp [← ih, hrest, eq_comm]
    | some both => simp [← ih, hrest]

theorem splitLast?_append {mark : Char} {behind : List Char} (h : mark ∉ behind)
    (before : List Char) : splitLast? mark (before ++ mark :: behind) = some (before, behind) := by
  induction before with
  | nil => rw [List.nil_append, splitLast?, splitLast?_eq_none_iff.mpr h, if_pos rfl]
  | cons c before ih => rw [List.cons_append, splitLast?, ih]

theorem splitLast?_eq_some_iff {mark : Char} {text before behind : List Char} :
    splitLast? mark text = some (before, behind) ↔
      text = before ++ mark :: behind ∧ mark ∉ behind := by
  constructor
  · intro h
    induction text generalizing before with
    | nil => contradiction
    | cons c rest ih =>
      rw [splitLast?] at h
      cases hrest : splitLast? mark rest with
      | some both =>
        rw [hrest] at h
        rcases Prod.mk.inj (Option.some.inj h) with ⟨rfl, rfl⟩
        obtain ⟨rfl, hmem⟩ := ih hrest
        exact ⟨rfl, hmem⟩
      | none =>
        rw [hrest] at h
        rcases Option.ite_none_right_eq_some.mp h with ⟨rfl, he⟩
        rcases Prod.mk.inj (Option.some.inj he) with ⟨rfl, rfl⟩
        exact ⟨rfl, splitLast?_eq_none_iff.mp hrest⟩
  · rintro ⟨rfl, hmem⟩
    exact splitLast?_append hmem before

/-- Equality of two texts that ignores the case of ASCII letters. -/
def sameLetters (s t : List Char) : Bool := s.map Char.toLower == t.map Char.toLower

end WebFonts.Text
