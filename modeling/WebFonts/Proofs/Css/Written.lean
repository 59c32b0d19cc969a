import WebFonts.Proofs.Css.Extension

/-! # Values as they are written

White space in front of a value means nothing, and only a value that ends in the word can end in
`!important`. -/

namespace WebFonts.Css

open Text

/-! ## Blanks and marks -/

theorem isBlank_of_isSpace {c : Char} (h : isSpace c = true) : isBlank c = true := by
  simp only [isSpace, Bool.or_eq_true, beq_iff_eq] at h
  rcases h with ((rfl | rfl) | rfl) | rfl <;> decide

theorem trim_cons_of_isBlank {c : Char} (hc : isBlank c = true) (text : List Char) :
    trim (c :: text) = trim text := by
  rw [trim, trimStart, List.dropWhile_cons_of_pos hc, ← trimStart, ← trim]

theorem trimEnd_cons_of_ne_nil {text : List Char} (h : trimEnd text ≠ []) (c : Char) :
    trimEnd (c :: text) = c :: trimEnd text := by
  have hkept : (text.reverse.dropWhile isBlank).isEmpty = false := by
    simpa [trimEnd] using h
  rw [trimEnd, List.reverse_cons, List.dropWhile_append, if_neg (by simp [hkept]),
    List.reverse_append, ← trimEnd]
  rfl

theorem trimEnd_cons_of_isBlank {text : List Char} (h : trimEnd text = []) {c : Char}
    (hc : isBlank c = true) : trimEnd (c :: text) = [] := by
  have hnone : text.reverse.dropWhile isBlank = [] := by
    simpa [trimEnd] using h
  rw [trimEnd, List.reverse_cons, List.dropWhile_append, hnone]
  simp [hc]

theorem trimEnd_concat {c : Char} (hc : isBlank c = false) (text : List Char) :
    trimEnd (text ++ [c]) = text ++ [c] := by
  simp [trimEnd, hc]

theorem exists_trim_concat {c : Char} (hc : isBlank c = false) (text : List Char) :
    ∃ front, trim (text ++ [c]) = front ++ [c] := by
  have hstart : ∃ front, trimStart (text ++ [c]) = front ++ [c] := by
    induction text with
    | nil => exact ⟨[], by simp [trimStart, hc]⟩
    | cons d text ih =>
      by_cases hd : isBlank d = true
      · rwa [List.cons_append, trimStart, List.dropWhile_cons_of_pos hd, ← trimStart]
      · exact ⟨d :: text, by rw [List.cons_append, trimStart, List.dropWhile_cons_of_neg hd]⟩
  obtain ⟨front, hfront⟩ := hstart
  exact ⟨front, by rw [trim, hfront, trimEnd_concat hc]⟩

/-! ## The end of a value -/

/-- What ends in no letter of the word does not end in `!important`. -/
theorem cutImportant_concat {c : Char} (hblank : isBlank c = false) (hletter : c.toLower ≠ 't')
    (text : List Char) : cutImportant (text ++ [c]) = (text ++ [c], false) := by
  rw [cutImportant, trimEnd_concat hblank]
  cases hsplit : splitLast? '!' (text ++ [c]) with
  | none => rfl
  | some both =>
    obtain ⟨before, behind⟩ := both
    have hends : sameLetters (trim behind) "important".toList = false := by
      rcases List.eq_nil_or_concat behind with rfl | ⟨front, d, rfl⟩
      · rfl
      · have hlast := congrArg List.getLast? (splitLast?_eq_some_iff.mp hsplit).1
        obtain rfl : c = d := by simpa [List.getLast?_cons] using hlast
        obtain ⟨kept, hkept⟩ := exists_trim_concat hblank front
        rw [List.concat_eq_append, hkept, sameLetters, beq_eq_false_iff_ne]
        intro hmap
        have hend := congrArg List.getLast? hmap
        simp only [List.map_append, List.map_cons, List.map_nil, List.getLast?_concat] at hend
        exact hletter (Option.some.inj hend)
    simp only [hends, Bool.false_eq_true, ↓reduceIte]

/-! ## White space in front -/

theorem cutImportant_cons {c : Char} (hc : isSpace c = true) (text : List Char) :
    cutImportant (c :: text) = (c :: (cutImportant text).1, (cutImportant text).2) := by
  have hmark : c ≠ '!' := by
    rintro rfl
    contradiction
  by_cases hnil : trimEnd text = []
  · rw [cutImportant, trimEnd_cons_of_isBlank hnil (isBlank_of_isSpace hc), cutImportant, hnil]
    rfl
  · rw [cutImportant, trimEnd_cons_of_ne_nil hnil, splitLast?, cutImportant]
    cases hsplit : splitLast? '!' (trimEnd text) with
    | none => simp [hmark]
    | some both =>
      simp only
      split <;> rfl

theorem tokens?_cons {c : Char} (hc : isSpace c = true) (text : List Char) :
    tokens? (c :: text) = tokens? text := by
  have hgap : gap false (c :: text) = (gap false text).after [c] :=
    gap_of_some (spacing_of_isSpace hc false text)
  cases hrest : gap false text with
  | error fault =>
    rw [hrest] at hgap
    rw [tokens?_of_error hgap, tokens?_of_error hrest]
  | ok both =>
    obtain ⟨blank, rest⟩ := both
    rw [hrest] at hgap
    cases rest with
    | nil => rw [tokens?_of_end hgap, tokens?_of_end hrest]
    | cons d rest =>
      cases htoken : token? (d :: rest) with
      | none => rw [tokens?_of_none hgap htoken, tokens?_of_none hrest htoken]
      | some found =>
        obtain ⟨token, behind⟩ := found
        rw [tokens?_of_token hgap htoken, tokens?_of_token hrest htoken]

theorem Value.read_cons {c : Char} (hc : isSpace c = true) (property text : List Char) :
    Value.read property (c :: text) = Value.read property text := by
  rw [Value.read, Value.read, trim_cons_of_isBlank (isBlank_of_isSpace hc), tokens?_cons hc]

end WebFonts.Css
