import WebFonts.Css.Value
import WebFonts.Proofs.Css.Passing

/-! # Texts that keep to themselves

A text that closes its strings and brackets and escapes nothing behind it can stand between other
texts: whatever follows it is read as if nothing stood in front. -/

namespace WebFonts.Css

open Text

/-- Whether a text comes to its end with all closed, from a place in a string or in brackets that
it has opened, innermost first. `outer` are the brackets around the whole text, which it must not
close. A brace stands only in strings and escapes, a semicolon in brackets too, and a comment
starts nowhere else than in strings. -/
def endsContained (outer : List Char) (quote : Option Char) (opened : List Char) :
    List Char → Bool
  | [] => quote.isNone && opened.isEmpty
  | ['\\'] => false
  | '\\' :: _ :: rest => endsContained outer quote opened rest
  | c :: rest =>
    match quote with
    | some mark =>
      if c = mark then endsContained outer none opened rest
      else c != '\n' && endsContained outer (some mark) opened rest
    | none =>
      if isQuote c then endsContained outer (some c) opened rest
      else !endsStretch (opened ++ outer) c && !(c == '/' && rest.head? == some '*') &&
        !(opened.isEmpty && outer.head? == some c) &&
        endsContained outer none (closersAfter opened c) rest

/-- Whether a text in brackets keeps to itself. -/
def isContained (outer text : List Char) : Bool := endsContained outer none [] text

theorem endsContained_in_string {c : Char} (hc : c ≠ '\\') (outer : List Char) (mark : Char)
    (opened rest : List Char) :
    endsContained outer (some mark) opened (c :: rest) =
      if c = mark then endsContained outer none opened rest
      else c != '\n' && endsContained outer (some mark) opened rest := by
  rw [endsContained]
  · exact fun hlone => absurd hlone hc
  · exact fun d behind hescape => absurd hescape hc

theorem endsContained_in_brackets {c : Char} (hc : c ≠ '\\') (outer opened rest : List Char) :
    endsContained outer none opened (c :: rest) =
      if isQuote c then endsContained outer (some c) opened rest
      else !endsStretch (opened ++ outer) c && !(c == '/' && rest.head? == some '*') &&
        !(opened.isEmpty && outer.head? == some c) &&
        endsContained outer none (closersAfter opened c) rest := by
  rw [endsContained]
  · exact fun hlone => absurd hlone hc
  · exact fun d behind hescape => absurd hescape hc

/-! ## Strings and plain texts -/

theorem isContained_quoted {quote : Char} (hquote : isQuote quote = true) {text : List Char}
    (h : ∀ c ∈ text, c ≠ quote ∧ c ≠ '\\' ∧ c ≠ '\n') (outer : List Char) :
    isContained outer (quote :: (text ++ [quote])) = true := by
  have hslash : quote ≠ '\\' := by
    rintro rfl
    contradiction
  rw [isContained, endsContained_in_brackets hslash, if_pos hquote]
  induction text with
  | nil =>
    rw [List.nil_append, endsContained_in_string hslash, if_pos rfl]
    rfl
  | cons c text ih =>
    obtain ⟨hc, hescape, hline⟩ := h c List.mem_cons_self
    rw [List.cons_append, endsContained_in_string hescape, if_neg hc,
      ih fun d hd => h d (List.mem_cons_of_mem _ hd)]
    simp [hline]

theorem isContained_of_isPlain {text : List Char} (h : isPlain text = true) {outer : List Char}
    (houter : outer ⊆ specialCharacters) : isContained outer text = true := by
  induction text with
  | nil => rfl
  | cons c text ih =>
    obtain ⟨hc, hcomment, htext⟩ := isPlain_cons h
    have hclose : outer.head? ≠ some c := fun hhead => hc (houter (List.mem_of_mem_head? hhead))
    simp only [specialCharacters, List.mem_cons, List.not_mem_nil, or_false, not_or] at hc
    have hafter : closersAfter [] c = [] := by
      unfold closersAfter
      split <;> simp_all
    rw [isContained, endsContained_in_brackets hc.2.2.1, hafter, ← isContained, ih htext]
    rw [Decidable.not_and_iff_not_or_not] at hcomment
    simp [isQuote, endsStretch, hc, hcomment, hclose]

/-! ## One string, escape or character at a time -/

/-- A text that comes to its end with all closed, from a place in brackets that it has opened. -/
inductive Contained (outer : List Char) : List Char → List Char → Prop where
  | nil : Contained outer [] []
  | cons {opened : List Char} {c : Char} (tail : List Char) {behind : List Char}
      (hunit : ∀ rest, unit c (tail ++ behind ++ rest) = .ok (c :: tail, behind ++ rest))
      (hends : endsStretch (opened ++ outer) c = false)
      (hcomment : ¬(c = '/' ∧ (tail ++ behind).head? = some '*'))
      (hafter : closersAfter (opened ++ outer) c = closersAfter opened c ++ outer) :
      Contained outer (closersAfter opened c) behind →
        Contained outer opened (c :: (tail ++ behind))

/-- A string that a text has opened is closed in it. -/
theorem exists_closeString_of_endsContained {outer opened text : List Char} {mark : Char}
    (h : endsContained outer (some mark) opened text = true) (hmark : mark ≠ '\\') :
    ∃ scanned behind, text = scanned ++ behind ∧ endsContained outer none opened behind = true ∧
      ∀ rest, closeString mark (text ++ rest) = .ok (scanned, behind ++ rest) := by
  fun_induction closeString mark text with
  | case1 => simp [endsContained] at h
  | case2 => simp [endsContained] at h
  | case3 c text ih =>
    rw [endsContained] at h
    obtain ⟨scanned, behind, rfl, hbehind, hclose⟩ := ih h
    refine ⟨'\\' :: c :: scanned, behind, rfl, hbehind, ?_⟩
    intro rest
    rw [List.cons_append, List.cons_append, closeString, hclose rest]
    rfl
  | case4 text =>
    rw [endsContained_in_string hmark, if_pos rfl] at h
    refine ⟨[mark], text, rfl, h, ?_⟩
    intro rest
    rw [List.cons_append, closeString_cons hmark, if_pos rfl]
  | case5 text hlone hescape hquote =>
    rw [endsContained_in_string (by decide), if_neg hquote] at h
    simp at h
  | case6 c text hlone hescape hquote hline ih =>
    have hc : c ≠ '\\' := ne_backslash_of_not_escape hlone hescape
    rw [endsContained_in_string hc, if_neg hquote, Bool.and_eq_true] at h
    obtain ⟨scanned, behind, rfl, hbehind, hclose⟩ := ih h.2
    refine ⟨c :: scanned, behind, rfl, hbehind, ?_⟩
    intro rest
    rw [List.cons_append, closeString_cons hc, if_neg hquote, if_neg hline, hclose rest]
    rfl

/-- The marks that close brackets. -/
def closingMarks : List Char := [')', ']']

theorem closersAfter_subset {closers : List Char} (h : closers ⊆ closingMarks) (c : Char) :
    closersAfter closers c ⊆ closingMarks := by
  unfold closersAfter
  split
  · exact List.cons_subset.mpr ⟨by decide, h⟩
  · exact List.cons_subset.mpr ⟨by decide, h⟩
  · split
    · exact fun d hd => h (List.mem_of_mem_tail hd)
    · exact h

theorem closersAfter_of_not_mem {closers : List Char} (h : closers ⊆ closingMarks) {c : Char}
    (hopen : c ≠ '(') (hopen' : c ≠ '[') (hclose : c ∉ closingMarks) :
    closersAfter closers c = closers := by
  unfold closersAfter
  split
  · contradiction
  · contradiction
  · rw [if_neg]
    intro hhead
    exact hclose (h (List.mem_of_mem_head? hhead))

/-- Only a closing mark closes the last of the open brackets. -/
theorem mem_closingMarks_of_closersAfter {closers : List Char} (h : closers ⊆ closingMarks)
    (hne : closers ≠ []) {c : Char} (hclosed : closersAfter closers c = []) : c ∈ closingMarks := by
  apply Decidable.byContradiction
  intro hc
  by_cases hopen : c = '(' ∨ c = '['
  · rcases hopen with rfl | rfl <;> contradiction
  · rw [not_or] at hopen
    rw [closersAfter_of_not_mem h hopen.1 hopen.2 hc] at hclosed
    exact hne hclosed

theorem closersAfter_append {opened outer : List Char} {c : Char}
    (h : ¬(opened = [] ∧ outer.head? = some c)) :
    closersAfter (opened ++ outer) c = closersAfter opened c ++ outer := by
  unfold closersAfter
  split
  · rfl
  · rfl
  · cases opened with
    | nil =>
      rw [List.nil_append, if_neg fun hhead => h ⟨rfl, hhead⟩, if_neg (by simp)]
      rfl
    | cons d opened =>
      by_cases hd : d = c
      · simp [hd]
      · simp [hd]

/-- What neither opens nor closes brackets leaves them as they are. -/
theorem Contained.cons_of_not_mem {outer opened : List Char} (houter : outer ⊆ closingMarks)
    (hopened : opened ⊆ closingMarks) {c : Char} (tail : List Char) {behind : List Char}
    (hc : c ∉ ['(', '[', '{', '}', ';', '/'] ++ closingMarks)
    (hunit : ∀ rest, unit c (tail ++ behind ++ rest) = .ok (c :: tail, behind ++ rest))
    (h : Contained outer opened behind) : Contained outer opened (c :: (tail ++ behind)) := by
  simp only [List.mem_append, List.mem_cons, List.not_mem_nil, or_false, not_or] at hc
  obtain ⟨⟨hparenthesis, hbracket, hbrace, hbrace', hsemicolon, hslash⟩, hclose⟩ := hc
  have hafter := closersAfter_of_not_mem hopened hparenthesis hbracket hclose
  refine .cons tail hunit ?_ (fun hcomment => hslash hcomment.1) ?_ (by rwa [hafter])
  · simp [endsStretch, hbrace, hbrace', hsemicolon]
  · apply closersAfter_append
    rintro ⟨-, hhead⟩
    exact hclose (houter (List.mem_of_mem_head? hhead))

theorem contained_of_endsContained {outer : List Char} (houter : outer ⊆ closingMarks)
    {opened : List Char} (hopened : opened ⊆ closingMarks) {text : List Char}
    (h : endsContained outer none opened text = true) : Contained outer opened text := by
  match text with
  | [] =>
    rw [endsContained, Bool.and_eq_true, List.isEmpty_iff] at h
    obtain rfl := h.2
    exact .nil
  | c :: text =>
    by_cases hslash : c = '\\'
    · subst hslash
      cases text with
      | nil => simp [endsContained] at h
      | cons d text =>
        rw [endsContained] at h
        have hrest := contained_of_endsContained houter hopened h
        exact hrest.cons_of_not_mem houter hopened [d] (by decide) fun rest => rfl
    · rw [endsContained_in_brackets hslash] at h
      by_cases hquote : isQuote c = true
      · rw [if_pos hquote] at h
        obtain ⟨tail, behind, rfl, hbehind, hclose⟩ :=
          exists_closeString_of_endsContained h hslash
        have hrest := contained_of_endsContained houter hopened hbehind
        apply hrest.cons_of_not_mem houter hopened tail
        · simp only [isQuote, Bool.or_eq_true, beq_iff_eq] at hquote
          rcases hquote with rfl | rfl <;> decide
        · intro rest
          rw [unit, if_pos hquote, hclose rest]
          rfl
      · rw [if_neg hquote] at h
        simp only [Bool.and_eq_true, Bool.not_eq_true', Bool.and_eq_false_iff] at h
        obtain ⟨⟨⟨hends, hcomment⟩, hcloses⟩, hbehind⟩ := h
        have hrest := contained_of_endsContained houter (closersAfter_subset hopened c) hbehind
        refine .cons [] ?_ hends ?_ (closersAfter_append ?_) hrest
        · intro rest
          rw [unit, if_neg hquote, if_neg hslash]
          rfl
        · rintro ⟨hc, hstar⟩
          simp_all
        · rintro ⟨rfl, hhead⟩
          simp_all
termination_by text.length

theorem contained_of_isContained {outer : List Char} (houter : outer ⊆ closingMarks)
    {text : List Char} (h : isContained outer text = true) : Contained outer [] text :=
  contained_of_endsContained houter (List.nil_subset _) h

/-! ## What follows -/

/-- A stretch goes on behind the text with the brackets around it. -/
theorem Contained.stretch_append {outer opened text : List Char} (h : Contained outer opened text)
    {rest : List Char} (hrest : rest.head? ≠ some '*') :
    stretch (opened ++ outer) (text ++ rest) = (stretch outer rest).after text := by
  induction h with
  | nil => exact (Scan.after_nil _).symm
  | @cons opened c tail behind hunit hends hcomment hafter _ ih =>
    have hstar : ¬(c = '/' ∧ (tail ++ behind ++ rest).head? = some '*') := by
      rintro ⟨hc, hhead⟩
      cases hrun : tail ++ behind with
      | nil => exact hrest (by rwa [hrun] at hhead)
      | cons d run =>
        refine hcomment ⟨hc, ?_⟩
        rwa [hrun] at hhead ⊢
    have hpiece := (piece_eq_unit hstar).trans (hunit rest)
    rw [List.cons_append, stretch_of_piece hends hpiece, hafter, ih, Scan.after_after]
    rfl

theorem passes_of_isContained {outer : List Char} (houter : outer ⊆ closingMarks)
    {text : List Char} (h : isContained outer text = true) : Passes outer text :=
  fun _ hrest => (contained_of_isContained houter h).stretch_append hrest

theorem untilClosed?_of_closed {closers : List Char} {c : Char} {text scanned rest : List Char}
    (hunit : unit c text = .ok (scanned, rest)) (hclosers : closersAfter closers c = []) :
    untilClosed? closers (c :: text) = some ([], rest) := by
  rw [untilClosed?]
  split
  · simp_all
  · simp_all

theorem untilClosed?_of_unit {closers : List Char} {c : Char} {text scanned rest : List Char}
    (hunit : unit c text = .ok (scanned, rest)) (hclosers : closersAfter closers c ≠ []) :
    untilClosed? closers (c :: text) =
      (untilClosed? (closersAfter closers c) rest).map fun (inner, behind) =>
        (scanned ++ inner, behind) := by
  rw [untilClosed?]
  split
  · simp_all
  · simp_all

/-- A text in parentheses ends at the one that closes them. -/
theorem Contained.untilClosed?_append {opened text : List Char} (h : Contained [')'] opened text)
    (rest : List Char) :
    untilClosed? (opened ++ [')']) (text ++ ')' :: rest) = some (text, rest) := by
  induction h with
  | nil => exact @untilClosed?_of_closed [')'] ')' rest [')'] rest rfl rfl
  | @cons opened c tail behind hunit _ _ hafter _ ih =>
    rw [List.cons_append, untilClosed?_of_unit (hunit _) (by simp [hafter]), hafter, ih]
    rfl

theorem untilClosed?_of_isContained {text : List Char} (h : isContained [')'] text = true)
    (rest : List Char) : untilClosed? [')'] (text ++ ')' :: rest) = some (text, rest) :=
  (contained_of_isContained (by decide) h).untilClosed?_append rest

end WebFonts.Css
