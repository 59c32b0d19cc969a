import WebFonts.Proofs.Css.Brackets
import WebFonts.Proofs.Css.Spelling
import WebFonts.Proofs.Css.Token
import WebFonts.Proofs.Css.Written

/-! # Brackets and tokens

Functions and groups match brackets once more among the tokens of a value, and pass over strings and
escapes, but not over comments. Where no comment in brackets holds marks of its own, they find the
brackets that the stretch of the value has found. -/

namespace WebFonts.Css

open Text

/-! ## Words and white space -/

/-- What neither opens nor closes anything, is no quote and no backslash, and starts no comment. -/
theorem Leads.of_ordinary {closers run : List Char} (hclosers : closers ⊆ closingMarks)
    (h : ∀ c ∈ run, c ∉ '/' :: bracketMarks) (rest : List Char) :
    Leads closers (run ++ rest) closers rest := by
  induction run with
  | nil => exact .refl _ _
  | cons c run ih =>
    have hc := h c List.mem_cons_self
    simp only [bracketMarks, List.mem_cons, List.not_mem_nil, or_false, not_or] at hc
    have hpiece : piece c (run ++ rest) = .ok ([c], run ++ rest) :=
      piece_of_ordinary (by simp [hc]) _
    have hafter : closersAfter closers c = closers :=
      closersAfter_of_not_mem hclosers hc.2.1 hc.2.2.2.1 (by simp [closingMarks, hc])
    refine .step hpiece (by simp [hc]) ?_
    rw [hafter]
    exact ih fun d hd => h d (List.mem_cons_of_mem _ hd)

theorem Leads.of_single {c : Char} (h : c ∉ '/' :: bracketMarks) (text : List Char) :
    Leads [] (c :: text) [] text := by
  have hrun : ∀ d ∈ [c], d ∉ '/' :: bracketMarks := by simpa using h
  exact Leads.of_ordinary (List.nil_subset _) hrun text

theorem not_mem_marks_of_isNameCharacter {c : Char} (h : isNameCharacter c = true) :
    c ∉ '/' :: bracketMarks := by
  intro hmem
  simp only [bracketMarks, List.mem_cons, List.not_mem_nil, or_false] at hmem
  rcases hmem with rfl | rfl | rfl | rfl | rfl | rfl | rfl | rfl <;> simp [isNameCharacter] at h

theorem Leads.of_name (text : List Char) : Leads [] text [] (name text).2 := by
  fun_induction name text with
  | case1 c text ih =>
    have hescape : piece '\\' (c :: text) = .ok (['\\', c], text) := rfl
    exact .step hescape (by simp) ih
  | case2 c text _ hc ih =>
    exact (Leads.of_single (not_mem_marks_of_isNameCharacter hc) text).trans ih
  | case3 c text => exact .refl _ _
  | case4 => exact .refl _ _

theorem Leads.of_identifier? {text run rest : List Char}
    (h : identifier? text = some (run, rest)) : Leads [] text [] rest := by
  have hname := Leads.of_name text
  rwa [name_of_identifier? h] at hname

theorem Leads.of_digits (text : List Char) : Leads [] text [] (digits text).2 := by
  have hdigits : ∀ c ∈ (digits text).1, c ∉ '/' :: bracketMarks := by
    intro c hc
    have hdigit : c.isDigit = true := List.all_eq_true.mp List.all_takeWhile c hc
    apply not_mem_marks_of_isNameCharacter
    simp [isNameCharacter, Char.isAlphanum, hdigit]
  have h := Leads.of_ordinary (List.nil_subset _) hdigits (digits text).2
  rwa [digits_split] at h

theorem Leads.of_sign (text : List Char) : Leads [] text [] (sign text).2 := by
  unfold sign
  split
  · exact Leads.of_single (by decide) _
  · exact Leads.of_single (by decide) _
  · exact .refl _ _

theorem Leads.of_fraction (text : List Char) : Leads [] text [] (fraction text).2 := by
  unfold fraction
  split
  · rename_i text
    split
    · exact .refl _ _
    · exact (Leads.of_single (by decide) text).trans (.of_digits text)
  · exact .refl _ _

theorem Leads.of_exponent (text : List Char) : Leads [] text [] (exponent text).2 := by
  unfold exponent
  split
  · rename_i c text
    simp only
    split
    · rename_i h
      have hc : c ∉ '/' :: bracketMarks := by
        rcases h.1 with rfl | rfl <;> decide
      refine (Leads.of_single hc text).trans ?_
      exact (Leads.of_sign text).trans (.of_digits _)
    · exact .refl _ _
  · exact .refl _ _

theorem Leads.of_dimension (text : List Char) : Leads [] text [] (dimension text).2 := by
  unfold dimension
  split
  · exact Leads.of_single (by decide) _
  · cases h : identifier? text with
    | none => exact .refl _ _
    | some both => exact .of_identifier? h

theorem Leads.of_number? {text run rest : List Char} (h : number? text = some (run, rest)) :
    Leads [] text [] rest := by
  obtain ⟨⟨amount, last⟩, hamount, he⟩ := Option.map_eq_some_iff.mp h
  obtain ⟨-, rfl⟩ := Prod.mk.inj he
  simp only [magnitude?, Option.ite_none_left_eq_some, Option.some.injEq, Prod.mk.injEq] at hamount
  obtain ⟨-, -, rfl⟩ := hamount
  exact (Leads.of_sign text).trans <| (Leads.of_digits _).trans <| (Leads.of_fraction _).trans <|
    (Leads.of_exponent _).trans (.of_dimension _)

theorem Leads.of_hash? {text run rest : List Char} (h : hash? text = some (run, rest)) :
    Leads [] text [] rest := by
  unfold hash? at h
  split at h
  · rename_i text
    obtain ⟨-, he⟩ := Option.ite_none_left_eq_some.mp h
    have hname := Leads.of_name text
    rw [Option.some.inj he] at hname
    exact (Leads.of_single (by decide) text).trans hname
  · contradiction

theorem Leads.of_spacing {text scanned rest : List Char}
    (h : spacing false text = some (.ok (scanned, rest))) : Leads [] text [] rest := by
  fun_cases spacing false text with
  | case1 body =>
    have hpiece : piece '/' ('*' :: body) = .ok (scanned, rest) := Option.some.inj h
    obtain ⟨tail, rfl, -⟩ := comment_behind hpiece
    exact .step hpiece (by simp) (.refl _ _)
  | case2 => contradiction
  | case3 => simp_all [spacing]
  | case4 => contradiction
  | case5 => simp_all [spacing]
  | case6 c behind _ _ _ hspace =>
    rw [spacing_of_isSpace hspace] at h
    obtain ⟨rfl, rfl⟩ := Prod.mk.inj (Except.ok.inj (Option.some.inj h))
    refine Leads.of_single ?_ behind
    simp only [isSpace, Bool.or_eq_true, beq_iff_eq] at hspace
    rcases hspace with ((rfl | rfl) | rfl) | rfl <;> decide
  | case7 => simp_all [spacing]
  | case8 => simp_all [spacing]

theorem Leads.of_gap {text blank rest : List Char} (h : gap false text = .ok (blank, rest)) :
    Leads [] text [] rest := by
  fun_induction gap false text generalizing blank with
  | case1 =>
    obtain ⟨-, rfl⟩ := Prod.mk.inj (Except.ok.inj h)
    exact .refl _ _
  | case2 => contradiction
  | case3 text scanned behind hspacing ih =>
    obtain ⟨last, hlast, -⟩ := Scan.after_eq_ok_iff.mp h
    exact (Leads.of_spacing hspacing).trans (ih hlast)

/-! ## Brackets -/

theorem untilClosed?_append_of_marks {run closers : List Char} (hclosers : closers ⊆ closingMarks)
    (hne : closers ≠ []) (h : ∀ c ∈ run, c ∉ bracketMarks) (rest : List Char) :
    untilClosed? closers (run ++ rest) =
      (untilClosed? closers rest).map fun (inner, behind) => (run ++ inner, behind) := by
  induction run with
  | nil => simp
  | cons c run ih =>
    have hc := h c List.mem_cons_self
    simp only [bracketMarks, List.mem_cons, List.not_mem_nil, or_false, not_or] at hc
    have hafter : closersAfter closers c = closers :=
      closersAfter_of_not_mem hclosers hc.1 hc.2.2.1 (by simp [closingMarks, hc])
    have hunit : unit c (run ++ rest) = .ok ([c], run ++ rest) := by
      simp [unit, isQuote, hc]
    rw [List.cons_append, untilClosed?_of_unit hunit (by rwa [hafter]), hafter,
      ih fun d hd => h d (List.mem_cons_of_mem _ hd), Option.map_map]
    rfl

/-- In brackets, a comment without marks of its own is passed over as a stretch does. -/
theorem untilClosed?_of_piece {closers : List Char} {c : Char} {text scanned rest : List Char}
    (hclosers : closers ⊆ closingMarks) (hne : closers ≠ [])
    (hpiece : piece c text = .ok (scanned, rest)) (hquiet : isQuiet closers scanned = true)
    (hopen : closersAfter closers c ≠ []) :
    untilClosed? closers (c :: text) =
      (untilClosed? (closersAfter closers c) rest).map fun (inner, behind) =>
        (scanned ++ inner, behind) := by
  by_cases hcomment : c = '/' ∧ text.head? = some '*'
  · obtain ⟨rfl, hstar⟩ := hcomment
    obtain ⟨body, rfl⟩ := List.head?_eq_some_iff.mp hstar
    obtain ⟨tail, rfl, -⟩ := comment_behind hpiece
    have hmarks : ∀ c ∈ '/' :: '*' :: tail, c ∉ bracketMarks := by
      simpa [isQuiet, hne] using hquiet
    rw [closersAfter_of_not_mem hclosers (by decide) (by decide) (by decide),
      ← untilClosed?_append_of_marks hclosers hne hmarks, piece_splits _ _ _ _ hpiece]
  · rw [piece_eq_unit hcomment] at hpiece
    exact untilClosed?_of_unit hpiece hopen

theorem untilClosed?_of_closing_piece {closers : List Char} {c : Char}
    {text scanned rest : List Char} (hclosers : closers ⊆ closingMarks) (hne : closers ≠ [])
    (hpiece : piece c text = .ok (scanned, rest)) (hclosed : closersAfter closers c = []) :
    scanned ≠ ['\\'] ∧ untilClosed? closers (c :: text) = some ([], rest) := by
  have hc := mem_closingMarks_of_closersAfter hclosers hne hclosed
  have hcomment : ¬(c = '/' ∧ text.head? = some '*') := by
    rintro ⟨rfl, -⟩
    contradiction
  constructor
  · rintro rfl
    obtain ⟨rfl, -⟩ := List.cons.inj (piece_splits _ _ _ _ hpiece)
    contradiction
  · rw [piece_eq_unit hcomment] at hpiece
    exact untilClosed?_of_closed hpiece hclosed

/-- Brackets are read as a function or group up to where they are closed, or they stay open. -/
theorem untilClosed?_or_open {closers text : List Char} (hclosers : closers ⊆ closingMarks)
    (hne : closers ≠ []) (hstretch : IsStretch closers text)
    (hquiet : hasQuietComments closers text = true) :
    (∃ inner rest, untilClosed? closers text = some (inner, rest) ∧ Leads closers text [] rest) ∨
      untilClosed? closers text = none ∧ openBehind closers text ≠ [] := by
  fun_induction openBehind closers text with
  | case1 closers => exact .inr ⟨by rw [untilClosed?], hne⟩
  | case2 closers c text fault hpiece =>
    obtain ⟨scanned, rest, hsome, -⟩ := hstretch.exists_piece
    rw [hpiece] at hsome
    contradiction
  | case3 closers c text scanned rest hpiece ih =>
    obtain ⟨first, last, hfirst, -, hlast⟩ := hstretch.exists_piece
    obtain ⟨-, rfl⟩ := Prod.mk.inj (Except.ok.inj (hpiece.symm.trans hfirst))
    rw [hasQuietComments_of_piece hpiece, Bool.and_eq_true] at hquiet
    by_cases hclosed : closersAfter closers c = []
    · obtain ⟨hslash, huntil⟩ := untilClosed?_of_closing_piece hclosers hne hpiece hclosed
      refine .inl ⟨[], rest, huntil, .step hpiece hslash ?_⟩
      rw [hclosed]
      exact .refl _ _
    · rw [untilClosed?_of_piece hclosers hne hpiece hquiet.1 hclosed]
      rcases ih (closersAfter_subset hclosers c) hclosed hlast hquiet.2 with
        ⟨inner, behind, hinner, hleads⟩ | ⟨hnone, hopen⟩
      · -- Behind a lone backslash there is nothing that could close the brackets.
        have hslash : scanned ≠ ['\\'] := by
          rintro rfl
          rw [nil_of_piece_backslash hpiece, untilClosed?] at hinner
          contradiction
        rw [hinner]
        exact .inl ⟨_, behind, rfl, .step hpiece hslash hleads⟩
      · rw [hnone]
        exact .inr ⟨rfl, hopen⟩

/-- An opening bracket and the one that closes it. -/
def IsPair (opening close : Char) : Prop :=
  opening = '(' ∧ close = ')' ∨ opening = '[' ∧ close = ']'

section

variable {c close : Char} {text : List Char}

theorem Leads.of_opening (hpair : IsPair c close) :
    Leads [] (c :: text) [close] text := by
  have hslash : [c] ≠ ['\\'] := by
    rcases hpair with ⟨rfl, -⟩ | ⟨rfl, -⟩ <;> simp
  rcases hpair with ⟨rfl, rfl⟩ | ⟨rfl, rfl⟩
  · exact .step rfl hslash (.refl _ _)
  · exact .step rfl hslash (.refl _ _)

theorem untilClosed?_behind_opening (hpair : IsPair c close)
    (hstretch : IsStretch [] (c :: text)) (hquiet : hasQuietComments [] (c :: text) = true) :
    (∃ inner rest, untilClosed? [close] text = some (inner, rest) ∧
        Leads [] (c :: text) [] rest) ∨
      untilClosed? [close] text = none ∧ openBehind [] (c :: text) ≠ [] := by
  have hopening : Leads [] (c :: text) [close] text := .of_opening hpair
  have hclose : [close] ⊆ closingMarks := by
    rcases hpair with ⟨-, rfl⟩ | ⟨-, rfl⟩ <;> decide
  rw [hopening.openBehind_eq]
  rcases untilClosed?_or_open hclose (by simp) (hopening.isStretch hstretch)
    (hopening.quiet hquiet) with ⟨inner, rest, hinner, hleads⟩ | hnone
  · exact .inl ⟨inner, rest, hinner, hopening.trans hleads⟩
  · exact .inr hnone

/-- Behind the text of a function or group no bracket is open. -/
theorem Leads.of_untilClosed? (hpair : IsPair c close)
    (hstretch : IsStretch [] (c :: text)) (hquiet : hasQuietComments [] (c :: text) = true)
    {inner rest : List Char} (h : untilClosed? [close] text = some (inner, rest)) :
    Leads [] (c :: text) [] rest := by
  rcases untilClosed?_behind_opening hpair hstretch hquiet with
    ⟨inner', rest', hinner, hleads⟩ | ⟨hnone, -⟩
  · obtain ⟨-, rfl⟩ := Prod.mk.inj (Option.some.inj (h.symm.trans hinner))
    exact hleads
  · rw [hnone] at h
    contradiction

theorem openBehind_ne_of_untilClosed? (hpair : IsPair c close)
    (hstretch : IsStretch [] (c :: text)) (hquiet : hasQuietComments [] (c :: text) = true)
    (h : untilClosed? [close] text = none) : openBehind [] (c :: text) ≠ [] := by
  rcases untilClosed?_behind_opening hpair hstretch hquiet with
    ⟨inner, rest, hinner, -⟩ | ⟨-, hopen⟩
  · rw [hinner] at h
    contradiction
  · exact hopen

end

/-! ## Tokens -/

section

variable {text rest : List Char} {token : Token}

theorem Leads.of_quoted? (h : quoted? text = some (token, rest)) : Leads [] text [] rest := by
  unfold quoted? at h
  split at h
  · rename_i c text
    split at h
    · rename_i hquote
      split at h
      · rename_i scanned behind hclosed
        obtain ⟨-, rfl⟩ := Prod.mk.inj (Option.some.inj h)
        have hunit : unit c text = .ok (c :: scanned, behind) := by
          rw [unit, if_pos hquote, hclosed]
          rfl
        simp only [isQuote, Bool.or_eq_true, beq_iff_eq] at hquote
        rcases hquote with rfl | rfl
        · exact .step ((piece_eq_unit (by simp)).trans hunit) (by simp) (.refl _ _)
        · exact .step ((piece_eq_unit (by simp)).trans hunit) (by simp) (.refl _ _)
      · contradiction
    · contradiction
  · contradiction

theorem Leads.of_function? (hstretch : IsStretch [] text)
    (hquiet : hasQuietComments [] text = true) (h : function? text = some (token, rest)) :
    Leads [] text [] rest := by
  unfold function? at h
  split at h
  · rename_i word behind hword
    obtain ⟨⟨inner, last⟩, hinner, he⟩ := Option.map_eq_some_iff.mp h
    obtain ⟨-, rfl⟩ := Prod.mk.inj he
    have hname := Leads.of_identifier? hword
    exact hname.trans (.of_untilClosed? (.inl ⟨rfl, rfl⟩) (hname.isStretch hstretch)
      (hname.quiet hquiet) hinner)
  · contradiction

theorem Leads.of_sign? (hstretch : IsStretch [] text) (hquiet : hasQuietComments [] text = true)
    (hspacing : spacing false text = none) (h : sign? text = some (token, rest)) :
    Leads [] text [] rest := by
  unfold sign? at h
  split at h
  · contradiction
  · obtain ⟨⟨inner, last⟩, hinner, he⟩ := Option.map_eq_some_iff.mp h
    obtain ⟨-, rfl⟩ := Prod.mk.inj he
    exact .of_untilClosed? (.inl ⟨rfl, rfl⟩) hstretch hquiet hinner
  · obtain ⟨⟨inner, last⟩, hinner, he⟩ := Option.map_eq_some_iff.mp h
    obtain ⟨-, rfl⟩ := Prod.mk.inj he
    exact .of_untilClosed? (.inr ⟨rfl, rfl⟩) hstretch hquiet hinner
  · rename_i c text hround hsquare
    have hsign : c ∉ ['"', '\'', '\\'] ∧ text = rest := by
      split at h
      · rename_i hoperator
        obtain ⟨-, rfl⟩ := Prod.mk.inj (Option.some.inj h)
        rcases hoperator with rfl | rfl <;> exact ⟨by decide, rfl⟩
      · split at h
        · contradiction
        · obtain ⟨-, rfl⟩ := Prod.mk.inj (Option.some.inj h)
          simp_all
    obtain ⟨hc, rfl⟩ := hsign
    have hcomment : ¬(c = '/' ∧ text.head? = some '*') := by
      rintro ⟨rfl, hstar⟩
      obtain ⟨body, rfl⟩ := List.head?_eq_some_iff.mp hstar
      contradiction
    have hpiece : piece c text = .ok ([c], text) := by
      rw [piece_eq_unit hcomment]
      simp_all [unit, isQuote]
    have hafter : closersAfter [] c = [] := by
      unfold closersAfter
      split
      · exact (hround rfl).elim
      · exact (hsquare rfl).elim
      · rfl
    refine .step hpiece (by simp_all) ?_
    rw [hafter]
    exact .refl _ _

/-- Behind a token, as in front of it, no bracket is open. -/
theorem Leads.of_token? (hstretch : IsStretch [] text) (hquiet : hasQuietComments [] text = true)
    (hspacing : spacing false text = none) (h : token? text = some (token, rest)) :
    Leads [] text [] rest := by
  rcases token?_cases h with h | ⟨run, hnumber, -⟩ | h | ⟨run, hword, -⟩ | ⟨run, hhash, -⟩ | h
  · exact .of_quoted? h
  · exact .of_number? hnumber
  · exact .of_function? hstretch hquiet h
  · exact .of_identifier? hword
  · exact .of_hash? hhash
  · exact .of_sign? hstretch hquiet hspacing h

theorem exists_quoted?_of_piece {c : Char} (hquote : isQuote c = true) {scanned : List Char}
    (h : piece c text = .ok (scanned, rest)) : ∃ found, quoted? (c :: text) = some found := by
  have hcomment : ¬(c = '/' ∧ text.head? = some '*') := by
    rintro ⟨rfl, -⟩
    contradiction
  rw [piece_eq_unit hcomment, unit, if_pos hquote] at h
  obtain ⟨last, hlast, -⟩ := Scan.after_eq_ok_iff.mp h
  exact ⟨_, by rw [quoted?, if_pos hquote, hlast]⟩

theorem exists_identifier?_of_escape (c : Char) (text : List Char) :
    ∃ found, identifier? ('\\' :: c :: text) = some found := by
  refine ⟨name ('\\' :: c :: text), ?_⟩
  have hnumber : ∀ run, startsLikeNumber ('\\' :: run) = false := by
    intro run
    cases run <;> rfl
  rw [identifier?, if_neg (by simp [name, hnumber])]

/-- Only a bracket that stays open and a lone backslash are no token in a stretch of text. -/
theorem open_or_lone_of_token? {c : Char} (hstretch : IsStretch [] (c :: text))
    (hquiet : hasQuietComments [] (c :: text) = true) (h : token? (c :: text) = none) :
    openBehind [] (c :: text) ≠ [] ∨ endsInLoneBackslash (c :: text) = true := by
  simp only [token?, Option.or_eq_none_iff, Option.map_eq_none_iff] at h
  obtain ⟨hquoted, -, -, hidentifier, -, hsign⟩ := h
  obtain ⟨scanned, rest, hpiece, hends, -⟩ := hstretch.exists_piece
  have hquote : isQuote c = false := by
    apply Bool.eq_false_iff.mpr
    intro hquote
    obtain ⟨found, hfound⟩ := exists_quoted?_of_piece hquote hpiece
    rw [hquoted] at hfound
    contradiction
  -- All other characters are tokens of their own where they start no longer one.
  have hobstacle : c ∈ obstacles := by
    apply Decidable.byContradiction
    intro hc
    obtain ⟨token, hfound⟩ := exists_sign_of_not_mem_obstacles hc text
    rw [hsign] at hfound
    contradiction
  simp only [obstacles, List.mem_cons, List.not_mem_nil, or_false] at hobstacle
  rcases hobstacle with rfl | rfl | rfl | rfl | rfl | rfl | rfl | rfl | rfl
  · exact .inl (openBehind_ne_of_untilClosed? (.inl ⟨rfl, rfl⟩) hstretch hquiet
      (Option.map_eq_none_iff.mp hsign))
  · exact .inl (openBehind_ne_of_untilClosed? (.inr ⟨rfl, rfl⟩) hstretch hquiet
      (Option.map_eq_none_iff.mp hsign))
  · contradiction
  · contradiction
  · contradiction
  · contradiction
  · contradiction
  · right
    cases text with
    | nil =>
      rw [endsInLoneBackslash, pieces_of_piece rfl]
      rfl
    | cons d text =>
      obtain ⟨found, hfound⟩ := exists_identifier?_of_escape d text
      rw [hidentifier] at hfound
      contradiction
  · contradiction

end

/-! ## Values -/

/-- The token behind white space leads on from there. -/
theorem Leads.of_token_behind_gap {text blank rest behind : List Char} {token : Token}
    (hstretch : IsStretch [] text) (hquiet : hasQuietComments [] text = true)
    (hgap : gap false text = .ok (blank, rest)) (htoken : token? rest = some (token, behind)) :
    Leads [] rest [] behind := by
  have hleads := Leads.of_gap hgap
  exact .of_token? (hleads.isStretch hstretch) (hleads.quiet hquiet) (spacing_of_gap hgap) htoken

/-- The tokens of a stretch cannot be read where a bracket stays open or a backslash escapes
nothing, and nowhere else. -/
theorem tokens?_eq_none_iff {text : List Char} (hstretch : IsStretch [] text)
    (hquiet : hasQuietComments [] text = true) :
    tokens? text = none ↔ openBehind [] text ≠ [] ∨ endsInLoneBackslash text = true := by
  fun_induction tokens? text with
  | case1 text fault hgap =>
    obtain ⟨blank, rest, hsome⟩ := exists_gap_of_stretch hstretch
    rw [hgap] at hsome
    contradiction
  | case2 text blank hgap =>
    have hleads := Leads.of_gap hgap
    rw [hleads.openBehind_eq, hleads.endsInLoneBackslash_eq]
    simp
  | case3 text blank c rest hgap htoken =>
    have hleads := Leads.of_gap hgap
    rw [hleads.openBehind_eq, hleads.endsInLoneBackslash_eq]
    refine iff_of_true rfl ?_
    exact open_or_lone_of_token? (hleads.isStretch hstretch) (hleads.quiet hquiet) htoken
  | case4 text blank c rest hgap token behind htoken ih =>
    have hleads := (Leads.of_gap hgap).trans (.of_token_behind_gap hstretch hquiet hgap htoken)
    rw [hleads.openBehind_eq, hleads.endsInLoneBackslash_eq, Option.map_eq_none_iff]
    exact ih (hleads.isStretch hstretch) (hleads.quiet hquiet)

/-- A text whose tokens can be read starts with white space and the first of them. -/
theorem exists_token_of_tokens? {text : List Char} {token : Token} {after : List Token}
    (h : tokens? text = some (token :: after)) :
    ∃ blank rest behind, gap false text = .ok (blank, rest) ∧
      token? rest = some (token, behind) ∧ tokens? behind = some after := by
  cases hgap : gap false text with
  | error fault =>
    rw [tokens?_of_error hgap] at h
    contradiction
  | ok both =>
    obtain ⟨blank, rest⟩ := both
    cases rest with
    | nil =>
      rw [tokens?_of_end hgap] at h
      simp at h
    | cons c rest =>
      cases htoken : token? (c :: rest) with
      | none =>
        rw [tokens?_of_none hgap htoken] at h
        contradiction
      | some found =>
        obtain ⟨first, behind⟩ := found
        rw [tokens?_of_token hgap htoken] at h
        obtain ⟨later, hlater, he⟩ := Option.map_eq_some_iff.mp h
        obtain ⟨rfl, rfl⟩ := List.cons.inj he
        exact ⟨blank, c :: rest, behind, rfl, htoken, hlater⟩

/-- Each token of a stretch is led to from its start, and leads on to the tokens behind it. -/
theorem exists_leads_of_tokens? {text : List Char} (hstretch : IsStretch [] text)
    (hquiet : hasQuietComments [] text = true) {before after : List Token} {token : Token}
    (h : tokens? text = some (before ++ token :: after)) :
    ∃ rest behind, token? rest = some (token, behind) ∧ tokens? behind = some after ∧
      Leads [] text [] rest ∧ Leads [] rest [] behind := by
  induction before generalizing text with
  | nil =>
    obtain ⟨blank, rest, behind, hgap, htoken, hafter⟩ := exists_token_of_tokens? h
    exact ⟨rest, behind, htoken, hafter, .of_gap hgap,
      .of_token_behind_gap hstretch hquiet hgap htoken⟩
  | cons first before ih =>
    obtain ⟨blank, rest, behind, hgap, htoken, hafter⟩ := exists_token_of_tokens? h
    have hleads := (Leads.of_gap hgap).trans (.of_token_behind_gap hstretch hquiet hgap htoken)
    obtain ⟨rest', behind', htoken', hafter', hfront, hbehind⟩ :=
      ih (hleads.isStretch hstretch) (hleads.quiet hquiet) hafter
    exact ⟨rest', behind', htoken', hafter', hleads.trans hfront, hbehind⟩

/-- A token of a text, with the tokens that follow it, that is read from a place with no bracket
open in front of it or behind. -/
def StandsOutside (text : List Char) (token : Token) (after : List Token) : Prop :=
  ∃ front taken behind, text = front ++ (taken ++ behind) ∧
    token? (taken ++ behind) = some (token, behind) ∧ tokens? behind = some after ∧
    openBehind [] front = [] ∧ openBehind [] (front ++ taken) = []

theorem standsOutside_of_tokens? {text : List Char} (hstretch : IsStretch [] text)
    (hquiet : hasQuietComments [] text = true) {before after : List Token} {token : Token}
    (h : tokens? text = some (before ++ token :: after)) : StandsOutside text token after := by
  obtain ⟨rest, behind, htoken, hafter, hfront, htaken⟩ := exists_leads_of_tokens? hstretch hquiet h
  obtain ⟨front, rfl, hfrontOpen⟩ := hfront.exists_front
  obtain ⟨passed, hpassed, hpassedOpen⟩ := (hfront.trans htaken).exists_front
  obtain ⟨taken, rfl, -⟩ := htaken.exists_front
  rw [← List.append_assoc, List.append_cancel_right_eq] at hpassed
  subst hpassed
  exact ⟨front, taken, behind, rfl, htoken, hafter, hfrontOpen, hpassedOpen⟩

/-! ## Declarations -/

theorem exists_trimEnd_append (text : List Char) :
    ∃ blanks, text = trimEnd text ++ blanks ∧ ∀ c ∈ blanks, isBlank c = true := by
  refine ⟨(text.reverse.takeWhile isBlank).reverse, ?_, ?_⟩
  · rw [trimEnd, ← List.reverse_append, List.takeWhile_append_dropWhile, List.reverse_reverse]
  · intro c hc
    exact List.all_eq_true.mp List.all_takeWhile c (List.mem_reverse.mp hc)

theorem isBlank_of_mem_endMarks {c : Char} (h : c ∈ endMarks) : isBlank c = false := by
  simp only [endMarks, List.mem_cons, List.not_mem_nil, or_false] at h
  rcases h with rfl | rfl | rfl <;> decide

/-- The word has none of the characters in which strings and comments end. -/
theorem not_mem_of_important {text : List Char}
    (h : sameLetters (trim text) "important".toList = true) {c : Char} (hc : c ∈ endMarks) :
    c ∉ text := by
  intro hmem
  have hletter : c.toLower ∈ (trim text).map Char.toLower :=
    List.mem_map_of_mem ((mem_trim (isBlank_of_mem_endMarks hc)).mpr hmem)
  rw [sameLetters, beq_iff_eq] at h
  rw [h] at hletter
  simp only [endMarks, List.mem_cons, List.not_mem_nil, or_false] at hc
  rcases hc with rfl | rfl | rfl <;> revert hletter <;> decide

/-- Cutting off `!important` leaves a stretch. -/
theorem isStretch_cutImportant {text written last : List Char}
    (h : stretch [] text = .ok (written, last)) : IsStretch [] (cutImportant written).1 := by
  have hwhole : IsStretch [] written := IsStretch.of_front h (List.append_nil _).symm (by simp)
  unfold cutImportant
  split
  · rename_i before behind hsplit
    split
    · rename_i himportant
      obtain ⟨blanks, hwritten, hblanks⟩ := exists_trimEnd_append written
      rw [(splitLast?_eq_some_iff.mp hsplit).1, List.append_assoc] at hwritten
      refine IsStretch.of_front h hwritten ?_
      intro c hc hmem
      rw [List.cons_append, List.mem_cons, List.mem_append] at hmem
      rcases hmem with rfl | hmem | hmem
      · exact absurd hc (by decide)
      · exact not_mem_of_important himportant hc hmem
      · have hblank := hblanks c hmem
        rw [isBlank_of_mem_endMarks hc] at hblank
        contradiction
    · exact hwhole
  · exact hwhole

theorem Value.read_of_tokens? {property text : List Char}
    (hproperty : "--".toList.isPrefixOf property = false) :
    ((∃ kept, Value.read property text = .raw kept) ↔ tokens? text = none) ∧
      ∀ found, Value.read property text = .tokens found → tokens? text = some found := by
  rw [Value.read, hproperty, if_neg Bool.false_ne_true]
  cases tokens? text with
  | none => simp
  | some found => simp

/-- The text of a value is read as tokens where the brackets of its stretch are closed and no
backslash is left at its end, and each of the tokens stands outside of these brackets. That takes
comments in brackets that hold no brackets, quotes and backslashes, which would count there. -/
theorem brackets_of_mem_sites {source : List Char} {sheet : Stylesheet}
    (h : Stylesheet.parse source = .ok sheet) {site : Site} (hsite : site ∈ sheet.sites)
    (hproperty : "--".toList.isPrefixOf site.declaration.property.toList = false) :
    ∃ before name blank behind written,
      source = before ++ (name ++ (blank ++ ':' :: behind)) ∧
      site.declaration.span.start = utf8Width before ∧
      site.declaration.Starts name blank behind written ∧
      (hasQuietComments [] (cutImportant written).1 = true →
        ((∃ kept, site.declaration.value = .raw kept) ↔
          openBehind [] (cutImportant written).1 ≠ [] ∨
            endsInLoneBackslash (cutImportant written).1 = true) ∧
        ∀ earlier token later, site.declaration.value = .tokens (earlier ++ token :: later) →
          StandsOutside (cutImportant written).1 token later) := by
  obtain ⟨before, name, blank, behind, written, hsource, hspan, hstarts⟩ :=
    exists_start_of_mem_sites h hsite
  refine ⟨before, name, blank, behind, written, hsource, hspan, hstarts, ?_⟩
  intro hquiet
  obtain ⟨last, hwritten⟩ := hstarts.stretch_eq
  have hstretch := isStretch_cutImportant hwritten
  rw [hstarts.property_eq, @String.toList_ofList (unescape name)] at hproperty
  obtain ⟨hraw, htokens⟩ := Value.read_of_tokens? hproperty
  rw [hstarts.value_eq]
  refine ⟨hraw.trans (tokens?_eq_none_iff hstretch hquiet), ?_⟩
  intro earlier token later hvalue
  exact standsOutside_of_tokens? hstretch hquiet (htokens _ hvalue)

def nestedWritten : List Char := "f(a,[\"(\"/*c*/]) b!important".toList

def nestedText : List Char := "x\x7bfont-family:".toList ++ (nestedWritten ++ ['\x7d'])

def nestedDeclaration : Declaration :=
  ⟨"font-family", .tokens [.function "f" "a,[\"(\"/*c*/]", .identifier "b"], true, ⟨2, 41⟩⟩

def nestedSheet : Stylesheet :=
  ⟨[.block (.qualified "x") [.declaration nestedDeclaration] ⟨0, 42⟩]⟩

/-- Brackets in brackets, one in a string and a comment are no tokens of their own. -/
theorem brackets_of_mem_sites_nested :
    Stylesheet.parse nestedText = .ok nestedSheet ∧
      (cutImportant nestedWritten).1 = "f(a,[\"(\"/*c*/]) b".toList ∧
      openBehind [] (cutImportant nestedWritten).1 = [] ∧
      StandsOutside (cutImportant nestedWritten).1 (.function "f" "a,[\"(\"/*c*/]")
        [.identifier "b"] ∧
      StandsOutside (cutImportant nestedWritten).1 (.identifier "b") [] := by
  have hparse : Stylesheet.parse nestedText = .ok nestedSheet :=
    parse_of_events (by decide +kernel : _ = some [.opens (some (.qualified "x")) 0,
      .leaf nestedDeclaration.toLeaf ⟨2, 41⟩, .closes 42])
  have hnested : nestedDeclaration.Starts "font-family".toList [] (nestedWritten ++ ['\x7d'])
      nestedWritten :=
    ⟨by decide +kernel, gap_of_none rfl,
      ⟨['\x7d'], eq_ok_of_toOption (by decide +kernel)⟩, by decide +kernel⟩
  obtain ⟨before, name, blank, behind, written, hsource, hspan, hstarts, hbrackets⟩ :=
    @brackets_of_mem_sites nestedText nestedSheet hparse
      ⟨nestedDeclaration, [(.qualified "x", ⟨0, 42⟩)]⟩ List.mem_cons_self (by decide)
  obtain rfl : nestedWritten = written :=
    @Declaration.Starts.written_eq _ "x\x7b".toList _ _ _ _ _ _ _ _ _ hnested hstarts hsource
      hspan
  obtain ⟨hraw, htokens⟩ := hbrackets (by decide +kernel)
  refine ⟨hparse, by decide +kernel, by decide +kernel, ?_, ?_⟩
  · exact htokens [] _ _ rfl
  · exact htokens [_] _ _ rfl

def innerBracketSheet : Stylesheet :=
  ⟨[.block (.qualified "x") [.declaration ⟨"font-family", .tokens [.group '(' "/*",
    .identifier "a", .delimiter '*', .operator '/', .delimiter ')'], false, ⟨2, 22⟩⟩] ⟨0, 23⟩]⟩

def openBracketSheet : Stylesheet :=
  ⟨[.block (.qualified "x") [.declaration ⟨"font-family", .raw "(/*(*/)", false, ⟨2, 21⟩⟩] ⟨0, 22⟩]⟩

/-- A bracket in a comment between brackets counts for the tokens, but not for the stretch. So a
name in brackets is a token, or a value without open brackets has no tokens. -/
theorem brackets_in_comments :
    (Stylesheet.parse "x\x7bfont-family:(/*)a*/)\x7d".toList = .ok innerBracketSheet ∧
      openBehind [] "(/*)".toList = [')'] ∧ openBehind [] "(/*)a*/)".toList = []) ∧
    (Stylesheet.parse "x\x7bfont-family:(/*(*/)\x7d".toList = .ok openBracketSheet ∧
      openBehind [] "(/*(*/)".toList = []) := by
  have hinner : Stylesheet.parse "x\x7bfont-family:(/*)a*/)\x7d".toList = .ok innerBracketSheet :=
    parse_of_events (by decide +kernel : _ = some [.opens (some (.qualified "x")) 0,
      .leaf (.declaration "font-family" (.tokens [.group '(' "/*", .identifier "a", .delimiter '*',
        .operator '/', .delimiter ')']) false) ⟨2, 22⟩, .closes 23])
  have hopen : Stylesheet.parse "x\x7bfont-family:(/*(*/)\x7d".toList = .ok openBracketSheet :=
    parse_of_events (by decide +kernel : _ = some [.opens (some (.qualified "x")) 0,
      .leaf (.declaration "font-family" (.raw "(/*(*/)") false) ⟨2, 21⟩, .closes 22])
  exact ⟨⟨hinner, by decide +kernel, by decide +kernel⟩, hopen, by decide +kernel⟩

end WebFonts.Css
