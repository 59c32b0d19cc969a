import WebFonts.Proofs.Css.Alike
import WebFonts.Proofs.Css.Tokenizing

/-! # Separated tokens

Two texts that are the same up to a comma, an exclamation mark or their end have the same tokens in
front of it, where no string, comment or bracket reaches beyond. -/

namespace WebFonts.Css

open Text

/-! ## Readings that are closed -/

/-- The characters in which strings, comments and brackets end. -/
def tokenEnds : List Char := endMarks ++ closingMarks

/-- A reader takes the start of a text through a mark that closes it, whatever follows. -/
def ReadsClosed {α : Type} (read : List Char → Option (α × List Char)) (text : List Char)
    (found : α × List Char) : Prop :=
  ∃ taken mark, text = taken ++ mark :: found.2 ∧ mark ∈ tokenEnds ∧
    ∀ rest, read (taken ++ mark :: rest) = some (found.1, rest)

/-- A reading ends in front of `more`, or `more` holds nothing it could end in. -/
def KeepsOff (more behind : List Char) : Prop := more <:+ behind ∨ ∀ c ∈ tokenEnds, c ∉ more

theorem KeepsOff.of_suffix {more rest behind : List Char} (h : KeepsOff more rest)
    (hrest : rest <:+ behind) : KeepsOff more behind :=
  h.imp_left fun hmore => hmore.trans hrest

theorem KeepsOff.suffix {more front taken behind : List Char} {mark : Char}
    (h : KeepsOff more behind) (htext : taken ++ mark :: behind = front ++ more)
    (hmark : mark ∈ tokenEnds) : more <:+ behind := by
  rcases h with h | hends
  · exact h
  · rcases List.append_eq_append_iff.mp htext with ⟨run, -, hrun⟩ | ⟨run, -, hmore⟩
    · cases run with
      | nil =>
        exact (hends mark hmark (by rw [← List.nil_append more, ← hrun]; simp)).elim
      | cons d run => exact ⟨run, (List.cons.inj hrun).2.symm⟩
    · exact (hends mark hmark (by rw [hmore]; simp)).elim

theorem escapesNext_closed {mark : Char} (hmark : mark ∈ tokenEnds) (taken : List Char) :
    escapesNext (taken ++ [mark]) = false := by
  rw [Bool.eq_false_iff]
  intro hescapes
  have hlast := getLast?_of_escapesNext hescapes
  rw [List.getLast?_concat] at hlast
  rw [Option.some.inj hlast] at hmark
  exact absurd hmark (by decide)

section

variable {α : Type} {read : List Char → Option (α × List Char)} {text text' more more' : List Char}
  {found : α × List Char}

theorem ReadsClosed.exists_taken (h : ReadsClosed read text found) :
    ∃ taken, text = taken ++ found.2 ∧ escapesNext taken = false := by
  obtain ⟨taken, mark, rfl, hmark, -⟩ := h
  exact ⟨taken ++ [mark], by simp, escapesNext_closed hmark taken⟩

theorem ReadsClosed.alike (h : ReadsClosed read text found) (halike : Alike more more' text text')
    (hoff : KeepsOff more found.2) :
    ∃ found', read text' = some found' ∧ ReadAlike more more' found found' := by
  obtain ⟨taken, mark, rfl, hmark, hread⟩ := h
  obtain ⟨front, -, htext, -⟩ := halike.exists_front
  have hsuffix := hoff.suffix htext hmark
  rw [List.append_cons] at halike
  obtain ⟨behind', rfl, hbehind⟩ :=
    halike.exists_behind (escapesNext_closed hmark taken) hsuffix
  exact ⟨(found.1, behind'), by rw [← hread]; simp, rfl, hbehind⟩

end

theorem readsClosed_quoted? {text : List Char} {found : Token × List Char}
    (h : quoted? text = some found) : ReadsClosed quoted? text found := by
  unfold quoted? at h
  split at h
  · rename_i c text
    split at h
    · rename_i hquote
      split at h
      · rename_i scanned rest hclosed
        obtain rfl := Option.some.inj h
        obtain ⟨body, rfl⟩ := List.getLast?_eq_some_iff.mp (getLast?_of_closeString hclosed)
        refine ⟨c :: body, c, ?_, ?_, ?_⟩
        · rw [← closeString_splits _ _ _ _ hclosed]
          simp
        · exact List.mem_append_left _ (mem_endMarks_of_isQuote hquote)
        · intro rest'
          have hbehind := closeString_behind hclosed rest'
          rw [List.append_assoc, List.singleton_append] at hbehind
          rw [List.cons_append, quoted?, if_pos hquote, hbehind]
      · contradiction
    · contradiction
  · contradiction

theorem readsClosed_untilClosed? {closers text : List Char} (hclosers : closers ⊆ closingMarks)
    (hne : closers ≠ []) {found : List Char × List Char}
    (h : untilClosed? closers text = some found) :
    ReadsClosed (untilClosed? closers) text found := by
  fun_induction untilClosed? closers text generalizing found with
  | case1 => contradiction
  | case2 => contradiction
  | case3 closers c text scanned rest hunit hclosed =>
    obtain rfl := Option.some.inj h
    rw [List.isEmpty_iff] at hclosed
    have hmark := mem_closingMarks_of_closersAfter hclosers hne hclosed
    have hone : ∀ rest, unit c rest = .ok ([c], rest) := by
      intro rest
      simp only [closingMarks, List.mem_cons, List.not_mem_nil, or_false] at hmark
      rcases hmark with rfl | rfl
      · rfl
      · rfl
    obtain ⟨-, rfl⟩ := Prod.mk.inj (Except.ok.inj (hunit.symm.trans (hone text)))
    exact ⟨[], c, rfl, List.mem_append_right _ hmark,
      fun rest => untilClosed?_of_closed (hone rest) hclosed⟩
  | case4 closers c text scanned rest hunit hopen ih =>
    obtain ⟨⟨inner, behind⟩, hinner, rfl⟩ := Option.map_eq_some_iff.mp h
    rw [List.isEmpty_iff] at hopen
    obtain ⟨taken, mark, rfl, hmark, hread⟩ :=
      ih (closersAfter_subset hclosers c) hopen hinner
    have hslash : scanned ≠ ['\\'] := by
      rintro rfl
      obtain ⟨rfl, rfl⟩ := List.cons.inj (unit_splits _ _ _ _ hunit)
      have hnil := nil_of_piece_backslash ((piece_eq_unit (by simp)).trans hunit)
      exact List.append_ne_nil_of_right_ne_nil _ (List.cons_ne_nil _ _) hnil
    obtain ⟨tail, rfl, hbehind⟩ := unit_behind hunit hslash
    refine ⟨c :: tail ++ taken, mark, ?_, hmark, ?_⟩
    · rw [List.append_assoc, ← unit_splits _ _ _ _ hunit]
    · intro rest'
      rw [List.append_assoc, List.cons_append, untilClosed?_of_unit (hbehind _) hopen, hread]
      rfl

theorem identifier?_behind {text run rest rest' : List Char}
    (h : identifier? text = some (run, rest)) (hrest' : name rest' = ([], rest')) :
    identifier? (run ++ rest') = some (run, rest') := by
  have hname := name_behind (name_of_identifier? h) hrest'
  rw [identifier?, name_of_identifier? h] at h
  rw [identifier?, hname]
  split at h
  · contradiction
  · rename_i hrun
    rw [if_neg hrun]

theorem readsClosed_function? {text : List Char} {found : Token × List Char}
    (h : function? text = some found) : ReadsClosed function? text found := by
  unfold function? at h
  split at h
  · rename_i word behind hword
    obtain ⟨⟨inner, rest⟩, hinner, rfl⟩ := Option.map_eq_some_iff.mp h
    obtain ⟨taken, mark, rfl, hmark, hread⟩ :=
      readsClosed_untilClosed? (by decide) (by simp) hinner
    refine ⟨word ++ '(' :: taken, mark, ?_, hmark, ?_⟩
    · rw [← (identifier?_split hword).1]
      simp
    · intro rest'
      have hname : name ('(' :: (taken ++ mark :: rest')) = ([], '(' :: (taken ++ mark :: rest')) :=
        rfl
      rw [List.append_assoc, List.cons_append, function?, identifier?_behind hword hname]
      simp only [hread, Option.map_some]
  · contradiction

theorem readsClosed_sign? {c : Char} {text : List Char} {found : Token × List Char}
    (hc : c = '(' ∨ c = '[') (h : sign? (c :: text) = some found) :
    ReadsClosed sign? (c :: text) found := by
  rcases hc with rfl | rfl
  · obtain ⟨⟨inner, rest⟩, hinner, rfl⟩ := Option.map_eq_some_iff.mp h
    obtain ⟨taken, mark, rfl, hmark, hread⟩ :=
      readsClosed_untilClosed? (by decide) (by simp) hinner
    refine ⟨'(' :: taken, mark, rfl, hmark, ?_⟩
    intro rest'
    rw [List.cons_append, sign?, hread]
    rfl
  · obtain ⟨⟨inner, rest⟩, hinner, rfl⟩ := Option.map_eq_some_iff.mp h
    obtain ⟨taken, mark, rfl, hmark, hread⟩ :=
      readsClosed_untilClosed? (by decide) (by simp) hinner
    refine ⟨'[' :: taken, mark, rfl, hmark, ?_⟩
    intro rest'
    rw [List.cons_append, sign?, hread]
    rfl

/-! ## What a token takes -/

theorem escapesNext_piece {c : Char} {text scanned rest : List Char}
    (h : piece c text = .ok (scanned, rest)) (hslash : scanned ≠ ['\\']) :
    escapesNext scanned = false := by
  rcases exists_last_of_piece h with rfl | ⟨d, rfl⟩ | ⟨d, hlast, hd⟩
  · rw [escapesNext_cons (by simpa using hslash), escapesNext]
  · rfl
  · obtain ⟨front, rfl⟩ := List.getLast?_eq_some_iff.mp hlast
    exact escapesNext_closed (List.mem_append_left _ hd) front

theorem Leads.exists_taken {closers closers' text behind : List Char}
    (h : Leads closers text closers' behind) :
    ∃ taken, text = taken ++ behind ∧ escapesNext taken = false := by
  induction h with
  | refl => exact ⟨[], rfl, rfl⟩
  | @step _ _ _ _ scanned _ _ hpiece hslash _ ih =>
    obtain ⟨taken, rfl, htaken⟩ := ih
    refine ⟨scanned ++ taken, ?_, ?_⟩
    · rw [List.append_assoc, piece_splits _ _ _ _ hpiece]
    · rw [escapesNext_append (escapesNext_piece hpiece hslash), htaken]

section

variable {c : Char} {text behind : List Char} {token : Token}

/-- A sign that opens no bracket is a single character. -/
theorem sign?_of_single (hc : ¬(c = '(' ∨ c = '[')) (h : sign? (c :: text) = some (token, behind)) :
    behind = text ∧ c ≠ '\\' ∧ ∀ text', sign? (c :: text') = some (token, text') := by
  rw [not_or] at hc
  have hsign : ∀ text', sign? (c :: text') =
      if c = ',' ∨ c = '/' then some (.operator c, text')
      else if c ∈ ['{', '}', ';', '"', '\'', '\\'] then none
      else some (.delimiter c, text') := by
    intro text'
    rw [sign?]
    · exact hc.1
    · exact hc.2
  rw [hsign] at h
  by_cases hoperator : c = ',' ∨ c = '/'
  · rw [if_pos hoperator] at h
    obtain ⟨rfl, rfl⟩ := Prod.mk.inj (Option.some.inj h)
    refine ⟨rfl, ?_, fun text' => by rw [hsign, if_pos hoperator]⟩
    rcases hoperator with rfl | rfl <;> decide
  · rw [if_neg hoperator] at h
    obtain ⟨hnone, he⟩ := Option.ite_none_left_eq_some.mp h
    obtain ⟨rfl, rfl⟩ := Prod.mk.inj (Option.some.inj he)
    refine ⟨rfl, ?_, fun text' => by rw [hsign, if_neg hoperator, if_neg hnone]⟩
    rintro rfl
    exact hnone (by decide)

theorem exists_taken_of_token? (h : token? text = some (token, behind)) :
    ∃ taken, text = taken ++ behind ∧ escapesNext taken = false := by
  rcases token?_cases h with h | ⟨run, hnumber, -⟩ | h | ⟨run, hword, -⟩ | ⟨run, hhash, -⟩ | h
  · exact (readsClosed_quoted? h).exists_taken
  · exact (Leads.of_number? hnumber).exists_taken
  · exact (readsClosed_function? h).exists_taken
  · exact (Leads.of_identifier? hword).exists_taken
  · exact (Leads.of_hash? hhash).exists_taken
  · cases text with
    | nil => contradiction
    | cons c text =>
      by_cases hc : c = '(' ∨ c = '['
      · exact (readsClosed_sign? hc h).exists_taken
      · obtain ⟨rfl, hslash, -⟩ := sign?_of_single hc h
        exact ⟨[c], rfl, by rw [escapesNext_cons hslash, escapesNext]⟩

/-! ## One token -/

theorem quoted?_of_not_isQuote (hc : isQuote c = false) (text : List Char) :
    quoted? (c :: text) = none := by
  rw [quoted?, if_neg (by simp [hc])]

theorem token?_of_isQuote (hc : isQuote c = true) (text : List Char) :
    token? (c :: text) = quoted? (c :: text) := by
  simp only [isQuote, Bool.or_eq_true, beq_iff_eq] at hc
  rcases hc with rfl | rfl
  · exact Option.or_none
  · exact Option.or_none

theorem function?_of_word {word : List Char} (h : identifier? text = some (word, behind))
    (hopen : behind.head? ≠ some '(') : function? text = none := by
  unfold function?
  rw [h]
  split
  · rename_i he
    obtain ⟨-, rfl⟩ := Prod.mk.inj (Option.some.inj he)
    exact (hopen rfl).elim
  · rfl

theorem function?_of_no_word (h : identifier? text = none) : function? text = none := by
  rw [function?, h]

/-- A parenthesis that is not closed is no token. -/
theorem tokens?_of_open (h : untilClosed? [')'] text = none) : tokens? ('(' :: text) = none := by
  refine tokens?_of_none (gap_of_none rfl) ?_
  have hsign : sign? ('(' :: text) = none := by rw [sign?, h]; rfl
  have hwords : token? ('(' :: text) = sign? ('(' :: text) := rfl
  rw [hwords, hsign]

end

section

variable {more more' text text' : List Char}

theorem quoted?_none_alike {found : Token × List Char} (halike : Alike more more' text text')
    (hne : text ≠ more) (h : token? text = some found) (hquoted : quoted? text = none) :
    quoted? text' = none := by
  cases halike with
  | refl => contradiction
  | @cons c rest rest' _ _ =>
    by_cases hquote : isQuote c = true
    · rw [token?_of_isQuote hquote, hquoted] at h
      contradiction
    · exact quoted?_of_not_isQuote (Bool.eq_false_iff.mpr hquote) rest'
  | escape c _ => rfl

theorem function?_none_alike (hmore : EndsWords more) (hmore' : EndsWords more')
    (halike : Alike more more' text text') (hfunction : function? text = none)
    (hbehind : ∀ word rest, identifier? text = some (word, rest) → tokens? rest ≠ none) :
    function? text' = none := by
  have hword := identifier?_alike hmore hmore' halike
  cases hfound : identifier? text with
  | none => exact function?_of_no_word (none_alike hword hfound)
  | some found =>
    obtain ⟨word, rest⟩ := found
    obtain ⟨⟨word', rest'⟩, hfound', hread⟩ := some_alike hword hfound
    by_cases hopen : rest.head? = some '('
    · obtain ⟨rest, rfl⟩ := List.head?_eq_some_iff.mp hopen
      rw [function?, hfound] at hfunction
      exact (hbehind _ _ hfound (tokens?_of_open (Option.map_eq_none_iff.mp hfunction))).elim
    · exact function?_of_word hfound' (mt (hread.alike.head?_eq hmore' (by decide)) hopen)

theorem sign?_alike {found : Token × List Char} (halike : Alike more more' text text')
    (hne : text ≠ more) (hoff : KeepsOff more found.2) (h : sign? text = some found) :
    ∃ found', sign? text' = some found' ∧ ReadAlike more more' found found' := by
  cases halike with
  | refl => contradiction
  | @cons c rest rest' hc hrest =>
    by_cases hopen : c = '(' ∨ c = '['
    · exact (readsClosed_sign? hopen h).alike (.cons hc hrest) hoff
    · obtain ⟨token, behind⟩ := found
      obtain ⟨rfl, -, hsign⟩ := sign?_of_single hopen h
      exact ⟨(token, rest'), hsign rest', rfl, hrest⟩
  | escape c _ => contradiction

/-- A text in front of `more` starts with the same token if `more'` follows it instead. -/
theorem token?_alike {found : Token × List Char} (hmore : EndsWords more)
    (hmore' : EndsWords more') (halike : Alike more more' text text') (hne : text ≠ more)
    (hoff : KeepsOff more found.2) (h : token? text = some found)
    (hbehind : tokens? found.2 ≠ none) :
    ∃ found', token? text' = some found' ∧ ReadAlike more more' found found' := by
  have hquoted : quoted? text = none → quoted? text' = none :=
    quoted?_none_alike halike hne h
  obtain ⟨token, behind⟩ := found
  have hnumber := number?_alike hmore hmore' halike
  have hword := identifier?_alike hmore hmore' halike
  have hhash := hash?_alike hmore hmore' halike
  simp only [token?, Option.or_eq_some_iff, Option.map_eq_some_iff, Option.map_eq_none_iff,
    Prod.mk.injEq] at h
  rcases h with h | ⟨hnoString, ⟨⟨run, last⟩, hfound, rfl, rfl⟩ | ⟨hnoNumber, h |
    ⟨hnoFunction, ⟨⟨run, last⟩, hfound, rfl, rfl⟩ | ⟨hnoWord, ⟨⟨run, last⟩, hfound, rfl, rfl⟩ |
      ⟨hnoHash, h⟩⟩⟩⟩⟩
  · obtain ⟨found', hfound', hread⟩ := (readsClosed_quoted? h).alike halike hoff
    exact ⟨found', by rw [token?, hfound', Option.some_or], hread⟩
  · obtain ⟨⟨run', last'⟩, hfound', hread⟩ := some_alike hnumber hfound
    obtain rfl := hread.fst_eq
    refine ⟨(.number (String.ofList run'), last'), ?_, rfl, hread.alike⟩
    simp [token?, hquoted hnoString, hfound']
  · obtain ⟨found', hfound', hread⟩ := (readsClosed_function? h).alike halike hoff
    refine ⟨found', ?_, hread⟩
    simp [token?, hquoted hnoString, none_alike hnumber hnoNumber, hfound']
  · obtain ⟨⟨run', last'⟩, hfound', hread⟩ := some_alike hword hfound
    obtain rfl := hread.fst_eq
    refine ⟨(.identifier (String.ofList (unescape run')), last'), ?_, rfl, hread.alike⟩
    have hnoFunction' : function? text' = none := by
      apply function?_none_alike hmore hmore' halike hnoFunction
      intro word rest hrest
      obtain ⟨-, rfl⟩ := Prod.mk.inj (Option.some.inj (hfound.symm.trans hrest))
      exact hbehind
    simp [token?, hquoted hnoString, none_alike hnumber hnoNumber, hnoFunction', hfound']
  · obtain ⟨⟨run', last'⟩, hfound', hread⟩ := some_alike hhash hfound
    obtain rfl := hread.fst_eq
    refine ⟨(.hash (String.ofList (unescape run')), last'), ?_, rfl, hread.alike⟩
    have hnoWord' := none_alike hword hnoWord
    simp [token?, hquoted hnoString, none_alike hnumber hnoNumber, function?_of_no_word hnoWord',
      hnoWord', hfound']
  · obtain ⟨found', hfound', hread⟩ := sign?_alike halike hne hoff h
    refine ⟨found', ?_, hread⟩
    have hnoWord' := none_alike hword hnoWord
    simp [token?, hquoted hnoString, none_alike hnumber hnoNumber, function?_of_no_word hnoWord',
      hnoWord', none_alike hhash hnoHash, hfound']

end

/-! ## White space -/

theorem EndsWords.spacing_eq {text : List Char} (h : EndsWords text) :
    spacing false text = none := by
  apply spacing_eq_none_iff.mpr
  constructor
  · intro c hspace hhead
    have hnone : isSpace c = false := h.head?_eq_false (by decide) hhead
    rw [hspace] at hnone
    contradiction
  · rintro ⟨rest, rfl⟩
    exact h.head?_ne (by decide) rfl

section

variable {more more' text text' : List Char}

theorem spacing_none_alike (hmore' : EndsWords more') (halike : Alike more more' text text')
    (h : spacing false text = none) : spacing false text' = none := by
  obtain ⟨hspace, hcomment⟩ := spacing_eq_none_iff.mp h
  cases halike with
  | refl => exact hmore'.spacing_eq
  | @cons c rest rest' _ hrest =>
    apply spacing_eq_none_iff.mpr
    refine ⟨hspace, ?_⟩
    rintro ⟨behind, he⟩
    obtain ⟨rfl, hstar⟩ := List.cons.inj he
    have hhead : rest.head? = some '*' :=
      hrest.head?_eq hmore' (by decide) (congrArg List.head? hstar.symm)
    obtain ⟨body, rfl⟩ := List.head?_eq_some_iff.mp hhead
    exact hcomment ⟨body, rfl⟩
  | escape c _ => rfl

/-- White space is a comment, or a single character. -/
theorem spacing_cases {scanned rest : List Char}
    (h : spacing false text = some (.ok (scanned, rest))) :
    (∃ front, scanned = front ++ ['/']) ∨ ∃ c, scanned = [c] ∧ isSpace c = true := by
  fun_cases spacing false text with
  | case1 body =>
    exact .inl (List.getLast?_eq_some_iff.mp (getLast?_of_comment (Option.some.inj h)))
  | case2 => contradiction
  | case3 => simp_all [spacing]
  | case4 => contradiction
  | case5 => simp_all [spacing]
  | case6 c behind _ _ _ hspace =>
    rw [spacing_of_isSpace hspace] at h
    obtain ⟨rfl, -⟩ := Prod.mk.inj (Except.ok.inj (Option.some.inj h))
    exact .inr ⟨c, rfl, hspace⟩
  | case7 => simp_all [spacing]
  | case8 => simp_all [spacing]

theorem spacing_alike {scanned rest : List Char} (hmore : EndsWords more)
    (halike : Alike more more' text text') (hoff : KeepsOff more rest)
    (h : spacing false text = some (.ok (scanned, rest))) :
    ∃ rest', spacing false text' = some (.ok (scanned, rest')) ∧ Alike more more' rest rest' := by
  have hsuffix : more <:+ rest := by
    obtain ⟨front, -, htext, -⟩ := halike.exists_front
    rw [← spacing_splits h] at htext
    rcases spacing_cases h with ⟨body, rfl⟩ | ⟨c, rfl, -⟩
    · rw [← List.append_cons] at htext
      exact hoff.suffix htext (by decide)
    · cases front with
      | nil =>
        have hnone := hmore.spacing_eq
        rw [← List.nil_append more, ← htext, spacing_splits h, h] at hnone
        contradiction
      | cons d front => exact ⟨front, (List.cons.inj htext).2.symm⟩
  have hscanned : escapesNext scanned = false := by
    rcases spacing_cases h with ⟨body, rfl⟩ | ⟨c, rfl, hc⟩
    · exact escapesNext_closed (by decide) body
    · have hslash : c ≠ '\\' := by
        rintro rfl
        contradiction
      rw [escapesNext_cons hslash, escapesNext]
  rw [← spacing_splits h] at halike
  obtain ⟨rest', rfl, hrest⟩ := halike.exists_behind hscanned hsuffix
  exact ⟨rest', spacing_behind h rest', hrest⟩

/-- White space in front of `more` is the same if `more'` follows instead. -/
theorem gap_alike {blank rest : List Char} (hmore : EndsWords more) (hmore' : EndsWords more')
    (halike : Alike more more' text text') (hoff : KeepsOff more rest)
    (h : gap false text = .ok (blank, rest)) :
    ∃ rest', gap false text' = .ok (blank, rest') ∧ Alike more more' rest rest' := by
  fun_induction gap false text generalizing blank text' with
  | case1 text hspacing =>
    obtain ⟨rfl, rfl⟩ := Prod.mk.inj (Except.ok.inj h)
    exact ⟨text', gap_of_none (spacing_none_alike hmore' halike hspacing), halike⟩
  | case2 => contradiction
  | case3 text scanned behind hspacing ih =>
    obtain ⟨last, hlast, rfl⟩ := Scan.after_eq_ok_iff.mp h
    have hbehind : KeepsOff more behind :=
      hoff.of_suffix ⟨last, gap_splits false behind _ _ hlast⟩
    obtain ⟨behind', hspacing', hbehind'⟩ := spacing_alike hmore halike hbehind hspacing
    obtain ⟨rest', hrest', hlater⟩ := ih hbehind' hlast
    exact ⟨rest', by rw [gap_of_some hspacing', hrest']; rfl, hlater⟩

end

/-! ## All tokens -/

theorem tokens?_of_gap {text blank rest : List Char} (h : gap false text = .ok (blank, rest)) :
    tokens? text = tokens? rest := by
  have hrest : gap false rest = .ok ([], rest) := gap_of_none (spacing_of_gap h)
  cases rest with
  | nil => rw [tokens?_of_end h, tokens?_of_end hrest]
  | cons c rest =>
    cases htoken : token? (c :: rest) with
    | none => rw [tokens?_of_none h htoken, tokens?_of_none hrest htoken]
    | some found => rw [tokens?_of_token h htoken, tokens?_of_token hrest htoken]

theorem tokens?_cons_of_token {text blank rest behind : List Char} {token : Token}
    (hgap : gap false text = .ok (blank, rest)) (htoken : token? rest = some (token, behind)) :
    tokens? text = (tokens? behind).map (token :: ·) := by
  cases rest with
  | nil => contradiction
  | cons c rest => exact tokens?_of_token hgap htoken

theorem exists_gap_of_no_tokens {text : List Char} (h : tokens? text = some []) :
    ∃ blank, gap false text = .ok (blank, []) := by
  cases hgap : gap false text with
  | error fault =>
    rw [tokens?_of_error hgap] at h
    contradiction
  | ok both =>
    obtain ⟨blank, rest⟩ := both
    cases rest with
    | nil => exact ⟨blank, rfl⟩
    | cons c rest =>
      cases htoken : token? (c :: rest) with
      | none =>
        rw [tokens?_of_none hgap htoken] at h
        contradiction
      | some found =>
        rw [tokens?_of_token hgap htoken] at h
        simp at h

section

variable {more more' text text' : List Char}

/-- The tokens of a text are those in front of a separator and those from there on. The former are
the same in a text that goes on otherwise. -/
theorem tokens?_alike {found : List Token} (hmore : EndsWords more) (hmore' : EndsWords more')
    (hends : ∀ c ∈ tokenEnds, c ∉ more) (halike : Alike more more' text text')
    (h : tokens? text = some found) :
    ∃ earlier later, found = earlier ++ later ∧ tokens? more = some later ∧
      tokens? text' = (tokens? more').map (earlier ++ ·) := by
  induction found generalizing text text' with
  | nil =>
    obtain ⟨blank, hgap⟩ := exists_gap_of_no_tokens h
    obtain ⟨rest', hgap', hrest⟩ := gap_alike hmore hmore' halike (.inr hends) hgap
    cases hrest with
    | refl =>
      refine ⟨[], [], rfl, ?_, ?_⟩
      · rw [← tokens?_of_gap hgap, h]
      · rw [tokens?_of_gap hgap']
        simp
  | cons token found ih =>
    obtain ⟨blank, rest, behind, hgap, htoken, hfound⟩ := exists_token_of_tokens? h
    obtain ⟨rest', hgap', hrest⟩ := gap_alike hmore hmore' halike (.inr hends) hgap
    by_cases hmark : rest = more
    · subst hmark
      obtain rfl := hrest.eq_of_more
      refine ⟨[], token :: found, rfl, ?_, ?_⟩
      · rw [← tokens?_of_gap hgap, h]
      · rw [tokens?_of_gap hgap']
        simp
    · have hsome : tokens? behind ≠ none := by simp [hfound]
      obtain ⟨⟨token', behind'⟩, htoken', hread⟩ :=
        token?_alike hmore hmore' hrest hmark (.inr hends) htoken hsome
      obtain rfl := hread.fst_eq
      obtain ⟨earlier, later, rfl, hlater, hbehind⟩ := ih hread.alike hfound
      refine ⟨token' :: earlier, later, rfl, hlater, ?_⟩
      rw [tokens?_cons_of_token hgap' htoken', hbehind, Option.map_map]
      rfl

end

/-- A text with tokens does not escape what follows it. -/
theorem escapesNext_of_tokens? {text : List Char} {found : List Token}
    (h : tokens? text = some found) : escapesNext text = false := by
  rw [Bool.eq_false_iff]
  intro hescapes
  obtain ⟨front, rfl, hfront⟩ := exists_of_escapesNext hescapes
  obtain ⟨-, later, -, hlater, -⟩ := tokens?_alike (.inl rfl) .nil
    (by simp [tokenEnds, endMarks, closingMarks]) (Alike.of_front hfront ['\\'] []) h
  rw [tokens?_of_none (gap_of_none rfl) rfl] at hlater
  contradiction

/-- Tokens are read up to a separator as they are read without what follows. -/
theorem tokens?_append {text more : List Char} {found : List Token} (h : tokens? text = some found)
    (hmore : EndsWords more) : tokens? (text ++ more) = (tokens? more).map (found ++ ·) := by
  have halike : Alike [] more text (text ++ more) := by
    have hfront := Alike.of_front (escapesNext_of_tokens? h) [] more
    rwa [List.append_nil] at hfront
  obtain ⟨earlier, later, rfl, hlater, he⟩ := tokens?_alike .nil hmore (by simp) halike h
  rw [tokens?_of_end (gap_nil false)] at hlater
  obtain rfl := Option.some.inj hlater
  rwa [List.append_nil]

/-- A separator that nothing escapes or encloses splits the tokens of a text. -/
theorem tokens?_split {front more : List Char} {found : List Token}
    (hfront : escapesNext front = false) (hmore : EndsWords more)
    (hends : ∀ c ∈ tokenEnds, c ∉ more) (h : tokens? (front ++ more) = some found) :
    ∃ earlier later, found = earlier ++ later ∧ tokens? front = some earlier ∧
      tokens? more = some later := by
  obtain ⟨earlier, later, rfl, hlater, he⟩ :=
    tokens?_alike hmore .nil hends (Alike.of_front hfront more []) h
  rw [List.append_nil, tokens?_of_end (gap_nil false)] at he
  exact ⟨earlier, later, rfl, by simpa using he, hlater⟩

theorem escapesNext_of_gap {text blank rest : List Char} (h : gap false text = .ok (blank, rest)) :
    escapesNext blank = false := by
  obtain ⟨taken, htext, htaken⟩ := (Leads.of_gap h).exists_taken
  rw [← gap_splits _ _ _ _ h] at htext
  rwa [List.append_cancel_right htext]

/-- Each token is read from a place in the text, and where it starts with a separator, those in
front of it are the tokens of the text up to there. -/
theorem exists_front_of_tokens? {text : List Char} {earlier later : List Token} {token : Token}
    (h : tokens? text = some (earlier ++ token :: later)) :
    ∃ front rest behind, text = front ++ rest ∧ token? rest = some (token, behind) ∧
      tokens? behind = some later ∧ escapesNext front = false ∧
      (EndsWords rest → tokens? front = some earlier) := by
  induction earlier generalizing text with
  | nil =>
    obtain ⟨blank, rest, behind, hgap, htoken, hlater⟩ := exists_token_of_tokens? h
    obtain rfl := gap_splits _ _ _ _ hgap
    have hblank := escapesNext_of_gap hgap
    refine ⟨blank, rest, behind, rfl, htoken, hlater, hblank, ?_⟩
    intro hmore
    have halike := Alike.of_front hblank rest []
    obtain ⟨rest', hgap', hrest'⟩ := gap_alike hmore .nil halike (.inl List.suffix_rfl) hgap
    rw [hrest'.eq_of_more, List.append_nil] at hgap'
    exact tokens?_of_end hgap'
  | cons first earlier ih =>
    obtain ⟨blank, start, after, hgap, hfirst, hearlier⟩ := exists_token_of_tokens? h
    obtain ⟨front, rest, behind, rfl, htoken, hlater, hfront, htokens⟩ := ih hearlier
    obtain ⟨taken, rfl, htaken⟩ := exists_taken_of_token? hfirst
    obtain rfl := gap_splits _ _ _ _ hgap
    have hescapes : escapesNext (blank ++ (taken ++ front)) = false := by
      rw [escapesNext_append (escapesNext_of_gap hgap), escapesNext_append htaken, hfront]
    refine ⟨blank ++ (taken ++ front), rest, behind, by simp, htoken, hlater, hescapes, ?_⟩
    intro hmore
    have hoff : KeepsOff rest (front ++ rest) := .inl (List.suffix_append _ _)
    have hne : taken ++ (front ++ rest) ≠ rest := by
      intro he
      have hlength := token?_shorter hfirst
      rw [he, List.length_append] at hlength
      omega
    have halike := Alike.of_front hescapes rest []
    rw [List.append_assoc, List.append_assoc, List.append_nil] at halike
    obtain ⟨start', hgap', hstart'⟩ :=
      gap_alike hmore .nil halike (hoff.of_suffix (List.suffix_append _ _)) hgap
    obtain ⟨⟨first', after'⟩, hfirst', hread⟩ :=
      token?_alike hmore .nil hstart' hne hoff hfirst (by simp [hearlier])
    obtain rfl := hread.fst_eq
    obtain rfl := hread.alike.eq_append
    rw [tokens?_cons_of_token hgap' hfirst', List.append_nil, htokens hmore]
    rfl

/-! ## Values -/

theorem Value.read_eq_tokens_iff {property text : List Char} {found : List Token} :
    Value.read property text = .tokens found ↔
      "--".toList.isPrefixOf property = false ∧ tokens? text = some found := by
  rw [Value.read]
  cases hproperty : "--".toList.isPrefixOf property with
  | true => simp
  | false => cases tokens? text <;> simp

end WebFonts.Css
