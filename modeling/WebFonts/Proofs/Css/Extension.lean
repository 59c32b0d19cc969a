import WebFonts.Proofs.Css.Equations

/-! # Texts that go on

A reader that leaves something of a text takes the same from it when more text follows. Where the
text ends in a brace, only items that reach its end can tell the difference. -/

namespace WebFonts.Css

open Text

/-! ## Comments and strings -/

theorem Scan.after_eq_ok_iff {scan : Scan} {front scanned rest : List Char} :
    scan.after front = .ok (scanned, rest) ↔
      ∃ last, scan = .ok (last, rest) ∧ scanned = front ++ last := by
  cases scan with
  | error fault => simp [Scan.after]
  | ok both =>
    obtain ⟨last, behind⟩ := both
    constructor
    · intro h
      rcases Prod.mk.inj (Except.ok.inj h) with ⟨rfl, rfl⟩
      exact ⟨last, rfl, rfl⟩
    · rintro ⟨last, h, rfl⟩
      rcases Prod.mk.inj (Except.ok.inj h) with ⟨rfl, rfl⟩
      rfl

@[simp] theorem Scan.after_nil (scan : Scan) : scan.after [] = scan := by
  cases scan with
  | error fault => simp [Scan.after, utf8Width]
  | ok both => rfl

theorem Scan.after_after (scan : Scan) (front text : List Char) :
    (scan.after text).after front = scan.after (front ++ text) := by
  cases scan with
  | error fault => simp [Scan.after]
  | ok both => simp [Scan.after]

theorem closeComment_append {text scanned rest : List Char}
    (h : closeComment text = some (scanned, rest)) (more : List Char) :
    closeComment (text ++ more) = some (scanned, rest ++ more) := by
  fun_induction closeComment text generalizing scanned with
  | case1 => contradiction
  | case2 last =>
    rcases Prod.mk.inj (Option.some.inj h) with ⟨rfl, rfl⟩
    rfl
  | case3 c text hclose ih =>
    rcases Option.map_eq_some_iff.mp h with ⟨⟨first, last⟩, hlast, he⟩
    rcases Prod.mk.inj he with ⟨rfl, rfl⟩
    have hclose' : ∀ behind, c = '*' → text ++ more = '/' :: behind → False := by
      intro behind hc htext
      cases text with
      | nil => simp [closeComment] at hlast
      | cons d text =>
        rcases List.cons.inj htext with ⟨rfl, -⟩
        exact hclose text hc rfl
    rw [List.cons_append, closeComment, ih hlast]
    · rfl
    · exact hclose'

theorem comment_append {body scanned rest : List Char} (h : comment body = .ok (scanned, rest))
    (more : List Char) : comment (body ++ more) = .ok (scanned, rest ++ more) := by
  cases hbody : closeComment body with
  | none => simp [comment, hbody] at h
  | some both =>
    simp only [comment, hbody, Except.ok.injEq, Prod.mk.injEq] at h
    obtain ⟨rfl, rfl⟩ := h
    simp [comment, closeComment_append hbody more]

theorem ne_backslash_of_not_escape {c : Char} {text : List Char}
    (hlone : c = '\\' → text = [] → False)
    (hescape : ∀ d rest, c = '\\' → text = d :: rest → False) : c ≠ '\\' := by
  intro hc
  cases text with
  | nil => exact hlone hc rfl
  | cons d rest => exact hescape d rest hc rfl

theorem closeString_append {quote : Char} {text scanned rest : List Char}
    (h : closeString quote text = .ok (scanned, rest)) (more : List Char) :
    closeString quote (text ++ more) = .ok (scanned, rest ++ more) := by
  fun_induction closeString quote text generalizing scanned with
  | case1 => contradiction
  | case2 => contradiction
  | case3 c text ih =>
    rcases Scan.after_eq_ok_iff.mp h with ⟨last, hlast, rfl⟩
    rw [List.cons_append, List.cons_append, closeString, ih hlast]
    rfl
  | case4 text hlone hescape =>
    have hc : quote ≠ '\\' := ne_backslash_of_not_escape hlone hescape
    rcases Prod.mk.inj (Except.ok.inj h) with ⟨rfl, rfl⟩
    rw [List.cons_append, closeString_cons hc, if_pos rfl]
  | case5 => contradiction
  | case6 c text hlone hescape hquote hline ih =>
    have hc : c ≠ '\\' := ne_backslash_of_not_escape hlone hescape
    rcases Scan.after_eq_ok_iff.mp h with ⟨last, hlast, rfl⟩
    rw [List.cons_append, closeString_cons hc, if_neg hquote, if_neg hline, ih hlast]
    rfl

/-! ## Stretches -/

theorem unit_append {c : Char} {text scanned rest : List Char}
    (h : unit c text = .ok (scanned, rest)) (hrest : rest ≠ []) (more : List Char) :
    unit c (text ++ more) = .ok (scanned, rest ++ more) := by
  unfold unit at h ⊢
  by_cases hquote : isQuote c = true
  · rw [if_pos hquote] at h ⊢
    rcases Scan.after_eq_ok_iff.mp h with ⟨last, hlast, rfl⟩
    exact Scan.after_eq_ok_iff.mpr ⟨last, closeString_append hlast more, rfl⟩
  · rw [if_neg hquote] at h ⊢
    by_cases hc : c = '\\'
    · rw [if_pos hc] at h ⊢
      rcases Prod.mk.inj (Except.ok.inj h) with ⟨rfl, rfl⟩
      cases text with
      | nil => exact (hrest rfl).elim
      | cons d text => rfl
    · rw [if_neg hc] at h ⊢
      rcases Prod.mk.inj (Except.ok.inj h) with ⟨rfl, rfl⟩
      rfl

theorem piece_append {c : Char} {text scanned rest : List Char}
    (h : piece c text = .ok (scanned, rest)) (hrest : rest ≠ []) (more : List Char) :
    piece c (text ++ more) = .ok (scanned, rest ++ more) := by
  by_cases hcomment : ∃ body, c = '/' ∧ text = '*' :: body
  · obtain ⟨body, rfl, rfl⟩ := hcomment
    exact comment_append h more
  · have hunit : ∀ behind, (∃ body, c = '/' ∧ behind = '*' :: body) ∨
        piece c behind = unit c behind := by
      intro behind
      unfold piece
      split
      · exact .inl ⟨_, rfl, rfl⟩
      · exact .inr rfl
    have htext := (hunit text).resolve_left hcomment
    rw [htext] at h
    refine ((hunit (text ++ more)).resolve_left ?_).trans (unit_append h hrest more)
    rintro ⟨body, rfl, hbody⟩
    cases text with
    | nil =>
      rcases Prod.mk.inj (Except.ok.inj h) with ⟨rfl, rfl⟩
      exact hrest rfl
    | cons d text =>
      rcases List.cons.inj hbody with ⟨rfl, -⟩
      exact hcomment ⟨text, rfl, rfl⟩

theorem stretch_append {closers text scanned rest : List Char}
    (h : stretch closers text = .ok (scanned, rest)) (hrest : rest ≠ []) (more : List Char) :
    stretch closers (text ++ more) = .ok (scanned, rest ++ more) := by
  fun_induction stretch closers text generalizing scanned with
  | case1 =>
    rcases Prod.mk.inj (Except.ok.inj h) with ⟨-, rfl⟩
    exact (hrest rfl).elim
  | case2 closers c text hends =>
    rcases Prod.mk.inj (Except.ok.inj h) with ⟨rfl, rfl⟩
    exact stretch_of_ends hends
  | case3 => contradiction
  | case4 closers c text hends front behind hpiece ih =>
    rcases Scan.after_eq_ok_iff.mp h with ⟨last, hlast, rfl⟩
    have hbehind : behind ≠ [] := by
      rintro rfl
      rw [stretch_nil] at hlast
      rcases Prod.mk.inj (Except.ok.inj hlast) with ⟨-, rfl⟩
      exact hrest rfl
    rw [List.cons_append, stretch_of_piece (Bool.eq_false_iff.mpr hends)
      (piece_append hpiece hbehind more), ih hlast]
    rfl

/-! ## Texts that end in a brace -/

/-- The last character of a text is a brace that closes a block. -/
def EndsInBrace (text : List Char) : Prop := text.getLast? = some '}'

theorem EndsInBrace.ne_nil {text : List Char} (h : EndsInBrace text) : text ≠ [] := by
  rintro rfl
  contradiction

theorem EndsInBrace.of_append {front rest : List Char} (h : EndsInBrace (front ++ rest))
    (hrest : rest ≠ []) : EndsInBrace rest := by
  unfold EndsInBrace at h ⊢
  cases hlast : rest.getLast? with
  | none => exact (hrest (List.getLast?_eq_none_iff.mp hlast)).elim
  | some c => rwa [List.getLast?_append, hlast, Option.some_or] at h

theorem EndsInBrace.of_cons {c : Char} {rest : List Char} (h : EndsInBrace (c :: rest))
    (hrest : rest ≠ []) : EndsInBrace rest :=
  @EndsInBrace.of_append [c] rest h hrest

/-! ## White space -/

theorem spacing_of_isSpace {c : Char} (h : isSpace c = true) (between : Bool) (rest : List Char) :
    spacing between (c :: rest) = some (.ok ([c], rest)) := by
  simp only [isSpace, Bool.or_eq_true, beq_iff_eq] at h
  rcases h with ((rfl | rfl) | rfl) | rfl <;> rfl

theorem spacing_append_some {between : Bool} {text scanned rest : List Char}
    (h : spacing between text = some (.ok (scanned, rest))) (more : List Char) :
    spacing between (text ++ more) = some (.ok (scanned, rest ++ more)) := by
  fun_cases spacing between text with
  | case1 body => exact congrArg some (comment_append (Option.some.inj h) more)
  | case2 behind hbetween =>
    rw [spacing, if_pos hbetween] at h
    rcases Prod.mk.inj (Except.ok.inj (Option.some.inj h)) with ⟨rfl, rfl⟩
    simp [spacing, hbetween]
  | case3 => simp_all [spacing]
  | case4 behind hbetween =>
    rw [spacing, if_pos hbetween] at h
    rcases Prod.mk.inj (Except.ok.inj (Option.some.inj h)) with ⟨rfl, rfl⟩
    simp [spacing, hbetween]
  | case5 => simp_all [spacing]
  | case6 c behind _ _ _ hspace =>
    rw [spacing_of_isSpace hspace] at h
    rcases Prod.mk.inj (Except.ok.inj (Option.some.inj h)) with ⟨rfl, rfl⟩
    exact spacing_of_isSpace hspace between _
  | case7 => simp_all [spacing]
  | case8 => simp_all [spacing]

/-- What opens white space stands at its start, and no mark that ends a stretch is part of it. -/
theorem exists_opening_of_spacing {between : Bool} {text : List Char} {read : Scan}
    (h : spacing between text = some read) :
    ∃ run rest, text = run ++ rest ∧ (∀ c ∈ run, endsStretch [] c = false) ∧
      ∀ behind, spacing between (run ++ behind) ≠ none := by
  fun_cases spacing between text with
  | case1 body => exact ⟨['/', '*'], body, rfl, by simp [endsStretch], by simp [spacing]⟩
  | case2 rest hbetween =>
    exact ⟨['<', '!', '-', '-'], rest, rfl, by simp [endsStretch], by simp [spacing, hbetween]⟩
  | case3 => simp_all [spacing]
  | case4 rest hbetween =>
    exact ⟨['-', '-', '>'], rest, rfl, by simp [endsStretch], by simp [spacing, hbetween]⟩
  | case5 => simp_all [spacing]
  | case6 c rest _ _ _ hspace =>
    refine ⟨[c], rest, rfl, ?_, by simp [spacing_of_isSpace hspace]⟩
    intro d hd
    obtain rfl := List.mem_singleton.mp hd
    simp only [isSpace, Bool.or_eq_true, beq_iff_eq] at hspace
    rcases hspace with ((rfl | rfl) | rfl) | rfl <;> rfl
  | case7 => simp_all [spacing]
  | case8 => simp_all [spacing]

theorem EndsInBrace.exists_of_append_eq {text more run rest : List Char} (h : EndsInBrace text)
    (hrun : '}' ∉ run) (he : text ++ more = run ++ rest) : ∃ behind, text = run ++ behind := by
  rcases List.append_eq_append_iff.mp he with ⟨extra, hextra, -⟩ | ⟨behind, hbehind, -⟩
  · have hmem : '}' ∈ run := by
      rw [hextra]
      exact List.mem_append_left _ (List.mem_of_getLast? h)
    exact (hrun hmem).elim
  · exact ⟨behind, hbehind⟩

theorem spacing_append_none {between : Bool} {text : List Char} (hbrace : EndsInBrace text)
    (h : spacing between text = none) (more : List Char) :
    spacing between (text ++ more) = none := by
  cases hmore : spacing between (text ++ more) with
  | none => rfl
  | some read =>
    rcases exists_opening_of_spacing hmore with ⟨run, rest, he, hrun, hopens⟩
    have hnone : '}' ∉ run := fun hmem => absurd (hrun _ hmem) (by decide)
    rcases hbrace.exists_of_append_eq hnone he with ⟨behind, rfl⟩
    exact (hopens behind h).elim

theorem gap_append {between : Bool} {text scanned rest : List Char} (hbrace : EndsInBrace text)
    (h : gap between text = .ok (scanned, rest)) (hrest : rest ≠ []) (more : List Char) :
    gap between (text ++ more) = .ok (scanned, rest ++ more) := by
  fun_induction gap between text generalizing scanned with
  | case1 text hspacing =>
    rcases Prod.mk.inj (Except.ok.inj h) with ⟨rfl, rfl⟩
    exact gap_of_none (spacing_append_none hbrace hspacing more)
  | case2 => contradiction
  | case3 text front behind hspacing ih =>
    rcases Scan.after_eq_ok_iff.mp h with ⟨last, hlast, rfl⟩
    have hbehind : behind ≠ [] := by
      rintro rfl
      rw [gap_of_none (by rfl)] at hlast
      rcases Prod.mk.inj (Except.ok.inj hlast) with ⟨-, rfl⟩
      exact hrest rfl
    rw [← spacing_splits hspacing] at hbrace
    rw [gap_of_some (spacing_append_some hspacing more), ih (hbrace.of_append hbehind) hlast]
    rfl

theorem getLast?_of_closeComment {text scanned rest : List Char}
    (h : closeComment text = some (scanned, rest)) : scanned.getLast? = some '/' := by
  fun_induction closeComment text generalizing scanned with
  | case1 => contradiction
  | case2 last =>
    rcases Prod.mk.inj (Option.some.inj h) with ⟨rfl, -⟩
    rfl
  | case3 c text hclose ih =>
    rcases Option.map_eq_some_iff.mp h with ⟨⟨first, last⟩, hlast, he⟩
    rcases Prod.mk.inj he with ⟨rfl, rfl⟩
    rw [List.getLast?_cons, ih hlast]
    rfl

theorem getLast?_of_comment {body scanned rest : List Char}
    (h : comment body = .ok (scanned, rest)) : scanned.getLast? = some '/' := by
  cases hbody : closeComment body with
  | none => simp [comment, hbody] at h
  | some both =>
    simp only [comment, hbody, Except.ok.injEq, Prod.mk.injEq] at h
    obtain ⟨rfl, rfl⟩ := h
    simp [List.getLast?_cons, getLast?_of_closeComment hbody]

theorem getLast?_of_spacing {between : Bool} {text scanned rest : List Char}
    (h : spacing between text = some (.ok (scanned, rest))) : ¬EndsInBrace scanned := by
  unfold EndsInBrace
  fun_cases spacing between text with
  | case1 body => simp [getLast?_of_comment (Option.some.inj h)]
  | case2 behind hbetween =>
    rw [spacing, if_pos hbetween] at h
    rcases Prod.mk.inj (Except.ok.inj (Option.some.inj h)) with ⟨rfl, -⟩
    decide
  | case3 => simp_all [spacing]
  | case4 behind hbetween =>
    rw [spacing, if_pos hbetween] at h
    rcases Prod.mk.inj (Except.ok.inj (Option.some.inj h)) with ⟨rfl, -⟩
    decide
  | case5 => simp_all [spacing]
  | case6 c behind _ _ _ hspace =>
    rw [spacing_of_isSpace hspace] at h
    rcases Prod.mk.inj (Except.ok.inj (Option.some.inj h)) with ⟨rfl, -⟩
    intro hc
    obtain rfl := Option.some.inj hc
    contradiction
  | case7 => simp_all [spacing]
  | case8 => simp_all [spacing]

/-- White space cannot reach the end of a text that ends in a brace. -/
theorem EndsInBrace.of_gap {between : Bool} {text scanned rest : List Char}
    (hbrace : EndsInBrace text) (h : gap between text = .ok (scanned, rest)) :
    EndsInBrace rest := by
  fun_induction gap between text generalizing scanned with
  | case1 text hspacing =>
    rcases Prod.mk.inj (Except.ok.inj h) with ⟨-, rfl⟩
    exact hbrace
  | case2 => contradiction
  | case3 text front behind hspacing ih =>
    rcases Scan.after_eq_ok_iff.mp h with ⟨last, hlast, -⟩
    rw [← spacing_splits hspacing] at hbrace
    refine ih (hbrace.of_append ?_) hlast
    rintro rfl
    rw [List.append_nil] at hbrace
    exact getLast?_of_spacing hspacing hbrace

/-! ## Names -/

theorem name_append {text : List Char} (hbrace : EndsInBrace text) (hrest : (name text).2 ≠ [])
    (more : List Char) : name (text ++ more) = ((name text).1, (name text).2 ++ more) := by
  fun_induction name text with
  | case1 c text ih =>
    have htext : text ≠ [] := by
      rintro rfl
      exact hrest rfl
    have hlast := (hbrace.of_cons (by simp)).of_cons htext
    simp [name, ih hlast hrest]
  | case2 c text hescape hc ih =>
    have htext : text ≠ [] := by
      rintro rfl
      exact hrest rfl
    have hslash : c ≠ '\\' := by
      rintro rfl
      contradiction
    rw [List.cons_append, name, if_pos hc, ih (hbrace.of_cons htext) hrest]
    exact fun d rest h => absurd h hslash
  | case3 c text hescape hc =>
    have hslash : c ≠ '\\' := by
      rintro rfl
      cases text with
      | nil => simp [EndsInBrace] at hbrace
      | cons d text => exact hescape d text rfl rfl
    rw [List.cons_append, name, if_neg hc]
    exact fun d rest h => absurd h hslash
  | case4 => exact absurd rfl hrest

theorem identifier?_append {text : List Char} (hbrace : EndsInBrace text)
    (hrest : (name text).2 ≠ []) (more : List Char) :
    identifier? (text ++ more) =
      (identifier? text).map fun found => (found.1, found.2 ++ more) := by
  unfold identifier?
  rw [name_append hbrace hrest more]
  split <;> rfl

theorem name_of_identifier? {text run rest : List Char}
    (h : identifier? text = some (run, rest)) : name text = (run, rest) := by
  simp only [identifier?, Option.ite_none_left_eq_some, Option.some.injEq] at h
  exact h.2

theorem ordinary_of_isNameCharacter {c : Char} (h : isNameCharacter c = true) :
    c ∉ ['\\', '/', '"', '\'', '{', '}', '(', '[', ';'] := by
  intro hmem
  simp only [List.mem_cons, List.not_mem_nil, or_false] at hmem
  rcases hmem with rfl | rfl | rfl | rfl | rfl | rfl | rfl | rfl | rfl <;>
    simp [isNameCharacter] at h

theorem piece_of_ordinary {c : Char} (h : c ∉ ['\\', '/', '"', '\'']) (rest : List Char) :
    piece c rest = .ok ([c], rest) := by
  simp only [List.mem_cons, List.not_mem_nil, or_false, not_or] at h
  obtain ⟨hslash, hcomment, hdouble, hsingle⟩ := h
  unfold piece
  split
  · exact (hcomment rfl).elim
  · simp [unit, isQuote, hslash, hdouble, hsingle]

theorem stretch_cons_of_ordinary {c : Char} {closers : List Char}
    (h : c ∉ ['\\', '/', '"', '\'', '{', '}', '(', '[', ';']) (hclosers : closers.head? ≠ some c)
    (rest : List Char) : stretch closers (c :: rest) = (stretch closers rest).after [c] := by
  simp only [List.mem_cons, List.not_mem_nil, or_false, not_or] at h
  obtain ⟨hslash, hcomment, hdouble, hsingle, hopen, hclose, hround, hsquare, hsemicolon⟩ := h
  have hends : endsStretch closers c = false := by
    simp [endsStretch, hopen, hclose, hsemicolon]
  have hafter : closersAfter closers c = closers := by
    simp [closersAfter, hclosers]
  rw [stretch_of_piece hends (piece_of_ordinary (by simp_all) rest), hafter]

/-- Names belong to the stretch of text that they start. -/
theorem stretch_eq_after_name (text : List Char) :
    stretch [] text = (stretch [] (name text).2).after (name text).1 := by
  fun_induction name text with
  | case1 c text ih =>
    have hescape : stretch [] ('\\' :: c :: text) = (stretch [] text).after ['\\', c] :=
      stretch_of_piece rfl rfl
    rw [hescape, ih, Scan.after_after]
    rfl
  | case2 c text hescape hc ih =>
    rw [stretch_cons_of_ordinary (ordinary_of_isNameCharacter hc) (by simp), ih, Scan.after_after]
    rfl
  | case3 c text => exact (Scan.after_nil _).symm
  | case4 => exact (Scan.after_nil _).symm

/-! ## Items -/

/-- The same reading with more text behind it. -/
def Item.Reading.extend (reading : Item.Reading) (more : List Char) : Item.Reading :=
  { reading with rest := reading.rest ++ more }

theorem Item.ending_append (leaf : Option Leaf) (head : Option Head) (scanned : List Char)
    {text : List Char} (htext : text ≠ []) (more : List Char) :
    Item.ending leaf head scanned (text ++ more) =
      (Item.ending leaf head scanned text).extend more := by
  cases text with
  | nil => exact (htext rfl).elim
  | cons c text =>
    rw [List.cons_append]
    unfold Item.ending
    split <;> simp_all [Item.Reading.extend]

theorem Item.ne_nil_of_ending {leaf : Option Leaf} {head : Option Head} {scanned text : List Char}
    (h : (Item.ending leaf head scanned text).rest ≠ []) : text ≠ [] := by
  rintro rfl
  exact h rfl

theorem stretch_of_name_nil {text : List Char} (h : (name text).2 = []) :
    stretch [] text = .ok (text, []) := by
  have hsplit := name_split text
  rw [h, List.append_nil] at hsplit
  rw [stretch_eq_after_name, h, hsplit, stretch_nil]
  simp [Scan.after]

theorem ruleStart_append {text : List Char} (hbrace : EndsInBrace text)
    (hname : ∀ behind, text = '@' :: behind → (name behind).2 ≠ []) (more : List Char) :
    ruleStart (text ++ more) =
      { ruleStart text with rest := (ruleStart text).rest ++ more } := by
  cases text with
  | nil => exact (hbrace.ne_nil rfl).elim
  | cons c text =>
    by_cases hat : c = '@'
    · subst hat
      have htext : EndsInBrace text := by
        refine hbrace.of_cons ?_
        rintro rfl
        simp [EndsInBrace] at hbrace
      have hfound := identifier?_append htext (hname text rfl) more
      rw [List.cons_append]
      cases hword : identifier? text <;> simp [ruleStart, hfound, hword]
    · simp [ruleStart, hat]

/-- An at-rule whose name reaches the end of a text takes all of it. -/
theorem ruleStart_exhausts {behind written last : List Char} (h : (name behind).2 = [])
    (hstretch : stretch [] (ruleStart ('@' :: behind)).rest = .ok (written, last)) :
    last = [] := by
  cases hfound : identifier? behind with
  | none =>
    simp only [ruleStart, hfound, stretch_of_name_nil h] at hstretch
    exact (Prod.mk.inj (Except.ok.inj hstretch)).2.symm
  | some both =>
    have hrest : both.2 = [] := by
      rw [name_of_identifier? hfound] at h
      exact h
    simp only [ruleStart, hfound, hrest, stretch_nil] at hstretch
    exact (Prod.mk.inj (Except.ok.inj hstretch)).2.symm

/-- A rule that leaves something of a text leaves something behind the name that the text starts
with. -/
theorem rule_leaves_name {text : List Char} {reading : Item.Reading}
    (h : rule text = .ok reading) (hrest : reading.rest ≠ []) : (name text).2 ≠ [] := by
  intro hnil
  have hat : text.head? ≠ some '@' := by
    intro hat
    rcases List.head?_eq_some_iff.mp hat with ⟨behind, rfl⟩
    simp [name, isNameCharacter] at hnil
  have hstart : (ruleStart text).rest = text := by
    cases text with
    | nil => rfl
    | cons c text =>
      have hc : c ≠ '@' := fun hc => hat (congrArg some hc)
      simp [ruleStart, hc]
  rw [rule_eq, hstart, stretch_of_name_nil hnil] at h
  obtain rfl := Except.ok.inj h
  exact hrest rfl

theorem rule_append {text : List Char} {reading : Item.Reading} (hbrace : EndsInBrace text)
    (h : rule text = .ok reading) (hrest : reading.rest ≠ []) (more : List Char) :
    rule (text ++ more) = .ok (reading.extend more) := by
  rw [rule_eq] at h
  cases hstretch : stretch [] (ruleStart text).rest with
  | error fault => simp [hstretch] at h
  | ok both =>
    obtain ⟨written, last⟩ := both
    simp only [hstretch, Except.ok.injEq] at h
    subst h
    have hlast := Item.ne_nil_of_ending hrest
    have hname : ∀ behind, text = '@' :: behind → (name behind).2 ≠ [] := by
      rintro behind rfl hnil
      exact hlast (ruleStart_exhausts hnil hstretch)
    rw [rule_eq, ruleStart_append hbrace hname more]
    simp only [stretch_append hstretch hlast more, Item.ending_append _ _ _ hlast more]

theorem declaration?_append_some {text : List Char} {reading : Item.Reading}
    (hbrace : EndsInBrace text) (h : declaration? text = .ok (some reading))
    (hrest : reading.rest ≠ []) (more : List Char) :
    declaration? (text ++ more) = .ok (some (reading.extend more)) := by
  obtain ⟨word, rest, blank, behind, written, last, hword, hgap, hstretch, hblock, rfl⟩ :=
    exists_colon_of_declaration? h
  have hlast := Item.ne_nil_of_ending hrest
  have hname := name_of_identifier? hword
  have hne : rest ≠ [] := by
    rintro rfl
    simp at hgap
  have hword' := identifier?_append hbrace (by rwa [hname]) more
  rw [hword] at hword'
  have hsplit := (identifier?_split hword).1
  rw [← hsplit] at hbrace
  have hgap' := gap_append (hbrace.of_append hne) hgap (by simp) more
  have hblock' : (last ++ more).head? ≠ some '{' := by
    cases last with
    | nil => exact (hlast rfl).elim
    | cons c last => exact hblock
  rw [declaration?_of_colon hword' hgap' (stretch_append hstretch hlast more) hblock',
    Item.ending_append _ _ _ hlast more]

theorem declaration?_append_none {text : List Char} (hbrace : EndsInBrace text)
    (h : declaration? text = .ok none) (hne : (name text).2 ≠ []) (more : List Char) :
    declaration? (text ++ more) = .ok none := by
  have hword' := identifier?_append hbrace hne more
  cases hword : identifier? text with
  | none =>
    rw [hword] at hword'
    exact declaration?_of_no_word hword'
  | some both =>
    obtain ⟨word, rest⟩ := both
    rw [name_of_identifier? hword] at hne
    rw [hword] at hword'
    have hsplit := (identifier?_split hword).1
    rw [← hsplit] at hbrace
    have hrest : EndsInBrace rest := hbrace.of_append hne
    cases hgap : gap false rest with
    | error fault => simp [declaration?, hword, hgap, Scan.after] at h
    | ok both =>
      obtain ⟨blank, behind⟩ := both
      have hbehind : behind ≠ [] := (hrest.of_gap hgap).ne_nil
      have hgap' := gap_append hrest hgap hbehind more
      by_cases hcolon : behind.head? = some ':'
      · rcases List.head?_eq_some_iff.mp hcolon with ⟨behind, rfl⟩
        cases hstretch : stretch [] behind with
        | error fault => simp [declaration?, hword, hgap, Scan.after, hstretch] at h
        | ok both =>
          obtain ⟨written, last⟩ := both
          by_cases hblock : last.head? = some '{'
          · rcases List.head?_eq_some_iff.mp hblock with ⟨last, rfl⟩
            have hstretch' := stretch_append hstretch (by simp) more
            exact declaration?_of_block hword' hgap' hstretch'
          · simp [declaration?_of_colon hword hgap hstretch hblock] at h
      · refine declaration?_of_no_colon hword' hgap' ?_
        cases behind with
        | nil => exact (hbehind rfl).elim
        | cons c behind => exact hcolon

theorem Item.read_append {inBlock : Bool} {text : List Char} {reading : Item.Reading}
    (hbrace : EndsInBrace text) (h : Item.read inBlock text = .ok reading)
    (hrest : reading.rest ≠ []) (more : List Char) :
    Item.read inBlock (text ++ more) = .ok (reading.extend more) := by
  unfold Item.read at h ⊢
  cases inBlock with
  | false => exact rule_append hbrace h hrest more
  | true =>
    simp only [↓reduceIte] at h ⊢
    cases hdeclaration : declaration? text with
    | error fault => simp [hdeclaration] at h
    | ok found =>
      cases found with
      | some found =>
        simp only [hdeclaration, Except.ok.injEq] at h
        subst h
        rw [declaration?_append_some hbrace hdeclaration hrest more]
      | none =>
        simp only [hdeclaration] at h
        rw [declaration?_append_none hbrace hdeclaration (rule_leaves_name h hrest) more]
        exact rule_append hbrace h hrest more

/-! ## What items take -/

/-- What an item was read from and what follows make up the text, with the brace that opens a
block between them. -/
def Item.Reading.Splits (reading : Item.Reading) (text : List Char) : Prop :=
  match reading.item with
  | .whole _ => text = reading.scanned ++ reading.rest
  | .opening _ => text = reading.scanned ++ '{' :: reading.rest

theorem Item.ending_splits (leaf : Option Leaf) (head : Option Head) (scanned text : List Char) :
    (Item.ending leaf head scanned text).Splits (scanned ++ text) := by
  by_cases hbrace : text.head? = some '{'
  · rcases List.head?_eq_some_iff.mp hbrace with ⟨rest, rfl⟩
    exact rfl
  · by_cases hsemicolon : text.head? = some ';'
    · rcases List.head?_eq_some_iff.mp hsemicolon with ⟨rest, rfl⟩
      exact (List.append_cons scanned ';' rest).symm ▸ rfl
    · rw [Item.ending_of_ne leaf head scanned hbrace hsemicolon]
      exact rfl

theorem declaration?_splits {text : List Char} {reading : Item.Reading}
    (h : declaration? text = .ok (some reading)) : reading.Splits text := by
  obtain ⟨word, rest, blank, behind, written, last, hword, hgap, hstretch, -, rfl⟩ :=
    exists_colon_of_declaration? h
  have htext : text = word ++ blank ++ ':' :: written ++ last := by
    rw [← (identifier?_split hword).1, ← gap_splits false rest _ _ hgap,
      ← stretch_splits [] behind _ _ hstretch]
    simp
  rw [htext]
  exact Item.ending_splits _ _ _ _

theorem rule_splits {text : List Char} {reading : Item.Reading} (h : rule text = .ok reading) :
    reading.Splits text := by
  rw [rule_eq] at h
  cases hstretch : stretch [] (ruleStart text).rest with
  | error fault => simp [hstretch] at h
  | ok both =>
    obtain ⟨written, last⟩ := both
    simp only [hstretch, Except.ok.injEq] at h
    have htext : text = (ruleStart text).front ++ written ++ last := by
      rw [List.append_assoc, stretch_splits [] _ _ _ hstretch, ruleStart_splits]
    have hending := Item.ending_splits ((ruleStart text).leaf written)
      ((ruleStart text).head written) ((ruleStart text).front ++ written) last
    rw [← htext, h] at hending
    exact hending

theorem Item.read_splits {inBlock : Bool} {text : List Char} {reading : Item.Reading}
    (h : Item.read inBlock text = .ok reading) : reading.Splits text := by
  unfold Item.read at h
  split at h
  · split at h
    · contradiction
    · rename_i found hfound
      obtain rfl := Except.ok.inj h
      exact declaration?_splits hfound
    · exact rule_splits h
  · exact rule_splits h

end WebFonts.Css
