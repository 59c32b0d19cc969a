import WebFonts.Proofs.Css.Extension

/-! # Where readers stop

A reader depends on the text up to the character that stops it. Behind that character, or in place
of the end of the text, anything may stand. -/

namespace WebFonts.Css

open Text

/-- Behind a run, another text stops a reader as the rest did: it starts alike, or it starts with a
brace where nothing was left and the run cannot escape it. -/
def StopsAlike (run rest rest' : List Char) : Prop :=
  rest ≠ [] ∧ rest'.head? = rest.head? ∨
    rest = [] ∧ run.getLast? ≠ some '\\' ∧ rest'.head? = some '}'

theorem StopsAlike.of_append {front run rest rest' : List Char}
    (h : StopsAlike (front ++ run) rest rest') : StopsAlike run rest rest' := by
  rcases h with h | ⟨hrest, hslash, hbrace⟩
  · exact .inl h
  · refine .inr ⟨hrest, ?_, hbrace⟩
    intro hlast
    rw [List.getLast?_append, hlast, Option.some_or] at hslash
    exact hslash rfl

/-- Only a brace can stand first behind a run where it did not before. -/
theorem StopsAlike.head?_eq {run rest rest' : List Char} (h : StopsAlike run rest rest') {c : Char}
    (hc : c ≠ '}') (hhead : (run ++ rest').head? = some c) : (run ++ rest).head? = some c := by
  cases run with
  | cons d run => exact hhead
  | nil =>
    rw [List.nil_append] at hhead ⊢
    rcases h with ⟨-, he⟩ | ⟨-, -, hbrace⟩
    · rwa [← he]
    · rw [hbrace] at hhead
      exact (hc (Option.some.inj hhead).symm).elim

/-! ## Comments and strings -/

theorem closeComment_behind {text scanned rest : List Char}
    (h : closeComment text = some (scanned, rest)) (rest' : List Char) :
    closeComment (scanned ++ rest') = some (scanned, rest') := by
  fun_induction closeComment text generalizing scanned with
  | case1 => contradiction
  | case2 =>
    obtain ⟨rfl, -⟩ := Prod.mk.inj (Option.some.inj h)
    rfl
  | case3 c text hclose ih =>
    obtain ⟨⟨first, last⟩, hlast, he⟩ := Option.map_eq_some_iff.mp h
    obtain ⟨rfl, rfl⟩ := Prod.mk.inj he
    rw [List.cons_append, closeComment, ih hlast]
    · rfl
    · intro behind hc hbehind
      cases first with
      | nil =>
        have hslash := getLast?_of_closeComment hlast
        contradiction
      | cons d first =>
        obtain ⟨rfl, -⟩ := List.cons.inj hbehind
        exact hclose _ hc (closeComment_splits hlast).symm

theorem comment_behind {body scanned rest : List Char} (h : comment body = .ok (scanned, rest)) :
    ∃ tail, scanned = '/' :: '*' :: tail ∧
      ∀ rest', comment (tail ++ rest') = .ok (scanned, rest') := by
  cases hbody : closeComment body with
  | none => simp [comment, hbody] at h
  | some both =>
    obtain ⟨tail, behind⟩ := both
    simp only [comment, hbody, Except.ok.injEq, Prod.mk.injEq] at h
    obtain ⟨rfl, rfl⟩ := h
    refine ⟨tail, rfl, ?_⟩
    intro rest'
    rw [comment, closeComment_behind hbody rest']

theorem closeString_behind {quote : Char} {text scanned rest : List Char}
    (h : closeString quote text = .ok (scanned, rest)) (rest' : List Char) :
    closeString quote (scanned ++ rest') = .ok (scanned, rest') := by
  fun_induction closeString quote text generalizing scanned with
  | case1 => contradiction
  | case2 => contradiction
  | case3 c text ih =>
    obtain ⟨last, hlast, rfl⟩ := Scan.after_eq_ok_iff.mp h
    rw [List.append_assoc, List.cons_append, List.cons_append, List.nil_append, closeString,
      ih hlast]
    rfl
  | case4 text hlone hescape =>
    have hc : quote ≠ '\\' := ne_backslash_of_not_escape hlone hescape
    obtain ⟨rfl, rfl⟩ := Prod.mk.inj (Except.ok.inj h)
    rw [List.cons_append, List.nil_append, closeString_cons hc, if_pos rfl]
  | case5 => contradiction
  | case6 c text hlone hescape hquote hline ih =>
    have hc : c ≠ '\\' := ne_backslash_of_not_escape hlone hescape
    obtain ⟨last, hlast, rfl⟩ := Scan.after_eq_ok_iff.mp h
    rw [List.append_assoc, List.cons_append, List.nil_append, closeString_cons hc,
      if_neg hquote, if_neg hline, ih hlast]
    rfl

theorem unit_behind {c : Char} {text scanned rest : List Char}
    (h : unit c text = .ok (scanned, rest)) (hslash : scanned ≠ ['\\']) :
    ∃ tail, scanned = c :: tail ∧ ∀ rest', unit c (tail ++ rest') = .ok (scanned, rest') := by
  unfold unit at h ⊢
  by_cases hquote : isQuote c = true
  · simp only [hquote, ↓reduceIte] at h ⊢
    obtain ⟨tail, htail, rfl⟩ := Scan.after_eq_ok_iff.mp h
    refine ⟨tail, rfl, ?_⟩
    intro rest'
    rw [closeString_behind htail rest']
    rfl
  · simp only [hquote, Bool.false_eq_true, ↓reduceIte] at h ⊢
    by_cases hc : c = '\\'
    · simp only [hc, ↓reduceIte, Except.ok.injEq, Prod.mk.injEq] at h ⊢
      obtain ⟨rfl, rfl⟩ := h
      cases text with
      | nil => contradiction
      | cons d text => exact ⟨[d], rfl, fun rest' => ⟨rfl, rfl⟩⟩
    · simp only [hc, ↓reduceIte, Except.ok.injEq, Prod.mk.injEq] at h ⊢
      obtain ⟨rfl, rfl⟩ := h
      exact ⟨[], rfl, fun rest' => ⟨rfl, rfl⟩⟩

/-- A piece is a comment, or it is a unit because no star follows a slash. -/
theorem piece_behind {c : Char} {text scanned rest : List Char}
    (h : piece c text = .ok (scanned, rest)) (hslash : scanned ≠ ['\\']) :
    ∃ tail, scanned = c :: tail ∧ ∀ rest',
      (rest.head? ≠ some '*' → rest'.head? ≠ some '*') →
        piece c (tail ++ rest') = .ok (scanned, rest') := by
  by_cases hcomment : c = '/' ∧ text.head? = some '*'
  · obtain ⟨rfl, hstar⟩ := hcomment
    obtain ⟨body, rfl⟩ := List.head?_eq_some_iff.mp hstar
    obtain ⟨tail, rfl, hbehind⟩ := comment_behind h
    exact ⟨'*' :: tail, rfl, fun rest' _ => hbehind rest'⟩
  · rw [piece_eq_unit hcomment] at h
    obtain ⟨tail, rfl, hbehind⟩ := unit_behind h hslash
    refine ⟨tail, rfl, ?_⟩
    intro rest' hstar
    rw [piece_eq_unit, hbehind]
    rintro ⟨rfl, hhead⟩
    have htext := unit_splits _ _ _ _ h
    have htail : tail = [] := by
      have hone := hbehind []
      simp only [unit, isQuote, Char.reduceBEq, Bool.or_self, Bool.false_eq_true, ↓reduceIte,
        Char.reduceEq, List.append_nil, Except.ok.injEq, Prod.mk.injEq, List.cons.injEq] at hone
      exact hone.2
    subst htail
    refine hstar ?_ hhead
    intro hrest
    obtain rfl : rest = text := (List.cons.inj htext).2
    exact hcomment ⟨rfl, hrest⟩

/-- Only at the end of a text does a backslash stand alone. -/
theorem nil_of_piece_backslash {c : Char} {text rest : List Char}
    (h : piece c text = .ok (['\\'], rest)) : rest = [] := by
  obtain ⟨rfl, rfl⟩ := List.cons.inj (piece_splits c text _ _ h)
  cases rest with
  | nil => rfl
  | cons d rest =>
    have hescape : piece '\\' (d :: rest) = .ok (['\\', d], rest) := rfl
    simp [hescape] at h

/-! ## Stretches -/

theorem stretch_behind {closers text run rest : List Char}
    (h : stretch closers text = .ok (run, rest)) {rest' : List Char}
    (hstops : StopsAlike run rest rest') :
    stretch closers (run ++ rest') = .ok (run, rest') := by
  fun_induction stretch closers text generalizing run with
  | case1 =>
    obtain ⟨rfl, rfl⟩ := Prod.mk.inj (Except.ok.inj h)
    rcases hstops with ⟨hne, -⟩ | ⟨-, -, hbrace⟩
    · contradiction
    · obtain ⟨behind, rfl⟩ := List.head?_eq_some_iff.mp hbrace
      exact stretch_of_ends rfl
  | case2 closers c text hends =>
    obtain ⟨rfl, rfl⟩ := Prod.mk.inj (Except.ok.inj h)
    rcases hstops with ⟨-, hhead⟩ | ⟨hnil, -⟩
    · obtain ⟨behind, rfl⟩ := List.head?_eq_some_iff.mp hhead
      exact stretch_of_ends hends
    · contradiction
  | case3 => contradiction
  | case4 closers c text hends front behind hpiece ih =>
    obtain ⟨last, hlast, rfl⟩ := Scan.after_eq_ok_iff.mp h
    have hbehind := stretch_splits _ _ _ _ hlast
    have hslash : front ≠ ['\\'] := by
      rintro rfl
      obtain rfl := nil_of_piece_backslash hpiece
      obtain ⟨rfl, rfl⟩ := List.append_eq_nil_iff.mp hbehind
      rcases hstops with ⟨hne, -⟩ | ⟨-, hescape, -⟩
      · exact hne rfl
      · exact hescape rfl
    obtain ⟨tail, rfl, htail⟩ := piece_behind hpiece hslash
    have hstar : behind.head? ≠ some '*' → (last ++ rest').head? ≠ some '*' := by
      rw [← hbehind]
      exact mt (hstops.of_append.head?_eq (by decide))
    rw [List.append_assoc, List.cons_append, stretch_of_piece (Bool.eq_false_iff.mpr hends)
      (htail _ hstar), ih hlast hstops.of_append]
    rfl

/-- A stretch stops at a brace, at a semicolon, or at the end of the text. -/
theorem stretch_stops_at {closers text run rest : List Char}
    (h : stretch closers text = .ok (run, rest)) :
    rest.head? = none ∨ rest.head? = some '{' ∨ rest.head? = some '}' ∨ rest.head? = some ';' := by
  fun_induction stretch closers text generalizing run with
  | case1 =>
    obtain ⟨-, rfl⟩ := Prod.mk.inj (Except.ok.inj h)
    exact .inl rfl
  | case2 closers c text hends =>
    obtain ⟨-, rfl⟩ := Prod.mk.inj (Except.ok.inj h)
    simp only [endsStretch, Bool.or_eq_true, Bool.and_eq_true, beq_iff_eq] at hends
    rcases hends with (rfl | rfl) | ⟨rfl, -⟩
    · exact .inr (.inl rfl)
    · exact .inr (.inr (.inl rfl))
    · exact .inr (.inr (.inr rfl))
  | case3 => contradiction
  | case4 closers c text hends front behind hpiece ih =>
    obtain ⟨last, hlast, -⟩ := Scan.after_eq_ok_iff.mp h
    exact ih hlast

/-! ## Names and white space -/

theorem name_behind {text run rest rest' : List Char} (h : name text = (run, rest))
    (hrest' : name rest' = ([], rest')) : name (run ++ rest') = (run, rest') := by
  fun_induction name text generalizing run with
  | case1 c text ih =>
    obtain ⟨rfl, rfl⟩ := Prod.mk.inj h
    have hlast := ih rfl
    simp only [List.cons_append, name, hlast]
  | case2 c text hescape hc ih =>
    obtain ⟨rfl, rfl⟩ := Prod.mk.inj h
    have hlast := ih rfl
    have hslash : c ≠ '\\' := by
      rintro rfl
      contradiction
    rw [List.cons_append, name, if_pos hc, hlast]
    exact fun d behind he => absurd he hslash
  | case3 =>
    obtain ⟨rfl, -⟩ := Prod.mk.inj h
    exact hrest'
  | case4 =>
    obtain ⟨rfl, -⟩ := Prod.mk.inj h
    exact hrest'

theorem name_snd (text : List Char) : name (name text).2 = ([], (name text).2) := by
  fun_induction name text with
  | case1 c text ih => exact ih
  | case2 c text _ hc ih => exact ih
  | case3 c text hescape hc =>
    rw [name, if_neg hc]
    exact hescape
  | case4 => rfl

/-- What follows a name starts with no character of a name, and with a backslash only if that is
all. -/
theorem head?_of_name_nil {text : List Char} (h : name text = ([], text)) (hslash : text ≠ ['\\'])
    {c : Char} (hc : isNameCharacter c = true ∨ c = '\\') : text.head? ≠ some c := by
  intro hhead
  obtain ⟨rest, rfl⟩ := List.head?_eq_some_iff.mp hhead
  by_cases hescape : c = '\\'
  · subst hescape
    cases rest with
    | nil => exact hslash rfl
    | cons d rest => simp [name] at h
  · have hname := hc.resolve_right hescape
    rw [name, if_pos hname] at h
    · simp at h
    · exact fun d behind he => absurd he hescape

theorem name_nil_of_head? {text : List Char}
    (h : ∀ c, isNameCharacter c = true ∨ c = '\\' → text.head? ≠ some c) :
    name text = ([], text) := by
  cases text with
  | nil => rfl
  | cons c rest =>
    have hname : isNameCharacter c ≠ true := fun hc => h c (.inl hc) rfl
    have hslash : c ≠ '\\' := fun hc => h c (.inr hc) rfl
    rw [name, if_neg hname]
    exact fun d behind he => absurd he hslash

/-- A name ends in the same place if what follows it stops a stretch alike. -/
theorem name_stretch_behind {text run rest written last last' : List Char}
    (h : name text = (run, rest)) (hstretch : stretch [] rest = .ok (written, last))
    (hstops : StopsAlike written last last') :
    name (run ++ (written ++ last')) = (run, written ++ last') := by
  apply name_behind h
  apply name_nil_of_head?
  intro c hc
  have hrest : name rest = ([], rest) := by
    have hsnd := name_snd text
    rwa [h] at hsnd
  have hslash : rest ≠ ['\\'] := by
    rintro rfl
    have hlone : stretch [] ['\\'] = .ok (['\\'], []) := by
      have hpiece : piece '\\' [] = .ok (['\\'], []) := rfl
      rw [stretch_of_piece rfl hpiece, stretch_nil]
      rfl
    obtain ⟨rfl, rfl⟩ := Prod.mk.inj (Except.ok.inj (hlone.symm.trans hstretch))
    rcases hstops with ⟨hne, -⟩ | ⟨-, hescape, -⟩
    · exact hne rfl
    · exact hescape rfl
  intro hhead
  have hbrace : c ≠ '}' := by
    rintro rfl
    rcases hc with hc | hc <;> contradiction
  have hfirst := hstops.head?_eq hbrace hhead
  rw [stretch_splits [] rest _ _ hstretch] at hfirst
  exact head?_of_name_nil hrest hslash hc hfirst

theorem spacing_behind {between : Bool} {text scanned rest : List Char}
    (h : spacing between text = some (.ok (scanned, rest))) (rest' : List Char) :
    spacing between (scanned ++ rest') = some (.ok (scanned, rest')) := by
  fun_cases spacing between text with
  | case1 body =>
    obtain ⟨tail, rfl, hbehind⟩ := comment_behind (Option.some.inj h)
    exact congrArg some (hbehind rest')
  | case2 behind hbetween =>
    rw [spacing, if_pos hbetween] at h
    obtain ⟨rfl, -⟩ := Prod.mk.inj (Except.ok.inj (Option.some.inj h))
    simp [spacing, hbetween]
  | case3 => simp_all [spacing]
  | case4 behind hbetween =>
    rw [spacing, if_pos hbetween] at h
    obtain ⟨rfl, -⟩ := Prod.mk.inj (Except.ok.inj (Option.some.inj h))
    simp [spacing, hbetween]
  | case5 => simp_all [spacing]
  | case6 c behind _ _ _ hspace =>
    rw [spacing_of_isSpace hspace] at h
    obtain ⟨rfl, -⟩ := Prod.mk.inj (Except.ok.inj (Option.some.inj h))
    exact spacing_of_isSpace hspace between _
  | case7 => simp_all [spacing]
  | case8 => simp_all [spacing]

theorem gap_behind {between : Bool} {text blank rest rest' : List Char}
    (h : gap between text = .ok (blank, rest)) (hrest' : spacing between rest' = none) :
    gap between (blank ++ rest') = .ok (blank, rest') := by
  fun_induction gap between text generalizing blank with
  | case1 text hspacing =>
    obtain ⟨rfl, -⟩ := Prod.mk.inj (Except.ok.inj h)
    exact gap_of_none hrest'
  | case2 => contradiction
  | case3 text front behind hspacing ih =>
    obtain ⟨last, hlast, rfl⟩ := Scan.after_eq_ok_iff.mp h
    rw [List.append_assoc, gap_of_some (spacing_behind hspacing _), ih hlast]
    rfl

/-- What follows white space does not start with more of it. -/
theorem spacing_of_gap {between : Bool} {text blank rest : List Char}
    (h : gap between text = .ok (blank, rest)) : spacing between rest = none := by
  fun_induction gap between text generalizing blank with
  | case1 text hspacing =>
    obtain ⟨-, rfl⟩ := Prod.mk.inj (Except.ok.inj h)
    exact hspacing
  | case2 => contradiction
  | case3 text front behind hspacing ih =>
    obtain ⟨last, hlast, -⟩ := Scan.after_eq_ok_iff.mp h
    exact ih hlast

/-- Inside of a block, white space starts with a space or with the opening of a comment. -/
theorem spacing_eq_none_iff {text : List Char} :
    spacing false text = none ↔
      (∀ c, isSpace c = true → text.head? ≠ some c) ∧ ¬['/', '*'] <+: text := by
  constructor
  · intro h
    constructor
    · intro c hc hhead
      obtain ⟨rest, rfl⟩ := List.head?_eq_some_iff.mp hhead
      rw [spacing_of_isSpace hc] at h
      contradiction
    · rintro ⟨rest, rfl⟩
      contradiction
  · rintro ⟨hspace, hcomment⟩
    fun_cases spacing false text with
    | case1 body => exact (hcomment ⟨body, rfl⟩).elim
    | case2 => contradiction
    | case3 => rfl
    | case4 => contradiction
    | case5 => rfl
    | case6 c rest _ _ _ hc => exact (hspace c hc rfl).elim
    | case7 => simp_all
    | case8 => rfl

/-- Whether white space starts a text is told by its first two characters. -/
theorem spacing_none_behind {run rest rest' : List Char} (h : spacing false (run ++ rest) = none)
    (hhead : rest'.head? = rest.head? ∨ rest'.head? = some '}')
    (hrun : run ≠ [] ∨ rest.head? ≠ some '/') : spacing false (run ++ rest') = none := by
  obtain ⟨hspace, hcomment⟩ := spacing_eq_none_iff.mp h
  have hsame : ∀ c, c ≠ '}' → rest'.head? = some c → rest.head? = some c := by
    intro c hc he
    rcases hhead with hhead | hbrace
    · rw [← hhead, he]
    · rw [hbrace] at he
      exact (hc (Option.some.inj he).symm).elim
  apply spacing_eq_none_iff.mpr
  cases run with
  | nil =>
    have hslash := hrun.resolve_left (fun hne => hne rfl)
    constructor
    · intro c hc he
      have hbrace : c ≠ '}' := by
        rintro rfl
        contradiction
      exact hspace c hc (hsame c hbrace he)
    · rintro ⟨behind, rfl⟩
      exact hslash (hsame '/' (by decide) rfl)
  | cons d run =>
    refine ⟨hspace, ?_⟩
    rintro ⟨behind, hopens⟩
    obtain ⟨rfl, he⟩ := List.cons.inj hopens
    cases run with
    | nil =>
      have hstar := hsame '*' (by decide) (congrArg List.head? he).symm
      obtain ⟨behind, rfl⟩ := List.head?_eq_some_iff.mp hstar
      exact hcomment ⟨behind, rfl⟩
    | cons e run =>
      obtain ⟨rfl, -⟩ := List.cons.inj he
      exact hcomment ⟨run ++ rest, rfl⟩

theorem spacing_stretch_behind {text written last last' : List Char}
    (h : spacing false text = none) (hstretch : stretch [] text = .ok (written, last))
    (hstops : StopsAlike written last last') : spacing false (written ++ last') = none := by
  obtain rfl := stretch_splits [] text _ _ hstretch
  refine spacing_none_behind h ?_ (.inr ?_)
  · rcases hstops with ⟨-, hhead⟩ | ⟨-, -, hbrace⟩
    · exact .inl hhead
    · exact .inr hbrace
  · rcases stretch_stops_at hstretch with he | he | he | he <;> simp [he]

theorem stretch_eq_after_spacing {text scanned rest : List Char}
    (h : spacing false text = some (.ok (scanned, rest))) :
    stretch [] text = (stretch [] rest).after scanned := by
  fun_cases spacing false text with
  | case1 body => exact stretch_of_piece rfl (Option.some.inj h)
  | case2 => contradiction
  | case3 => simp_all [spacing]
  | case4 => contradiction
  | case5 => simp_all [spacing]
  | case6 c behind _ _ _ hspace =>
    rw [spacing_of_isSpace hspace] at h
    obtain ⟨rfl, rfl⟩ := Prod.mk.inj (Except.ok.inj (Option.some.inj h))
    simp only [isSpace, Bool.or_eq_true, beq_iff_eq] at hspace
    rcases hspace with ((rfl | rfl) | rfl) | rfl
    all_goals exact stretch_cons_of_ordinary (by decide) (by simp) behind
  | case7 => simp_all [spacing]
  | case8 => simp_all [spacing]

/-- In front of a stretch, white space belongs to it. -/
theorem stretch_eq_after_gap {text blank rest : List Char}
    (h : gap false text = .ok (blank, rest)) :
    stretch [] text = (stretch [] rest).after blank := by
  fun_induction gap false text generalizing blank with
  | case1 text hspacing =>
    obtain ⟨rfl, rfl⟩ := Prod.mk.inj (Except.ok.inj h)
    exact (Scan.after_nil _).symm
  | case2 => contradiction
  | case3 text front behind hspacing ih =>
    obtain ⟨last, hlast, rfl⟩ := Scan.after_eq_ok_iff.mp h
    rw [stretch_eq_after_spacing hspacing, ih hlast, Scan.after_after]

theorem exists_gap_of_stretch {text written last : List Char}
    (h : stretch [] text = .ok (written, last)) :
    ∃ blank rest, gap false text = .ok (blank, rest) := by
  fun_induction gap false text generalizing written with
  | case1 text hspacing => exact ⟨[], text, rfl⟩
  | case2 text fault hspacing =>
    fun_cases spacing false text with
    | case1 body =>
      rw [stretch, if_neg (by decide)] at h
      have hpiece : piece '/' ('*' :: body) = .error fault := Option.some.inj hspacing
      split at h <;> simp_all
    | case2 => contradiction
    | case3 => simp_all [spacing]
    | case4 => contradiction
    | case5 => simp_all [spacing]
    | case6 => simp_all [spacing]
    | case7 => simp_all [spacing]
    | case8 => simp_all [spacing]
  | case3 text front behind hspacing ih =>
    rw [stretch_eq_after_spacing hspacing] at h
    obtain ⟨last', hlast, -⟩ := Scan.after_eq_ok_iff.mp h
    obtain ⟨blank, rest, hgap⟩ := ih hlast
    exact ⟨front ++ blank, rest, by rw [hgap]; rfl⟩

end WebFonts.Css
