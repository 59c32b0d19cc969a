import WebFonts.Proofs.Css.Extension

/-! # Texts that a stretch passes over

A stretch of text does not end inside of a run that closes what it opens, and thus not inside of
what is put together from such runs. -/

namespace WebFonts.Css

open Text

/-- The characters that mean something to a stretch, and line feeds, which end strings. -/
def specialCharacters : List Char :=
  ['"', '\'', '\\', '(', ')', '[', ']', '{', '}', ';', '\n']

/-- A text without special characters and without the opening of a comment. -/
def isPlain (text : List Char) : Bool :=
  text.all (fun c => !specialCharacters.contains c) && !contains ['/', '*'] text

theorem isPlain_cons {c : Char} {text : List Char} (h : isPlain (c :: text) = true) :
    c ∉ specialCharacters ∧ ¬(c = '/' ∧ text.head? = some '*') ∧ isPlain text = true := by
  simp only [isPlain, List.all_cons, contains, Bool.and_eq_true, Bool.not_eq_true',
    Bool.or_eq_false_iff] at h
  obtain ⟨⟨hc, htext⟩, hcomment, hcontains⟩ := h
  refine ⟨by simpa using hc, ?_, by rw [isPlain, htext, hcontains]; rfl⟩
  rintro ⟨rfl, hhead⟩
  rcases List.head?_eq_some_iff.mp hhead with ⟨rest, rfl⟩
  simp [List.isPrefixOf] at hcomment

theorem not_mem_of_isPlain {text : List Char} (h : isPlain text = true) {c : Char}
    (hc : c ∈ specialCharacters) : c ∉ text := by
  intro hmem
  simp only [isPlain, Bool.and_eq_true, List.all_eq_true] at h
  have hplain := h.1 c hmem
  simp [hc] at hplain

/-! ## Runs -/

/-- Whatever follows, a stretch passes over a run with the same brackets open at its end as at its
start. A star could end a run that opens a comment, and is left out. -/
def Passes (closers run : List Char) : Prop :=
  ∀ rest : List Char, rest.head? ≠ some '*' →
    stretch closers (run ++ rest) = (stretch closers rest).after run

theorem Passes.nil (closers : List Char) : Passes closers [] := by
  intro rest hrest
  exact (Scan.after_nil _).symm

theorem Passes.append {closers first second : List Char} (h : Passes closers first)
    (h' : Passes closers second) (hstar : second.head? ≠ some '*') :
    Passes closers (first ++ second) := by
  intro rest hrest
  have hhead : (second ++ rest).head? ≠ some '*' := by
    cases second with
    | nil => exact hrest
    | cons c second => exact hstar
  rw [List.append_assoc, h (second ++ rest) hhead, h' rest hrest, Scan.after_after]

/-! ## Strings and brackets -/

theorem closeString_of_forall {quote : Char} {text : List Char} (hquote : quote ≠ '\\')
    (h : ∀ c ∈ text, c ≠ quote ∧ c ≠ '\\' ∧ c ≠ '\n') (rest : List Char) :
    closeString quote (text ++ quote :: rest) = .ok (text ++ [quote], rest) := by
  induction text with
  | nil => rw [List.nil_append, closeString_cons hquote, if_pos rfl]; rfl
  | cons c text ih =>
    rcases h c List.mem_cons_self with ⟨hc, hslash, hline⟩
    have htext := ih fun d hd => h d (List.mem_cons_of_mem _ hd)
    rw [List.cons_append, closeString_cons hslash, if_neg hc, if_neg hline, htext]
    rfl

theorem Passes.parentheses {closers run : List Char} (h : Passes (')' :: closers) run) :
    Passes closers ('(' :: (run ++ [')'])) := by
  intro rest hrest
  have hopen : stretch closers ('(' :: (run ++ ')' :: rest)) =
      (stretch (')' :: closers) (run ++ ')' :: rest)).after ['('] :=
    stretch_of_piece rfl rfl
  have hclose : stretch (')' :: closers) (')' :: rest) = (stretch closers rest).after [')'] := by
    refine (stretch_of_piece rfl rfl).trans ?_
    simp [closersAfter]
  rw [List.cons_append, List.append_assoc, List.singleton_append, hopen,
    h _ (by simp), hclose, Scan.after_after, Scan.after_after]
  rfl

end WebFonts.Css
