import WebFonts.Proofs.Css.Composition
import WebFonts.Proofs.Css.Contained
import WebFonts.Proofs.Css.Stopping

/-! # Brackets in a text

The brackets that stay open behind a text, as a stretch matches them, and the places in the text
between its strings, comments, escapes and other characters. -/

namespace WebFonts.Css

open Text

/-! ## Pieces -/

/-- The brackets that stay open behind a text, innermost first, where `closers` are open in front
of it. Those in strings, comments and escapes do not count. -/
def openBehind (closers : List Char) : List Char → List Char
  | [] => closers
  | c :: text =>
    match _h : piece c text with
    | .error _ => closers
    | .ok (_, rest) => openBehind (closersAfter closers c) rest
termination_by text => text.length
decreasing_by exact (piece_splits c text).shorter _h (piece_ne_nil _h)

/-- The comments, strings, escapes and single characters that make up a text, each with the
brackets that are open in front of it. -/
def pieces (closers : List Char) : List Char → List (List Char × List Char)
  | [] => []
  | c :: text =>
    match _h : piece c text with
    | .error _ => []
    | .ok (scanned, rest) => (closers, scanned) :: pieces (closersAfter closers c) rest
termination_by text => text.length
decreasing_by exact (piece_splits c text).shorter _h (piece_ne_nil _h)

/-- What counts in brackets: other brackets, quotes and backslashes. -/
def bracketMarks : List Char := ['(', ')', '[', ']', '"', '\'', '\\']

/-- Whether a piece is something else than a comment in brackets that holds marks of its own. -/
def isQuiet (closers scanned : List Char) : Bool :=
  closers.isEmpty || !(['/', '*'].isPrefixOf scanned) ||
    scanned.all fun c => !bracketMarks.contains c

/-- Whether no comment in brackets holds a bracket, a quote or a backslash. -/
def hasQuietComments (closers text : List Char) : Bool :=
  (pieces closers text).all fun (outer, scanned) => isQuiet outer scanned

/-- Whether a text ends in a backslash that escapes nothing. -/
def endsInLoneBackslash (text : List Char) : Bool :=
  (pieces [] text).any fun (_, scanned) => scanned == ['\\']

@[simp] theorem openBehind_nil (closers : List Char) : openBehind closers [] = closers := by
  rw [openBehind]

@[simp] theorem pieces_nil (closers : List Char) : pieces closers [] = [] := by
  rw [pieces]

@[simp] theorem endsInLoneBackslash_nil : endsInLoneBackslash [] = false := by
  rw [endsInLoneBackslash, pieces_nil]
  rfl

section

variable {c : Char} {text scanned rest : List Char}

theorem openBehind_of_piece (h : piece c text = .ok (scanned, rest)) (closers : List Char) :
    openBehind closers (c :: text) = openBehind (closersAfter closers c) rest := by
  rw [openBehind]
  split <;> simp_all

theorem pieces_of_piece (h : piece c text = .ok (scanned, rest)) (closers : List Char) :
    pieces closers (c :: text) = (closers, scanned) :: pieces (closersAfter closers c) rest := by
  rw [pieces]
  split <;> simp_all

theorem hasQuietComments_of_piece (h : piece c text = .ok (scanned, rest)) (closers : List Char) :
    hasQuietComments closers (c :: text) =
      (isQuiet closers scanned && hasQuietComments (closersAfter closers c) rest) := by
  rw [hasQuietComments, pieces_of_piece h, List.all_cons, ← hasQuietComments]

end

/-! ## Texts that are stretches -/

/-- A text that a stretch passes over to its end. -/
def IsStretch (closers text : List Char) : Prop := stretch closers text = .ok (text, [])

theorem IsStretch.nil (closers : List Char) : IsStretch closers [] := stretch_nil closers

theorem IsStretch.exists_piece {closers : List Char} {c : Char} {text : List Char}
    (h : IsStretch closers (c :: text)) :
    ∃ scanned rest, piece c text = .ok (scanned, rest) ∧ endsStretch closers c = false ∧
      IsStretch (closersAfter closers c) rest := by
  have hends : endsStretch closers c = false := by
    apply Bool.eq_false_iff.mpr
    intro hends
    rw [IsStretch, stretch_of_ends hends] at h
    simp at h
  cases hpiece : piece c text with
  | error fault =>
    rw [IsStretch, stretch, if_neg (by simp [hends])] at h
    split at h <;> simp_all
  | ok both =>
    obtain ⟨scanned, rest⟩ := both
    rw [IsStretch, stretch_of_piece hends hpiece] at h
    obtain ⟨last, hlast, -⟩ := Scan.after_eq_ok_iff.mp h
    have hrest := stretch_splits _ _ _ _ hlast
    rw [List.append_nil] at hrest
    subst hrest
    exact ⟨scanned, last, rfl, hends, hlast⟩

/-- The characters in which strings and comments end. -/
def endMarks : List Char := ['"', '\'', '/']

theorem mem_endMarks_of_isQuote {c : Char} (h : isQuote c = true) : c ∈ endMarks := by
  simp only [isQuote, Bool.or_eq_true, beq_iff_eq] at h
  rcases h with rfl | rfl <;> decide

/-- A piece is a single character, an escape, or a text that ends as strings and comments do. -/
theorem exists_last_of_piece {c : Char} {text scanned rest : List Char}
    (h : piece c text = .ok (scanned, rest)) :
    scanned = [c] ∨ (∃ d, scanned = ['\\', d]) ∨
      ∃ d, scanned.getLast? = some d ∧ d ∈ endMarks := by
  by_cases hcomment : c = '/' ∧ text.head? = some '*'
  · obtain ⟨rfl, hstar⟩ := hcomment
    obtain ⟨body, rfl⟩ := List.head?_eq_some_iff.mp hstar
    exact .inr (.inr ⟨'/', getLast?_of_comment h, by decide⟩)
  · rw [piece_eq_unit hcomment, unit] at h
    by_cases hquote : isQuote c = true
    · rw [if_pos hquote] at h
      obtain ⟨last, hlast, rfl⟩ := Scan.after_eq_ok_iff.mp h
      have hend : last.getLast? = some c := getLast?_of_closeString hlast
      exact .inr (.inr ⟨c, by simp [List.getLast?_cons, hend], mem_endMarks_of_isQuote hquote⟩)
    · rw [if_neg hquote] at h
      by_cases hslash : c = '\\'
      · rw [if_pos hslash] at h
        obtain ⟨rfl, -⟩ := Prod.mk.inj (Except.ok.inj h)
        cases text with
        | nil => exact .inl rfl
        | cons d text => exact .inr (.inl ⟨d, by rw [hslash]; rfl⟩)
      · rw [if_neg hslash] at h
        obtain ⟨rfl, -⟩ := Prod.mk.inj (Except.ok.inj h)
        exact .inl rfl

theorem head?_ne_of_front {c : Char} {front text : List Char} (h : front <+: text)
    (hhead : text.head? ≠ some c) : front.head? ≠ some c := by
  obtain ⟨rest, rfl⟩ := h
  intro hfront
  rw [List.head?_append, hfront] at hhead
  exact hhead rfl

/-- A piece and the start of a stretch behind it are a stretch. -/
theorem isStretch_of_piece {closers : List Char} {c : Char} {text scanned rest front : List Char}
    (hends : endsStretch closers c = false) (hpiece : piece c text = .ok (scanned, rest))
    (hfront : front <+: rest) (hstretch : IsStretch (closersAfter closers c) front) :
    IsStretch closers (scanned ++ front) := by
  by_cases hslash : scanned = ['\\']
  · subst hslash
    obtain rfl := nil_of_piece_backslash hpiece
    obtain rfl := List.prefix_nil.mp hfront
    obtain ⟨rfl, rfl⟩ := List.cons.inj (piece_splits _ _ _ _ hpiece)
    exact (stretch_of_piece hends hpiece).trans (by rw [stretch_nil]; rfl)
  · obtain ⟨tail, rfl, hbehind⟩ := piece_behind hpiece hslash
    rw [List.cons_append, IsStretch,
      stretch_of_piece hends (hbehind front (head?_ne_of_front hfront)), hstretch]
    rfl

/-- Where a cut leaves no end of a string or comment behind it, it can only fall into an escape. -/
theorem isStretch_of_cut_piece {c : Char} {text scanned rest front back : List Char}
    (hpiece : piece c text = .ok (scanned, rest)) (hscanned : scanned = front ++ back)
    (hne : back ≠ []) (hback : ∀ c ∈ endMarks, c ∉ back) (closers : List Char) :
    IsStretch closers front := by
  rcases exists_last_of_piece hpiece with hone | ⟨d, hescape⟩ | ⟨d, hend, hd⟩
  · rw [hone] at hscanned
    rcases List.append_eq_singleton_iff.mp hscanned.symm with ⟨rfl, -⟩ | ⟨-, he⟩
    · exact .nil _
    · exact (hne he).elim
  · cases front with
    | nil => exact .nil _
    | cons e front =>
      obtain ⟨rfl, hd⟩ := List.cons.inj (hescape.symm.trans hscanned)
      rcases List.append_eq_singleton_iff.mp hd.symm with ⟨rfl, -⟩ | ⟨-, he⟩
      · have hlone : piece '\\' [] = .ok (['\\'], []) := rfl
        exact @isStretch_of_piece closers _ _ _ _ _ rfl hlone List.nil_prefix (.nil _)
      · exact (hne he).elim
  · rw [hscanned, List.getLast?_append, List.getLast?_eq_some_getLast hne, Option.some_or] at hend
    obtain rfl := Option.some.inj hend
    exact (hback _ hd (List.getLast_mem hne)).elim

/-- The front of a stretch is a stretch, where what is cut off holds no end of a string or
comment. -/
theorem IsStretch.of_front {closers text run rest : List Char}
    (h : stretch closers text = .ok (run, rest)) {front back : List Char}
    (hrun : run = front ++ back) (hback : ∀ c ∈ endMarks, c ∉ back) :
    IsStretch closers front := by
  fun_induction stretch closers text generalizing run front with
  | case1 =>
    obtain ⟨rfl, -⟩ := Prod.mk.inj (Except.ok.inj h)
    rw [(List.append_eq_nil_iff.mp hrun.symm).1]
    exact .nil _
  | case2 =>
    obtain ⟨rfl, -⟩ := Prod.mk.inj (Except.ok.inj h)
    rw [(List.append_eq_nil_iff.mp hrun.symm).1]
    exact .nil _
  | case3 => contradiction
  | case4 closers c text hends scanned behind hpiece ih =>
    obtain ⟨last, hlast, rfl⟩ := Scan.after_eq_ok_iff.mp h
    replace hends := Bool.eq_false_iff.mpr hends
    rcases List.append_eq_append_iff.mp hrun with ⟨more, rfl, hmore⟩ | ⟨more, hscanned, rfl⟩
    · refine isStretch_of_piece hends hpiece ?_ (ih hlast hmore)
      rw [← stretch_splits _ _ _ _ hlast, hmore, List.append_assoc]
      exact List.prefix_append _ _
    · by_cases hnil : more = []
      · rw [hnil, List.append_nil] at hscanned
        have hstretch := isStretch_of_piece hends hpiece List.nil_prefix (.nil _)
        rwa [List.append_nil, hscanned] at hstretch
      · exact isStretch_of_cut_piece hpiece hscanned hnil
          (fun c hc hmem => hback c hc (List.mem_append_left _ hmem)) closers

/-! ## From place to place -/

/-- Pieces lead from one place of a text to a later one, each place with the brackets that are open
there. A backslash that escapes nothing is not passed over, since no token takes it. -/
inductive Leads : List Char → List Char → List Char → List Char → Prop where
  | refl (closers text : List Char) : Leads closers text closers text
  | step {closers closers' text behind scanned rest : List Char} {c : Char}
      (hpiece : piece c text = .ok (scanned, rest)) (hslash : scanned ≠ ['\\']) :
      Leads (closersAfter closers c) rest closers' behind →
      Leads closers (c :: text) closers' behind

section

variable {closers closers' text behind : List Char}

theorem Leads.trans {closers'' last : List Char} (h : Leads closers text closers' behind)
    (h' : Leads closers' behind closers'' last) : Leads closers text closers'' last := by
  induction h with
  | refl => exact h'
  | step hpiece hslash _ ih => exact .step hpiece hslash (ih h')

theorem Leads.isStretch (h : Leads closers text closers' behind)
    (hstretch : IsStretch closers text) : IsStretch closers' behind := by
  induction h with
  | refl => exact hstretch
  | step hpiece _ _ ih =>
    obtain ⟨first, last, hfirst, -, hlast⟩ := hstretch.exists_piece
    obtain ⟨-, rfl⟩ := Prod.mk.inj (Except.ok.inj (hpiece.symm.trans hfirst))
    exact ih hlast

theorem Leads.openBehind_eq (h : Leads closers text closers' behind) :
    openBehind closers text = openBehind closers' behind := by
  induction h with
  | refl => rfl
  | step hpiece _ _ ih => rw [openBehind_of_piece hpiece, ih]

theorem Leads.exists_pieces (h : Leads closers text closers' behind) :
    ∃ passed, pieces closers text = passed ++ pieces closers' behind ∧
      ∀ outer, (outer, ['\\']) ∉ passed := by
  induction h with
  | refl => exact ⟨[], rfl, by simp⟩
  | @step closers _ _ _ scanned _ _ hpiece hslash _ ih =>
    obtain ⟨passed, hpassed, hlone⟩ := ih
    refine ⟨(closers, scanned) :: passed, by rw [pieces_of_piece hpiece, hpassed]; rfl, ?_⟩
    intro outer hmem
    rcases List.mem_cons.mp hmem with he | hmem
    · exact hslash (Prod.mk.inj he).2.symm
    · exact hlone outer hmem

theorem Leads.quiet (h : Leads closers text closers' behind)
    (hquiet : hasQuietComments closers text = true) : hasQuietComments closers' behind = true := by
  obtain ⟨passed, hpassed, -⟩ := h.exists_pieces
  rw [hasQuietComments, hpassed, List.all_append, Bool.and_eq_true] at hquiet
  exact hquiet.2

theorem Leads.endsInLoneBackslash_eq (h : Leads [] text [] behind) :
    endsInLoneBackslash text = endsInLoneBackslash behind := by
  obtain ⟨passed, hpassed, hlone⟩ := h.exists_pieces
  have hnone : (passed.any fun (_, scanned) => scanned == ['\\']) = false := by
    apply List.any_eq_false.mpr
    rintro ⟨outer, scanned⟩ hmem hscanned
    exact hlone outer (by rwa [← beq_iff_eq.mp hscanned])
  rw [endsInLoneBackslash, hpassed, List.any_append, hnone, Bool.false_or, ← endsInLoneBackslash]

/-- What pieces pass over, read alone, leaves the same brackets open. -/
theorem Leads.exists_front (h : Leads closers text closers' behind) :
    ∃ front, text = front ++ behind ∧ openBehind closers front = closers' := by
  induction h with
  | refl => exact ⟨[], rfl, openBehind_nil _⟩
  | @step _ _ _ behind scanned rest c hpiece hslash _ ih =>
    obtain ⟨front, rfl, hfront⟩ := ih
    obtain ⟨tail, rfl, hbehind⟩ := piece_behind hpiece hslash
    refine ⟨c :: tail ++ front, ?_, ?_⟩
    · rw [← piece_splits _ _ _ _ hpiece, List.append_assoc]
    · rw [List.cons_append, openBehind_of_piece (hbehind front ?_), hfront]
      exact head?_ne_of_front (List.prefix_append front behind)

end

end WebFonts.Css
