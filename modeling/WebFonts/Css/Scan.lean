import WebFonts.Css.Fault

/-!
# Scanning

What the readers of a stylesheet pass over as a whole: comments, strings, escapes, white space,
and the stretch of text up to a brace or a semicolon. A scan splits its text in two, or fails
with a fault whose offset counts from the start of that text.
-/

namespace WebFonts.Css

open Text

/-- What was scanned and what follows it, or the fault that ended the scan. -/
abbrev Scan := Except Fault (List Char × List Char)

/-- A scan as seen from in front of a text that precedes it. -/
def Scan.after (text : List Char) : Scan → Scan
  | .ok (scanned, rest) => .ok (text ++ scanned, rest)
  | .error fault => .error (fault.shift (utf8Width text))

/-- Both parts of a scan make up the scanned text. -/
def Scan.Splits (input : List Char) (scan : Scan) : Prop :=
  ∀ scanned rest, scan = .ok (scanned, rest) → scanned ++ rest = input

theorem Scan.Splits.after {input : List Char} {scan : Scan} (h : scan.Splits input)
    (text : List Char) : (scan.after text).Splits (text ++ input) := by
  intro scanned rest eq
  match scan, h with
  | .ok (first, last), h =>
    simp only [Scan.after, Except.ok.injEq, Prod.mk.injEq] at eq
    obtain ⟨rfl, rfl⟩ := eq
    simp [h first last rfl]

/-! ## Comments, strings and escapes -/

/-- Space, tab, carriage return and line feed; no other character is white space in a
stylesheet. -/
def isSpace (c : Char) : Bool := c == ' ' || c == '\t' || c == '\r' || c == '\n'

def isQuote (c : Char) : Bool := c == '"' || c == '\''

/-- Splits what follows the opening of a comment behind the mark that closes it. -/
def closeComment : List Char → Option (List Char × List Char)
  | [] => none
  | '*' :: '/' :: rest => some (['*', '/'], rest)
  | c :: rest => (closeComment rest).map fun (scanned, after) => (c :: scanned, after)

/-- A comment, given what follows its opening; one that is never closed is at fault right
behind the opening. -/
def comment (body : List Char) : Scan :=
  match closeComment body with
  | some (scanned, rest) => .ok ('/' :: '*' :: scanned, rest)
  | none => .error ⟨.unterminatedComment, 2⟩

/-- What remains of a string, through its closing quote. A line feed, the end of the text or
a backslash before that end is at fault. -/
def closeString (quote : Char) : List Char → Scan
  | [] => .error ⟨.unterminatedString, 0⟩
  | ['\\'] => .error ⟨.unterminatedString, 0⟩
  | '\\' :: c :: rest => (closeString quote rest).after ['\\', c]
  | c :: rest =>
    if c = quote then .ok ([c], rest)
    else if c = '\n' then .error ⟨.unterminatedString, 0⟩
    else (closeString quote rest).after [c]

/-- The whole string or escape that a character opens, or else that character alone. -/
def unit (c : Char) (rest : List Char) : Scan :=
  if isQuote c then (closeString c rest).after [c]
  else if c = '\\' then .ok (c :: rest.take 1, rest.drop 1)
  else .ok ([c], rest)

/-- Like `unit`, and a comment is passed over as a whole too. -/
def piece (c : Char) (rest : List Char) : Scan :=
  match c, rest with
  | '/', '*' :: body => comment body
  | c, rest => unit c rest

theorem closeComment_splits {input scanned rest : List Char}
    (h : closeComment input = some (scanned, rest)) : scanned ++ rest = input := by
  fun_induction closeComment input generalizing scanned with
  | case1 => simp at h
  | case2 =>
    simp only [Option.some.injEq, Prod.mk.injEq] at h
    obtain ⟨rfl, rfl⟩ := h
    rfl
  | case3 c text _ ih =>
    obtain ⟨⟨first, last⟩, eq, h⟩ := Option.map_eq_some_iff.1 h
    simp only [Prod.mk.injEq] at h
    obtain ⟨rfl, rfl⟩ := h
    simp [ih eq]

theorem comment_splits (body : List Char) : (comment body).Splits ('/' :: '*' :: body) := by
  intro scanned rest h
  unfold comment at h
  split at h
  · next eq =>
    simp only [Except.ok.injEq, Prod.mk.injEq] at h
    obtain ⟨rfl, rfl⟩ := h
    simp [closeComment_splits eq]
  · simp at h

theorem closeString_splits (quote : Char) (input : List Char) :
    (closeString quote input).Splits input := by
  fun_induction closeString quote input with
  | case1 => simp [Scan.Splits]
  | case2 => simp [Scan.Splits]
  | case3 c rest ih => exact ih.after _
  | case4 => simp +contextual [Scan.Splits]
  | case5 => simp [Scan.Splits]
  | case6 c rest _ _ _ _ ih => exact ih.after _

theorem unit_splits (c : Char) (rest : List Char) : (unit c rest).Splits (c :: rest) := by
  unfold unit
  split
  · exact (closeString_splits c rest).after [c]
  · split
    · cases rest <;> simp +contextual [Scan.Splits]
    · simp +contextual [Scan.Splits]

theorem piece_splits (c : Char) (rest : List Char) : (piece c rest).Splits (c :: rest) := by
  unfold piece
  split
  · exact comment_splits _
  · exact unit_splits _ _

theorem comment_ne_nil {body scanned rest : List Char} (h : comment body = .ok (scanned, rest)) :
    scanned ≠ [] := by
  rintro rfl
  unfold comment at h
  split at h <;> simp at h

theorem unit_ne_nil {c : Char} {text scanned rest : List Char}
    (h : unit c text = .ok (scanned, rest)) : scanned ≠ [] := by
  rintro rfl
  unfold unit at h
  split at h
  · cases eq : closeString c text with
    | error => simp [eq, Scan.after] at h
    | ok both => simp [eq, Scan.after] at h
  · split at h <;> simp at h

theorem piece_ne_nil {c : Char} {text scanned rest : List Char}
    (h : piece c text = .ok (scanned, rest)) : scanned ≠ [] := by
  unfold piece at h
  split at h
  · exact comment_ne_nil h
  · exact unit_ne_nil h

/-- A scan that takes something leaves less. -/
theorem Scan.Splits.shorter {input scanned rest : List Char} {scan : Scan}
    (splits : scan.Splits input) (h : scan = .ok (scanned, rest)) (ne : scanned ≠ []) :
    rest.length < input.length := by
  have := congrArg List.length (splits scanned rest h)
  have := List.length_pos_iff.2 ne
  simp only [List.length_append] at *
  omega

/-! ## White space -/

/-- The comment, the white space character or, between the rules of a sheet, the mark `<!--`
or `-->` at the start of a text. -/
def spacing (between : Bool) : List Char → Option Scan
  | '/' :: '*' :: body => some (comment body)
  | '<' :: '!' :: '-' :: '-' :: rest =>
    if between then some (.ok (['<', '!', '-', '-'], rest)) else none
  | '-' :: '-' :: '>' :: rest => if between then some (.ok (['-', '-', '>'], rest)) else none
  | c :: rest => if isSpace c then some (.ok ([c], rest)) else none
  | [] => none

theorem spacing_splits {between : Bool} {text scanned rest : List Char}
    (h : spacing between text = some (.ok (scanned, rest))) : scanned ++ rest = text := by
  unfold spacing at h
  split at h
  · next body => exact comment_splits body scanned rest (by simpa using h)
  all_goals (try split at h) <;> simp at h
  all_goals (obtain ⟨rfl, rfl⟩ := h; rfl)

theorem spacing_shorter {between : Bool} {text scanned rest : List Char}
    (h : spacing between text = some (.ok (scanned, rest))) : rest.length < text.length := by
  unfold spacing at h
  split at h
  · next body =>
    simp only [Option.some.injEq] at h
    exact (comment_splits body).shorter h (comment_ne_nil h)
  all_goals (try split at h) <;> simp at h
  all_goals (obtain ⟨-, rfl⟩ := h; simp only [List.length_cons]; omega)

/-- The white space and comments at the start of a text. -/
def gap (between : Bool) (text : List Char) : Scan :=
  match _h : spacing between text with
  | none => .ok ([], text)
  | some (.error fault) => .error fault
  | some (.ok (scanned, rest)) => (gap between rest).after scanned
termination_by text.length
decreasing_by exact spacing_shorter _h

theorem gap_splits (between : Bool) (text : List Char) :
    (gap between text).Splits text := by
  fun_induction gap between text with
  | case1 => simp +contextual [Scan.Splits]
  | case2 => simp [Scan.Splits]
  | case3 text scanned rest eq ih =>
    have := ih.after scanned
    rwa [spacing_splits eq] at this

/-! ## Stretches -/

/-- The brackets still to be closed, innermost first, once a character has been passed. -/
def closersAfter (closers : List Char) (c : Char) : List Char :=
  match c with
  | '(' => ')' :: closers
  | '[' => ']' :: closers
  | _ => if closers.head? = some c then closers.tail else closers

/-- Whether a stretch ends at a character: at each brace, and at a semicolon outside of all
brackets. -/
def endsStretch (closers : List Char) (c : Char) : Bool :=
  c == '{' || c == '}' || (c == ';' && closers.isEmpty)

/-- The text up to the first brace or semicolon that counts, in which strings, comments and
escapes are passed over as a whole. `closers` are the brackets open at its start. -/
def stretch (closers : List Char) : List Char → Scan
  | [] => .ok ([], [])
  | c :: text =>
    if endsStretch closers c then .ok ([], c :: text)
    else
      match _h : piece c text with
      | .error fault => .error fault
      | .ok (scanned, rest) => (stretch (closersAfter closers c) rest).after scanned
termination_by text => text.length
decreasing_by exact (piece_splits c text).shorter _h (piece_ne_nil _h)

theorem stretch_splits (closers text : List Char) : (stretch closers text).Splits text := by
  fun_induction stretch closers text with
  | case1 => simp [Scan.Splits]
  | case2 => simp +contextual [Scan.Splits]
  | case3 => simp [Scan.Splits]
  | case4 closers c text _ scanned rest eq ih =>
    have := ih.after scanned
    rwa [piece_splits c text scanned rest eq] at this

/-- A stretch that does not end at once takes something. -/
theorem stretch_ne_nil {closers : List Char} {c : Char} {text scanned rest : List Char}
    (h : stretch closers (c :: text) = .ok (scanned, rest))
    (hc : endsStretch closers c = false) : scanned ≠ [] := by
  rintro rfl
  rw [stretch] at h
  simp only [hc, Bool.false_eq_true, ↓reduceIte] at h
  split at h
  · simp at h
  · next first last eq =>
    have := piece_ne_nil eq
    cases eq' : stretch (closersAfter closers c) last with
    | error => simp [eq', Scan.after] at h
    | ok both => simp [eq', Scan.after, this] at h

end WebFonts.Css
