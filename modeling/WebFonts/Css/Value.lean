import WebFonts.Css.Scan
import WebFonts.Css.Word
import WebFonts.Text.Split

/-!
# Values of declarations

A value is a list of tokens where all of its text could be read, and else the text itself.
-/

namespace WebFonts.Css

open Text

/-- A component of a value. Names and strings stand with their escapes resolved, all else as it
is written. -/
inductive Token where
  | identifier (name : String)
  | string (contents : String)
  | number (text : String)
  | hash (name : String)
  | function (name arguments : String)
  /-- Text between brackets; `opening` is `(` or `[`. -/
  | group (opening : Char) (contents : String)
  /-- A comma or a slash. -/
  | operator (sign : Char)
  | delimiter (sign : Char)
  deriving DecidableEq, Repr

/-- The value of a declaration. -/
inductive Value where
  | tokens (tokens : List Token)
  /-- Text that was not read as tokens, without blanks at its ends. -/
  | raw (text : String)
  deriving DecidableEq, Repr

/-! ## Reading one token -/

/-- The text up to the bracket that closes the innermost of the open ones and with it all of
them, and what follows that bracket. Strings and escapes are passed over as a whole. -/
def untilClosed? (closers : List Char) : List Char → Option (List Char × List Char)
  | [] => none
  | c :: text =>
    match _h : unit c text with
    | .error _ => none
    | .ok (scanned, rest) =>
      if (closersAfter closers c).isEmpty then some ([], rest)
      else
        (untilClosed? (closersAfter closers c) rest).map fun (inner, behind) =>
          (scanned ++ inner, behind)
termination_by text => text.length
decreasing_by exact (unit_splits c text).shorter _h (unit_ne_nil _h)

theorem untilClosed?_shorter {closers text inner rest : List Char}
    (h : untilClosed? closers text = some (inner, rest)) : rest.length < text.length := by
  fun_induction untilClosed? closers text generalizing inner with
  | case1 => simp at h
  | case2 => simp at h
  | case3 closers c text scanned behind eq =>
    simp only [Option.some.injEq, Prod.mk.injEq] at h
    obtain ⟨-, rfl⟩ := h
    exact (unit_splits c text).shorter eq (unit_ne_nil eq)
  | case4 closers c text scanned behind eq _ ih =>
    obtain ⟨⟨first, last⟩, eq', h⟩ := Option.map_eq_some_iff.1 h
    simp only [Prod.mk.injEq] at h
    obtain ⟨-, rfl⟩ := h
    exact Nat.lt_trans (ih eq') ((unit_splits c text).shorter eq (unit_ne_nil eq))

/-- A function: an identifier with its arguments in parentheses right behind it. -/
def function? (text : List Char) : Option (Token × List Char) :=
  match identifier? text with
  | some (name, '(' :: behind) =>
    (untilClosed? [')'] behind).map fun (arguments, rest) =>
      (.function (String.ofList (unescape name)) (String.ofList arguments), rest)
  | _ => none

/-- A string with its quotes. -/
def quoted? : List Char → Option (Token × List Char)
  | c :: text =>
    if isQuote c then
      match closeString c text with
      | .ok (scanned, rest) => some (.string (String.ofList (unescape scanned.dropLast)), rest)
      | .error _ => none
    else none
  | [] => none

/-- A group in brackets, an operator or a delimiter. Braces, semicolons, quotes and backslashes
are none of these. -/
def sign? : List Char → Option (Token × List Char)
  | [] => none
  | '(' :: text =>
    (untilClosed? [')'] text).map fun (inner, rest) => (.group '(' (String.ofList inner), rest)
  | '[' :: text =>
    (untilClosed? [']'] text).map fun (inner, rest) => (.group '[' (String.ofList inner), rest)
  | c :: text =>
    if c = ',' ∨ c = '/' then some (.operator c, text)
    else if c ∈ ['{', '}', ';', '"', '\'', '\\'] then none
    else some (.delimiter c, text)

/-- The token at the start of a text; of the kinds that fit, the first in this order is taken. -/
def token? (text : List Char) : Option (Token × List Char) :=
  (quoted? text).or <|
  ((number? text).map fun (s, rest) => (Token.number (String.ofList s), rest)).or <|
  (function? text).or <|
  ((identifier? text).map fun (s, rest) =>
    (Token.identifier (String.ofList (unescape s)), rest)).or <|
  ((hash? text).map fun (s, rest) => (Token.hash (String.ofList (unescape s)), rest)).or <|
  sign? text

theorem quoted?_shorter {text rest : List Char} {token : Token}
    (h : quoted? text = some (token, rest)) : rest.length < text.length := by
  unfold quoted? at h
  split at h
  · next c text =>
    split at h
    · split at h
      · next scanned behind eq =>
        simp only [Option.some.injEq, Prod.mk.injEq] at h
        obtain ⟨-, rfl⟩ := h
        have := congrArg List.length (closeString_splits c text scanned behind eq)
        simp only [List.length_append, List.length_cons] at *
        omega
      · simp at h
    · simp at h
  · simp at h

theorem function?_shorter {text rest : List Char} {token : Token}
    (h : function? text = some (token, rest)) : rest.length < text.length := by
  unfold function? at h
  split at h
  · next name behind eq =>
    obtain ⟨⟨inner, last⟩, eq', h⟩ := Option.map_eq_some_iff.1 h
    simp only [Prod.mk.injEq] at h
    obtain ⟨-, rfl⟩ := h
    have := untilClosed?_shorter eq'
    have := congrArg List.length (identifier?_split eq).1
    simp only [List.length_append, List.length_cons] at this
    omega
  · simp at h

theorem sign?_shorter {text rest : List Char} {token : Token}
    (h : sign? text = some (token, rest)) : rest.length < text.length := by
  unfold sign? at h
  split at h
  · simp at h
  · obtain ⟨⟨inner, last⟩, eq, h⟩ := Option.map_eq_some_iff.1 h
    simp only [Prod.mk.injEq] at h
    obtain ⟨-, rfl⟩ := h
    exact Nat.lt_trans (untilClosed?_shorter eq) (by simp)
  · obtain ⟨⟨inner, last⟩, eq, h⟩ := Option.map_eq_some_iff.1 h
    simp only [Prod.mk.injEq] at h
    obtain ⟨-, rfl⟩ := h
    exact Nat.lt_trans (untilClosed?_shorter eq) (by simp)
  · split at h
    · simp_all
    · split at h <;> simp_all

theorem word_shorter {text rest : List Char} (run : List Char) (h : run ++ rest = text ∧ run ≠ []) :
    rest.length < text.length := by
  have := congrArg List.length h.1
  have := List.length_pos_iff.2 h.2
  simp only [List.length_append] at *
  omega

theorem token?_shorter {text rest : List Char} {token : Token}
    (h : token? text = some (token, rest)) : rest.length < text.length := by
  simp only [token?, Option.or_eq_some_iff, Option.map_eq_some_iff, Prod.mk.injEq] at h
  rcases h with h | ⟨-, ⟨⟨run, last⟩, eq, -, rfl⟩ | ⟨-, h | ⟨-, ⟨⟨run, last⟩, eq, -, rfl⟩ |
    ⟨-, ⟨⟨run, last⟩, eq, -, rfl⟩ | ⟨-, h⟩⟩⟩⟩⟩
  · exact quoted?_shorter h
  · exact word_shorter run (number?_split eq)
  · exact function?_shorter h
  · exact word_shorter run (identifier?_split eq)
  · have ⟨split, ne⟩ := hash?_split eq
    exact word_shorter ('#' :: run) ⟨by simpa using split, by simp⟩
  · exact sign?_shorter h

/-! ## Reading a value -/

/-- The tokens of a text, between which white space and comments may stand. -/
def tokens? (text : List Char) : Option (List Token) :=
  match _h : gap false text with
  | .error _ => none
  | .ok (_, []) => some []
  | .ok (_, c :: rest) =>
    match _h' : token? (c :: rest) with
    | none => none
    | some (token, behind) => (tokens? behind).map (token :: ·)
termination_by text.length
decreasing_by
  have := congrArg List.length (gap_splits false text _ _ _h)
  have := token?_shorter _h'
  simp only [List.length_append] at *
  omega

/-- Splits off a final `!important`, in any case of its letters and with blanks around it. -/
def cutImportant (text : List Char) : List Char × Bool :=
  match splitLast? '!' (trimEnd text) with
  | some (before, behind) =>
    if sameLetters (trim behind) "important".toList then (before, true) else (text, false)
  | none => (text, false)

/-- The value of a property. Custom properties, whose names start with `--`, are not read. -/
def Value.read (property text : List Char) : Value :=
  if "--".toList.isPrefixOf property then .raw (String.ofList (trim text))
  else
    match tokens? text with
    | some found => .tokens found
    | none => .raw (String.ofList (trim text))

end WebFonts.Css
