import WebFonts.Text.Width

/-!
# Faults of a stylesheet

The four ways in which a text is no stylesheet, and the place where that shows.
-/

namespace WebFonts.Css

/-- Why a text is no stylesheet. -/
inductive Cause where
  | unterminatedComment
  | unterminatedString
  | unterminatedBlock
  | strayBrace
  deriving DecidableEq, Repr

/-- The wording of a cause. -/
def Cause.text : Cause → String
  | unterminatedComment => "unterminated comment"
  | unterminatedString => "unterminated string"
  | unterminatedBlock => "unterminated block"
  | strayBrace => "unexpected `\x7d` outside of a block"

/-- A cause and the place of it, in bytes from the start of the text that was scanned. -/
structure Fault where
  cause : Cause
  offset : Nat
  deriving DecidableEq, Repr

/-- The same fault, seen from `distance` bytes before the start of the scanned text. -/
def Fault.shift (fault : Fault) (distance : Nat) : Fault :=
  { fault with offset := distance + fault.offset }

@[simp] theorem Fault.shift_shift (fault : Fault) (m n : Nat) :
    (fault.shift m).shift n = fault.shift (n + m) := by
  simp [Fault.shift, Nat.add_assoc]

@[simp] theorem Fault.shift_zero (fault : Fault) : fault.shift 0 = fault := by
  simp [Fault.shift]

/-- A fault with its line and column, which both count from one. -/
structure SyntaxError where
  cause : Cause
  offset : Nat
  line : Nat
  column : Nat
  deriving DecidableEq, Repr

/-- The text up to a place that lies a number of bytes from its start. -/
def takeBytes : Nat → List Char → List Char
  | _, [] => []
  | offset, c :: rest =>
    if offset = 0 then [] else c :: takeBytes (offset - c.utf8Size) rest

/-- The text from a place on that lies a number of bytes from its start. -/
def dropBytes : Nat → List Char → List Char
  | _, [] => []
  | offset, c :: rest =>
    if offset = 0 then c :: rest else dropBytes (offset - c.utf8Size) rest

/-- A fault in the words of its reader: lines end at line feeds, columns count characters. -/
def Fault.locate (source : List Char) (fault : Fault) : SyntaxError :=
  let before := takeBytes fault.offset source
  { cause := fault.cause
    offset := fault.offset
    line := 1 + before.count '\n'
    column := 1 + (before.reverse.takeWhile (· ≠ '\n')).length }

/-- The message of an error, ending in its place. -/
def SyntaxError.message (e : SyntaxError) : String :=
  e.cause.text ++ " at line " ++ toString e.line ++ ", column " ++ toString e.column

end WebFonts.Css
