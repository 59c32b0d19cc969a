import WebFonts.Face.Format
import WebFonts.Text.Blank

/-!
# Sources of a face

Where a browser finds a font: in a file at an address, or among the installed fonts.
-/

namespace WebFonts

/-- A place to find a font. -/
inductive Source where
  /-- A file at an address, with hints on its format and on the technology it needs. -/
  | remote (url : String) (format tech : Option String)
  /-- A font that is installed under a name. -/
  | installed (name : String)
  deriving DecidableEq, Repr

namespace Source

/-- Whether a source is a file at an address. -/
def isRemote : Source → Bool
  | remote .. => true
  | installed _ => false

/-- Sets the format of a file; installed fonts have none. -/
def setFormat (hint : String) : Source → Source
  | remote url _ tech => remote url (some hint) tech
  | installed name => installed name

/-- Sets the technology of a file; installed fonts have none. -/
def setTech (hint : String) : Source → Source
  | remote url format _ => remote url format (some hint)
  | installed name => installed name

/-! ## Shorthands -/

/-- The characters of a scheme, taken widely: ASCII letters and digits, `_`, `+`, `.`, `-`, NUL,
and all blanks. -/
def isSchemeChar (c : Char) : Bool :=
  c.isAlphanum || c == '_' || c == '+' || c == '.' || c == '-' || c == '\x00' || Text.isBlank c

/-- Whether a text starts with a scheme of at least two characters and a colon. -/
def hasScheme (text : List Char) : Bool :=
  2 ≤ (text.takeWhile isSchemeChar).length && (text.dropWhile isSchemeChar).head? == some ':'

/-- The source that a text alone stands for: absolute paths and texts with a scheme are
addresses, with the format of their extension, and all else names an installed font. -/
def ofShorthand (text : String) : Source :=
  if text.toList.head? == some '/' || hasScheme text.toList then
    remote text (Format.ofPath? text) none
  else installed text

/-! ## Rendering -/

/-- A hint in parentheses, or nothing. -/
def renderHint (name : String) : Option String → List Char
  | none => []
  | some hint => ' ' :: (name.toList ++ '(' :: (hint.toList ++ [')']))

/-- A source as a component of a `src` descriptor. -/
def render : Source → List Char
  | remote url format tech =>
    "url(\"".toList ++ url.toList ++ "\")".toList ++ renderHint "format" format ++
      renderHint "tech" tech
  | installed name => "local(\"".toList ++ name.toList ++ "\")".toList

/-- The value of a `src` descriptor; browsers try the sources in order. -/
def renderAll (sources : List Source) : List Char :=
  List.intercalate ", ".toList (sources.map render)

end Source

end WebFonts
