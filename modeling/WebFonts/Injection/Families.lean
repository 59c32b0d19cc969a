import WebFonts.Css.Node

/-!
# Families in a stylesheet

The names of font families that a declaration mentions.
-/

namespace WebFonts

/-- Names that stand for no font of their own: generic families, and keywords that every property
has. -/
def genericNames : List String :=
  ["serif", "sans-serif", "monospace", "cursive", "fantasy", "system-ui", "ui-serif",
    "ui-sans-serif", "ui-monospace", "ui-rounded", "emoji", "math", "fangsong", "inherit",
    "initial", "revert", "revert-layer", "unset"]

/-- Whether a name is generic. -/
def isGeneric (family : String) : Bool := genericNames.contains family

namespace Css

/-- The family that a token names. A string always names one, an identifier unless it is
generic. -/
def Token.family? : Token → Option String
  | .identifier name => if isGeneric name then none else some name
  | .string contents => some contents
  | _ => none

/-- The families that a value names, in order. A text that was not read as tokens is one name,
unless it is empty. -/
def Value.families : Value → List String
  | .raw text => if text.isEmpty then [] else [text]
  | .tokens found => found.filterMap Token.family?

end Css

end WebFonts
