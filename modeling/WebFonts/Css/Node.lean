import WebFonts.Css.Value

/-!
# Stylesheets

The tree of a stylesheet: rules, the blocks they open, and the declarations in these. Every
node knows the bytes of the source it was read from.
-/

namespace WebFonts.Css

/-- The bytes of a source from `start` up to, not including, `stop`. -/
structure Span where
  start : Nat
  stop : Nat
  deriving DecidableEq, Repr

/-- The text that a span covers. -/
def Span.slice (span : Span) (source : List Char) : List Char :=
  takeBytes (span.stop - span.start) (dropBytes span.start source)

/-- A property with its value. -/
structure Declaration where
  property : String
  value : Value
  important : Bool
  span : Span
  deriving DecidableEq, Repr

/-- What stands in front of a block. -/
inductive Head where
  /-- The prelude of a rule, such as a selector. -/
  | qualified (prelude : String)
  /-- An at-rule, its name without the `@`. -/
  | atRule (name prelude : String)
  deriving DecidableEq, Repr

/-- A part of a stylesheet. -/
inductive Node where
  | declaration (declaration : Declaration)
  /-- An at-rule without a block. -/
  | statement (name prelude : String) (span : Span)
  | block (head : Head) (body : List Node) (span : Span)
  deriving Repr

/-- A stylesheet is the list of its rules. -/
structure Stylesheet where
  rules : List Node
  deriving Repr

end WebFonts.Css
