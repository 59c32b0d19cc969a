import WebFonts.Css.Node
import WebFonts.Text.Split

/-!
# Visits

Every declaration of a stylesheet together with the blocks it stands in.
-/

namespace WebFonts.Css

/-- The innermost at-rule, as name and prelude, and the innermost other rule around a place.
Either may stand inside of the other. -/
structure Context where
  atRule : Option (String × String)
  rule : Option String
  deriving DecidableEq, Repr

/-- The context inside of a block, given the one around it. -/
def Context.enter (context : Context) : Head → Context
  | .atRule name prelude => { context with atRule := some (name, prelude) }
  | .qualified prelude => { context with rule := some prelude }

/-- Whether the innermost at-rule has a name, in any case of its letters. -/
def Context.isInside (context : Context) (name : String) : Bool :=
  context.atRule.any fun atRule => Text.sameLetters atRule.1.toList name.toList

/-- A declaration and where it stands. -/
structure Visit where
  declaration : Declaration
  context : Context
  deriving DecidableEq, Repr

mutual

/-- The declarations in a node, in the order of the text. -/
def Node.visits (context : Context) : Node → List Visit
  | .declaration found => [⟨found, context⟩]
  | .statement .. => []
  | .block head body _ => visitsAll (context.enter head) body

/-- The declarations in a list of nodes. -/
def Node.visitsAll (context : Context) : List Node → List Visit
  | [] => []
  | node :: nodes => node.visits context ++ visitsAll context nodes

end

/-- The declarations of a stylesheet, in the order of the text. -/
def Stylesheet.visits (sheet : Stylesheet) : List Visit :=
  Node.visitsAll ⟨none, none⟩ sheet.rules

end WebFonts.Css
