/-!
# Injection orders
-/

namespace WebFonts

/-- How rules for several families are ordered. -/
inductive Order where
  /-- Each rule goes in front of all others as soon as its family is resolved. -/
  | completion
  /-- The rules follow each other as their families do in the stylesheet. -/
  | discovery
  deriving DecidableEq, Repr

namespace Order

/-- The name of an order. -/
def name : Order → String
  | completion => "completion"
  | discovery => "discovery"

/-- The order with a name, in lower case. -/
def ofName? (name : String) : Option Order :=
  if name = "completion" then some completion
  else if name = "discovery" then some discovery
  else none

/-- The order with a name in any case of its letters; what is none is given back in lower case. -/
def parse (text : String) : Except String Order :=
  let lower := String.ofList (text.toList.map Char.toLower)
  match ofName? lower with
  | some order => .ok order
  | none => .error lower

/-- What to say about a text that is no name of an order. -/
def unknownMessage (text : String) : String :=
  "unknown injection order '" ++ text ++ "', expected 'completion' or 'discovery'"

end Order

end WebFonts
