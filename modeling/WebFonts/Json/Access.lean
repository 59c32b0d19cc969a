import WebFonts.Json.Value

/-!
# Looking into values

The contents of a JSON value, if it is of the kind asked for.
-/

namespace WebFonts

namespace Json

/-- The contents of a string. -/
def string? : Json → Option String
  | string s => some s
  | _ => none

/-- A value that may be null. -/
def optional? {α : Type} (read : Json → Option α) : Json → Option (Option α)
  | null => some none
  | json => (read json).map some

/-- The values of an array. -/
def list? {α : Type} (read : Json → Option α) : Json → Option (List α)
  | array items => items.mapM read
  | _ => none

/-- The value of a field that an object holds exactly once. -/
def field? (fields : List (String × Json)) (key : String) : Option Json :=
  match fields.filter (·.1 == key) with
  | [(_, value)] => some value
  | _ => none

/-- The optional value of a field that an object holds at most once. -/
def optionalField? {α : Type} (fields : List (String × Json)) (key : String)
    (read : Json → Option α) : Option (Option α) :=
  match fields.filter (·.1 == key) with
  | [] => some none
  | [(_, value)] => optional? read value
  | _ => none

end Json

end WebFonts
