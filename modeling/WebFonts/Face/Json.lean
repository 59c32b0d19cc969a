import WebFonts.Face.Basic
import WebFonts.Json.Access
import WebFonts.Json.Record
import WebFonts.Number.Shortest

/-!
# Faces in JSON

The forms in which faces are written. Several of them overlap; of the forms that fit a value, the
one named first is taken.
-/

namespace WebFonts

open Json (Problem Reading)

/-! ## Writing -/

/-- A listing as a lone value or as an array. -/
def Listing.toJson {α : Type} (write : α → Json) : Listing α → Json
  | lone a => write a
  | list as => .array (as.map write)

/-- A source as an object. -/
def Source.toJson : Source → Json
  | remote url format tech =>
    .object (("url", .string url) :: (Json.optionalField "format" .string format ++
      Json.optionalField "tech" .string tech))
  | installed name => .object [("name", .string name)]

/-- An entry as a string or as the object of its source. -/
def Entry.toJson : Entry → Json
  | shorthand text => .string text
  | source found => found.toJson

/-- A face as an object, from which fields that are not set are left out. -/
def Face.toJson (face : Face) : Json :=
  .object (("src", face.src.toJson Entry.toJson) ::
    (Json.optionalField "weight" .string face.weight ++
    Json.optionalField "style" .string face.style ++
    Json.optionalField "display" (fun display => .string display.keyword) face.display ++
    Json.optionalField "unicodeRange" .string face.unicodeRange ++
    Json.optionalField "featureSettings" .string face.featureSettings ++
    Json.optionalField "variationSettings" .string face.variationSettings))

/-- The faces of a family. -/
def Faces.toJson (faces : Faces) : Json := Listing.toJson Face.toJson faces

/-! ## Reading -/

/-- A lone value, or else a list of values. -/
def Listing.ofJson? {α : Type} (read : Json → Option α) (json : Json) : Option (Listing α) :=
  ((read json).map lone).or ((json.list? read).map list)

/-- The object of a file at an address. -/
def Source.remoteOfFields? (fields : List (String × Json)) : Option Source := do
  let url ← (← Json.field? fields "url").string?
  let format ← Json.optionalField? fields "format" Json.string?
  let tech ← Json.optionalField? fields "tech" Json.string?
  return remote url format tech

/-- The object of an installed font. -/
def Source.installedOfFields? (fields : List (String × Json)) : Option Source := do
  let name ← (← Json.field? fields "name").string?
  return installed name

/-- A source with an address, or else one with a name. Other fields do not count. -/
def Source.ofJson? : Json → Option Source
  | .object fields => (remoteOfFields? fields).or (installedOfFields? fields)
  | _ => none

/-- A string, or else a source. -/
def Entry.ofJson? (json : Json) : Option Entry :=
  (json.string?.map shorthand).or ((Source.ofJson? json).map source)

/-- The text of a numeral that stands for a weight: the shortest decimal of its value. Zero leaves
the weight unset. -/
def Face.weightText? (numeral : Numeral) : Option String :=
  match numeral.toDouble? with
  | none => none
  | some x =>
    if x.mantissa = 0 then none
    else some (String.ofList
      ((if numeral.negative then ['-'] else []) ++ x.shortest.positional))

/-- A weight, as a string or as a number. -/
def Face.weightOfJson? : Json → Option (Option String)
  | .null => some none
  | .string s => some (some s)
  | .number numeral => some (weightText? numeral)
  | _ => none

/-- A range of characters, as a string or as a list of strings that is not empty. -/
def Face.rangeOfJson? (json : Json) : Option (Option String) :=
  match json with
  | .null => some none
  | .string s => some (some s)
  | json =>
    match json.list? Json.string? with
    | some [] => none
    | some ranges =>
      some (some (String.ofList (List.intercalate ", ".toList (ranges.map String.toList))))
    | none => none

/-- A display strategy, as a string or as the only key of an object that holds null. -/
def Display.ofJson? : Json → Option Display
  | .string keyword => ofKeyword? keyword
  | .object [(keyword, .null)] => ofKeyword? keyword
  | _ => none

/-- A field of a face: its key and how a value for it is stored. -/
structure Face.Field where
  key : String
  store : Face → Json → Option Face

/-- The fields of a face in their order. -/
def Face.fields : List Face.Field :=
  [⟨"src", fun face json => do
      let src ← Listing.ofJson? Entry.ofJson? json
      return { face with src }⟩,
    ⟨"weight", fun face json => do
      let weight ← weightOfJson? json
      return { face with weight }⟩,
    ⟨"style", fun face json => do
      let style ← Json.optional? Json.string? json
      return { face with style }⟩,
    ⟨"display", fun face json => do
      let display ← Json.optional? Display.ofJson? json
      return { face with display }⟩,
    ⟨"unicodeRange", fun face json => do
      let unicodeRange ← rangeOfJson? json
      return { face with unicodeRange }⟩,
    ⟨"featureSettings", fun face json => do
      let featureSettings ← Json.optional? Json.string? json
      return { face with featureSettings }⟩,
    ⟨"variationSettings", fun face json => do
      let variationSettings ← Json.optional? Json.string? json
      return { face with variationSettings }⟩]

/-- Stores the fields that an object holds, each at most once. -/
def Face.storeFields (face : Face) (fields : List (String × Json)) : List Face.Field → Option Face
  | [] => some face
  | field :: rest =>
    match fields.filter (·.1 == field.key) with
    | [] => storeFields face fields rest
    | [(_, value)] => (field.store face value).bind fun face => storeFields face fields rest
    | _ => none

/-- Stores the items of an array, which must not be more than there are fields. -/
def Face.storeItems (face : Face) : List Json → List Face.Field → Option Face
  | [], _ => some face
  | _ :: _, [] => none
  | item :: items, field :: rest =>
    (field.store face item).bind fun face => storeItems face items rest

/-- A face, as an object or as an array of its fields in order. Only the sources must be
given. -/
def Face.ofJson? : Json → Option Face
  | .object given =>
    if given.any (·.1 == "src") then storeFields (ofSources (.list [])) given fields else none
  | .array (item :: items) => storeItems (ofSources (.list [])) (item :: items) fields
  | _ => none

/-- A lone face, or else a list of faces. -/
def Faces.ofJson? (json : Json) : Option Faces := Listing.ofJson? Face.ofJson? json

/-- Reads faces that stand in at most this many further containers. The whole value is read
first, so that a problem of the text comes before one of the faces. -/
def Faces.ofReading (room : Nat) (reading : Reading) : Except Problem Faces :=
  match reading.toJson room with
  | .error problem => .error problem
  | .ok json =>
    match Faces.ofJson? json with
    | some faces => .ok faces
    | none => .error .unsuitable

/-- Reads the faces that a text holds. -/
def Faces.parse (text : String) : Except Problem Faces :=
  Reading.run (Faces.ofReading Json.maxDepth) text

end WebFonts
