import WebFonts.Face.Json
import WebFonts.Injection.Order
import WebFonts.Injection.Resolver

/-!
# Configurations

Which faces each family has, and in which order rules are injected, as a user writes it down.
-/

namespace WebFonts

open Json (RecordField Problem Reading)

/-- A family with its faces. -/
structure Family where
  name : String
  faces : Faces
  deriving DecidableEq, Repr

/-- Families and the order of their rules. -/
structure Config where
  families : List Family
  order : Order
  deriving DecidableEq, Repr

/-- No families, and the order of completion. -/
def Config.standard : Config := ⟨[], .completion⟩

/-! ## JSON -/

/-- A family as an object. -/
def Family.toJson (family : Family) : Json :=
  .object [("name", .string family.name), ("faces", family.faces.toJson)]

/-- A configuration as an object. -/
def Config.toJson (config : Config) : Json :=
  .object [("families", .array (config.families.map Family.toJson)),
    ("order", .string config.order.name)]

/-- The fields of a family in their order. Faces stand in three containers: those of the
configuration, of its families and of their own. -/
def Family.fields : List (RecordField Family) :=
  [⟨"name", true, fun family reading => do
      let name ← reading.text
      return { family with name }⟩,
    ⟨"faces", true, fun family reading => do
      let faces ← Faces.ofReading (Json.maxDepth - 3) reading
      return { family with faces }⟩]

/-- Reads a family. -/
def Family.ofReading (reading : Reading) : Except Problem Family :=
  reading.record fields ⟨"", .list []⟩

/-- The fields of a configuration in their order. -/
def Config.fields : List (RecordField Config) :=
  [⟨"families", false, fun config reading => do
      let families ← reading.list Family.ofReading
      return { config with families }⟩,
    ⟨"order", false, fun config reading => do
      let order ← reading.choice Order.ofName?
      return { config with order }⟩]

/-- Reads a configuration. -/
def Config.ofReading (reading : Reading) : Except Problem Config :=
  reading.record fields standard

/-- Reads the configuration that a text holds. -/
def Config.parse (text : String) : Except Problem Config := Reading.run Config.ofReading text

/-! ## Checks -/

/-- What is wrong with a configuration. -/
inductive ConfigError where
  | blankName
  | noFaces (name : String)
  | repeatedName (name : String)
  deriving DecidableEq, Repr

/-- The wording of an error. -/
def ConfigError.message : ConfigError → String
  | blankName => "Invalid configuration: family name must not be empty"
  | noFaces name => "Invalid configuration: family '" ++ name ++ "' has no faces"
  | repeatedName name =>
    "Invalid configuration: family '" ++ name ++ "' is configured more than once"

/-- The name of a family without the blanks around it. -/
def Family.trimmedName (family : Family) : String := String.ofList (Text.trim family.name.toList)

/-- Adds families to a table under their trimmed names, if each has a name of its own and at least
one face. -/
def Catalogue.addFamilies (catalogue : Catalogue) : List Family → Except ConfigError Catalogue
  | [] => .ok catalogue
  | family :: families =>
    if family.trimmedName.isEmpty then .error .blankName
    else if family.faces.toList.isEmpty then .error (.noFaces family.trimmedName)
    else if catalogue.contains family.trimmedName then .error (.repeatedName family.trimmedName)
    else (catalogue.add family.trimmedName family.faces).addFamilies families

/-- The table of the families of a configuration. -/
def Config.catalogue (config : Config) : Except ConfigError Catalogue :=
  Catalogue.empty.addFamilies config.families

end WebFonts
