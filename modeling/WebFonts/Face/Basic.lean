import WebFonts.Face.Source

/-!
# Font faces

A face is one variant of a font family: where its font is found, and for which text it is meant.
-/

namespace WebFonts

/-- A lone value or a list of values. A list of one value is not the same as a lone one. -/
inductive Listing (α : Type) where
  | lone (a : α)
  | list (as : List α)
  deriving DecidableEq, Repr

/-- The values of a listing in order. -/
def Listing.toList {α : Type} : Listing α → List α
  | lone a => [a]
  | list as => as

/-- What a browser shows while it loads a font. -/
inductive Display where
  | auto
  | block
  | swap
  | fallback
  | optional
  deriving DecidableEq, Repr

/-- The keyword of a display strategy. -/
def Display.keyword : Display → String
  | auto => "auto"
  | block => "block"
  | swap => "swap"
  | fallback => "fallback"
  | optional => "optional"

/-- The display strategy with a keyword, in lower case. -/
def Display.ofKeyword? (keyword : String) : Option Display :=
  [auto, block, swap, fallback, optional].find? (·.keyword == keyword)

/-- A source as it is written: in short, or in full. -/
inductive Entry where
  | shorthand (text : String)
  | source (source : Source)
  deriving DecidableEq, Repr

/-- The source that an entry stands for. -/
def Entry.toSource : Entry → Source
  | shorthand text => Source.ofShorthand text
  | source found => found

/-- A face with its descriptors, of which those that are not set are left out. -/
structure Face where
  src : Listing Entry
  weight : Option String
  style : Option String
  display : Option Display
  unicodeRange : Option String
  featureSettings : Option String
  variationSettings : Option String
  deriving DecidableEq, Repr

/-- A face of which only the sources are set. -/
def Face.ofSources (src : Listing Entry) : Face := ⟨src, none, none, none, none, none, none⟩

/-- The faces of a family. -/
abbrev Faces := Listing Face

end WebFonts
