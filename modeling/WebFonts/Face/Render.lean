import WebFonts.Face.Basic

/-!
# Rules for faces

The `@font-face` rule that declares a face of a family.
-/

namespace WebFonts

namespace Face

/-- A declaration on a line of its own. -/
def descriptorLine (property : String) (value : List Char) : List Char :=
  "  ".toList ++ property.toList ++ ": ".toList ++ value ++ [';']

/-- The line of an optional descriptor, left out if the value is not set or empty. -/
def optionalLine (property : String) : Option String → List (List Char)
  | none => []
  | some value => if value.isEmpty then [] else [descriptorLine property value.toList]

/-- The lines of the rule. The name of the family stands between single quotes as it is, and the
display strategy is `swap` unless another one is set. -/
def lines (family : String) (face : Face) : List (List Char) :=
  ["@font-face \x7b".toList,
    descriptorLine "font-family" ('\'' :: (family.toList ++ ['\''])),
    descriptorLine "src" (Source.renderAll (face.src.toList.map Entry.toSource)),
    descriptorLine "font-display" (face.display.getD .swap).keyword.toList] ++
  optionalLine "unicode-range" face.unicodeRange ++
  optionalLine "font-weight" face.weight ++
  optionalLine "font-style" face.style ++
  optionalLine "font-feature-settings" face.featureSettings ++
  optionalLine "font-variation-settings" face.variationSettings ++
  ["\x7d".toList]

/-- The rule that declares a face of a family, without a line feed at its end. -/
def render (family : String) (face : Face) : String :=
  String.ofList (List.intercalate ['\n'] (face.lines family))

end Face

/-- The rules that declare the faces of a family, one for each face. -/
def Faces.render (family : String) (faces : Faces) : List String :=
  faces.toList.map (Face.render family)

end WebFonts
