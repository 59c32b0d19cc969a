import WebFonts.Text.Split

/-!
# Font formats

The file name extensions of font files and the names that a stylesheet has for their formats.
-/

namespace WebFonts.Format

/-- Extensions, without their dot, and the formats they stand for. -/
def table : List (String × String) :=
  [("otf", "opentype"), ("woff", "woff"), ("woff2", "woff2"), ("ttf", "truetype"),
    ("eot", "embedded-opentype"), ("svg", "svg")]

/-- The format that an extension stands for. -/
def ofExtension? (extension : String) : Option String :=
  (table.find? (·.1 == extension)).map (·.2)

/-- The extension of a format, with its dot. -/
def extension? (format : String) : Option String :=
  (table.find? (·.2 == format)).map fun entry => "." ++ entry.1

/-- The extension that the last segment of a path ends with. There is one only if something stands
in front of its dot. -/
def pathExtension? (path : List Char) : Option (List Char) :=
  match Text.splitLast? '.' path with
  | none => none
  | some (stem, extension) =>
    if stem.isEmpty || extension.isEmpty || extension.contains '/' then none else some extension

/-- The format inferred from the extension of a path. -/
def ofPath? (path : String) : Option String :=
  (pathExtension? path.toList).bind fun extension => ofExtension? (String.ofList extension)

end WebFonts.Format
