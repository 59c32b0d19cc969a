import WebFonts.SourceMap.Mappings
import WebFonts.Text.Width

/-!
# Source maps

A source map leads from the positions of a generated text back to those of its source. The texts
generated here consist of an insertion followed by the whole of the source, their body.
-/

namespace WebFonts

/-- A source map, version 3. -/
structure SourceMap where
  version : UInt8
  /-- The name of the generated file. -/
  file : Option String
  sources : List String
  sourcesContent : List (Option String)
  names : List String
  mappings : String
  deriving DecidableEq, Repr

namespace SourceMap

/-- The line and column in the source of a generated position; the first segment of the line that
starts in that column gives them. -/
def sourceOf? (map : SourceMap) (line column : Nat) : Option (Nat × Nat) := do
  let lines ← readMappings map.mappings.toList
  let segments ← lines[line]?
  let segment ← segments.find? (·.generatedColumn == column)
  return (segment.sourceLine, segment.sourceColumn)

end SourceMap

/-- A text with another one inserted in front of it. -/
structure Prepended where
  body : String
  insertion : String
  deriving DecidableEq, Repr

namespace Prepended

open SourceMap Text

/-- A text with nothing in front of it. -/
def ofBody (body : String) : Prepended := ⟨body, ""⟩

/-- Inserts a text in front of all that was inserted before. -/
def prepend (text : Prepended) (more : String) : Prepended :=
  { text with insertion := more ++ text.insertion }

/-- Whether anything was inserted. -/
def isChanged (text : Prepended) : Bool := !text.insertion.isEmpty

/-- The whole text. -/
def display (text : Prepended) : String := text.insertion ++ text.body

/-- One segment for each character of a line of the body. -/
def textSegments (line generated column : Nat) : List Char → List Segment
  | [] => []
  | c :: rest =>
    ⟨generated, line, column⟩ ::
      textSegments line (generated + utf16Size c) (column + utf16Size c) rest

/-- The segments of lines of the body, of which the first has this number and starts in this
column of the generated text. -/
def bodySegments (line column : Nat) : List (List Char) → List (List Segment)
  | [] => []
  | text :: lines => textSegments line column 0 text :: bodySegments (line + 1) 0 lines

/-- The segments of the whole text. Inserted lines have none, and the first line of the body
begins where the last inserted line ends. -/
def segments (text : Prepended) : List (List Segment) :=
  let inserted := splitAt '\n' text.insertion.toList
  inserted.dropLast.map (fun _ => []) ++
    bodySegments 0 (utf16Width (inserted.getLastD [])) (splitAt '\n' text.body.toList)

/-- The source map of the whole text. It names one source, with its contents on request. -/
def sourceMap (text : Prepended) (source file : Option String) (content : Bool) : SourceMap :=
  { version := 3
    file := file
    sources := [source.getD ""]
    sourcesContent := if content then [some text.body] else []
    names := []
    mappings := String.ofList (writeMappings text.segments) }

end Prepended

end WebFonts
