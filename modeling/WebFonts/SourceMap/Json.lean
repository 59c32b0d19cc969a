import WebFonts.Json.Record
import WebFonts.SourceMap.Basic

/-!
# Source maps in JSON
-/

namespace WebFonts.SourceMap

open Json (RecordField Problem Reading)

/-- A source map as an object; the name of the file is left out if there is none. -/
def toJson (map : SourceMap) : Json :=
  .object ([("version", Json.ofNat map.version.toNat)] ++
    Json.optionalField "file" .string map.file ++
    [("sources", .array (map.sources.map .string)),
      ("sourcesContent", .array (map.sourcesContent.map (Json.ofOption .string))),
      ("names", .array (map.names.map .string)),
      ("mappings", .string map.mappings)])

/-- The fields of a source map in their order. -/
def fields : List (RecordField SourceMap) :=
  [⟨"version", true, fun map reading => do
      let version ← reading.byte
      return { map with version }⟩,
    ⟨"file", false, fun map reading => do
      let file ← reading.optional Reading.text
      return { map with file }⟩,
    ⟨"sources", true, fun map reading => do
      let sources ← reading.list Reading.text
      return { map with sources }⟩,
    ⟨"sourcesContent", false, fun map reading => do
      let sourcesContent ← reading.list (Reading.optional Reading.text)
      return { map with sourcesContent }⟩,
    ⟨"names", false, fun map reading => do
      let names ← reading.list Reading.text
      return { map with names }⟩,
    ⟨"mappings", true, fun map reading => do
      let mappings ← reading.text
      return { map with mappings }⟩]

/-- Reads a source map. -/
def ofReading (reading : Reading) : Except Problem SourceMap :=
  reading.record fields ⟨0, none, [], [], [], ""⟩

/-- Reads the source map that a text holds. -/
def parse (text : String) : Except Problem SourceMap := Reading.run ofReading text

end WebFonts.SourceMap
