import WebFonts.Proofs.Json.Written
import WebFonts.SourceMap.Json

/-! # Source maps as they are written

The text of a source map is read as that map. -/

namespace WebFonts.SourceMap

open Json (Reading)

theorem readable_ofOption (content : Option String) :
    (Json.ofOption .string content).Readable := by
  cases content <;> trivial

theorem optional_ofOption (content : Option String) :
    Reading.optional Reading.text (Json.ofOption .string content).toReading = .ok content := by
  cases content <;> rfl

theorem readable_toJson (map : SourceMap) : map.toJson.Readable := by
  refine Json.fieldsReadable_append.mpr ⟨Json.fieldsReadable_append.mpr ⟨?_, ?_⟩, ?_⟩
  · exact ⟨Json.isReadable_byte map.version, trivial⟩
  · exact Json.fieldsReadable_optionalField Json.readable_string "file" map.file
  · exact ⟨Json.itemsReadable_map Json.readable_string map.sources,
      Json.itemsReadable_map readable_ofOption map.sourcesContent,
      Json.itemsReadable_map Json.readable_string map.names, trivial, trivial⟩

theorem ofReading_toReading (map : SourceMap) : ofReading map.toJson.toReading = .ok map := by
  obtain ⟨version, file, sources, contents, names, mappings⟩ := map
  have htexts (texts : List String) : Reading.list Reading.text
      (Json.array (texts.map .string)).toReading = .ok texts := Json.list_map (fun s => rfl) texts
  have hcontents := Json.list_map optional_ofOption contents
  simp only [Json.toReading] at htexts hcontents
  cases file <;>
    simp [ofReading, toJson, Json.optionalField, Json.ofNat, Json.toReading, Json.fieldsToEntries,
      Reading.record, Json.RecordField.storeEntries, fields, Json.byte_ofNat, htexts, hcontents,
      Reading.optional, Reading.text, bind, Except.bind, pure, Except.pure, Except.map]

/-- A reader of the text of a source map meets that map. -/
theorem run_render (map : SourceMap) : Reading.run ofReading map.toJson.render = .ok map := by
  rw [Json.run_render ofReading (readable_toJson map), ofReading_toReading map]

/-- Every map is read from its text as it is, so no two maps have the same text. -/
theorem parse_of_written : (∀ map : SourceMap, parse map.toJson.render = .ok map) ∧
    Function.Injective fun map : SourceMap => map.toJson.render := by
  have hparse (map : SourceMap) : parse map.toJson.render = .ok map := run_render map
  refine ⟨hparse, fun map other hsame => ?_⟩
  have hread := congrArg parse hsame
  dsimp only at hread
  rw [hparse, hparse] at hread
  exact Except.ok.inj hread

end WebFonts.SourceMap
