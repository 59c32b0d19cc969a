import WebFonts.Config
import WebFonts.Proofs.Json.Written

/-! # Configurations as they are written

A configuration is read from its text as it is. The forms of its parts overlap, but no form that is
tried before another fits what is written in the latter. -/

namespace WebFonts

open Json (Reading optionalField filter_optionalField)

/-! ## Listings -/

/-- Where a reader takes each value as it is written and takes no array of them, it takes listings
of these as they are written. -/
theorem Listing.ofJson?_toJson {α : Type} {write : α → Json} {read : Json → Option α}
    (h : ∀ a, read (write a) = some a) (hlist : ∀ as : List α, read (.array (as.map write)) = none)
    (listing : Listing α) : ofJson? read (listing.toJson write) = some listing := by
  cases listing with
  | lone a => simp [ofJson?, toJson, h]
  | list as =>
    have hitems : (as.map write).mapM read = some as := by
      induction as with
      | nil => rfl
      | cons a as ih => simp [List.mapM_cons, h, ih]
    simp [ofJson?, toJson, hlist, Json.list?, hitems]

/-! ## Sources -/

theorem Json.optionalField?_of_filter (a : Option String) {fields : List (String × Json)}
    {key : String} (h : fields.filter (·.1 == key) = optionalField key .string a) :
    Json.optionalField? fields key Json.string? = some a := by
  rw [Json.optionalField?, h]
  cases a <;> rfl

theorem Source.ofJson?_toJson (source : Source) : ofJson? source.toJson = some source := by
  cases source with
  | installed name => rfl
  | remote url format tech =>
    have hurl : Json.field? (("url", .string url) :: (optionalField "format" .string format ++
        optionalField "tech" .string tech)) "url" = some (.string url) := by
      simp [Json.field?, filter_optionalField]
    have hformat : Json.optionalField? (("url", .string url) ::
        (optionalField "format" .string format ++ optionalField "tech" .string tech)) "format"
          Json.string? = some format :=
      Json.optionalField?_of_filter format (by simp [filter_optionalField])
    have htech : Json.optionalField? (("url", .string url) ::
        (optionalField "format" .string format ++ optionalField "tech" .string tech)) "tech"
          Json.string? = some tech :=
      Json.optionalField?_of_filter tech (by simp [filter_optionalField])
    simp [ofJson?, toJson, remoteOfFields?, hurl, hformat, htech, Json.string?]

theorem Entry.ofJson?_toJson (entry : Entry) : ofJson? entry.toJson = some entry := by
  cases entry with
  | shorthand text => rfl
  | source found =>
    have hstring : found.toJson.string? = none := by
      cases found <;> rfl
    simp [ofJson?, toJson, hstring, Source.ofJson?_toJson]

theorem Entry.ofJson?_array (items : List Json) : ofJson? (.array items) = none := rfl

theorem Entry.ofJson?_listing (src : Listing Entry) :
    Listing.ofJson? ofJson? (src.toJson toJson) = some src :=
  Listing.ofJson?_toJson ofJson?_toJson (fun as => ofJson?_array (as.map toJson)) src

/-! ## Faces -/

/-- A field that is set has its value stored, and one that is left out stays unset. -/
theorem Face.storeFields_optional {α : Type} {write : α → Json} {face next : Face}
    {given : List (String × Json)} {field : Field} {a : Option α}
    (hgiven : given.filter (·.1 == field.key) = optionalField field.key write a)
    (hunset : a = none → face = next)
    (hset : ∀ x, a = some x → field.store face (write x) = some next)
    (rest : List Field) :
    face.storeFields given (field :: rest) = next.storeFields given rest := by
  rw [storeFields, hgiven]
  cases a with
  | none => rw [hunset rfl]; rfl
  | some x => simp [optionalField, hset x rfl]

/-- The fields of the object for a face. -/
def Face.given (face : Face) : List (String × Json) :=
  ("src", face.src.toJson Entry.toJson) ::
    (optionalField "weight" .string face.weight ++ optionalField "style" .string face.style ++
    optionalField "display" (fun display => .string display.keyword) face.display ++
    optionalField "unicodeRange" .string face.unicodeRange ++
    optionalField "featureSettings" .string face.featureSettings ++
    optionalField "variationSettings" .string face.variationSettings)

theorem Face.toJson_eq (face : Face) : face.toJson = .object face.given := rfl

theorem Face.storeFields_given (src : Listing Entry) (weight style : Option String)
    (display : Option Display) (range features variations : Option String) :
    (ofSources (.list [])).storeFields
        (given ⟨src, weight, style, display, range, features, variations⟩) fields =
      some ⟨src, weight, style, display, range, features, variations⟩ := by
  let given := Face.given ⟨src, weight, style, display, range, features, variations⟩
  have hsrc : given.filter (·.1 == "src") = [("src", src.toJson Entry.toJson)] := by
    simp [given, Face.given, filter_optionalField]
  calc (ofSources (.list [])).storeFields given fields
    _ = (ofSources src).storeFields given (fields.drop 1) := by
      rw [fields, storeFields, hsrc]
      simp [Entry.ofJson?_listing, ofSources]
    _ = storeFields ⟨src, weight, none, none, none, none, none⟩ given (fields.drop 2) :=
      @storeFields_optional _ .string _ _ given _ weight
        (by simp [given, Face.given, filter_optionalField]) (by rintro rfl; rfl)
        (by rintro s rfl; rfl) (fields.drop 2)
    _ = storeFields ⟨src, weight, style, none, none, none, none⟩ given (fields.drop 3) :=
      @storeFields_optional _ .string _ _ given _ style
        (by simp [given, Face.given, filter_optionalField]) (by rintro rfl; rfl)
        (by rintro s rfl; rfl) (fields.drop 3)
    _ = storeFields ⟨src, weight, style, display, none, none, none⟩ given (fields.drop 4) :=
      @storeFields_optional _ (fun display => .string display.keyword) _ _ given _ display
        (by simp [given, Face.given, filter_optionalField]) (by rintro rfl; rfl)
        (by rintro d rfl; cases d <;> rfl) (fields.drop 4)
    _ = storeFields ⟨src, weight, style, display, range, none, none⟩ given (fields.drop 5) :=
      @storeFields_optional _ .string _ _ given _ range
        (by simp [given, Face.given, filter_optionalField]) (by rintro rfl; rfl)
        (by rintro s rfl; rfl) (fields.drop 5)
    _ = storeFields ⟨src, weight, style, display, range, features, none⟩ given (fields.drop 6) :=
      @storeFields_optional _ .string _ _ given _ features
        (by simp [given, Face.given, filter_optionalField]) (by rintro rfl; rfl)
        (by rintro s rfl; rfl) (fields.drop 6)
    _ = storeFields ⟨src, weight, style, display, range, features, variations⟩ given
        (fields.drop 7) :=
      @storeFields_optional _ .string _ _ given _ variations
        (by simp [given, Face.given, filter_optionalField]) (by rintro rfl; rfl)
        (by rintro s rfl; rfl) (fields.drop 7)
    _ = some ⟨src, weight, style, display, range, features, variations⟩ := rfl

theorem Face.ofJson?_toJson (face : Face) : ofJson? face.toJson = some face := by
  obtain ⟨src, weight, style, display, range, features, variations⟩ := face
  rw [toJson_eq]
  exact storeFields_given src weight style display range features variations

/-- No list of faces is taken for a face. -/
theorem Face.ofJson?_array (faces : List Face) : ofJson? (.array (faces.map toJson)) = none := by
  cases faces with
  | nil => rfl
  | cons face faces =>
    have hentry : Entry.ofJson? face.toJson = none := by
      simp [Entry.ofJson?, toJson, Json.string?, Source.ofJson?, Source.remoteOfFields?,
        Source.installedOfFields?, Json.field?, filter_optionalField]
    have hsrc : Listing.ofJson? Entry.ofJson? face.toJson = none := by
      rw [Listing.ofJson?, hentry]
      rfl
    simp [ofJson?, storeItems, fields, hsrc]

theorem Faces.ofJson?_toJson (faces : Faces) : ofJson? faces.toJson = some faces :=
  Listing.ofJson?_toJson Face.ofJson?_toJson Face.ofJson?_array faces

/-! ## Values of faces -/

theorem Listing.readable_toJson {α : Type} {write : α → Json} (h : ∀ a, (write a).Readable)
    (listing : Listing α) : (listing.toJson write).Readable := by
  cases listing with
  | lone a => exact h a
  | list as => exact Json.itemsReadable_map h as

theorem Listing.depth_toJson_le {α : Type} {write : α → Json} {n : Nat}
    (h : ∀ a, (write a).depth ≤ n) (listing : Listing α) :
    (listing.toJson write).depth ≤ n + 1 := by
  cases listing with
  | lone a => exact Nat.le_succ_of_le (h a)
  | list as => exact Nat.succ_le_succ (Json.itemsDepth_map_le h as)

theorem Entry.readable_toJson (entry : Entry) : entry.toJson.Readable := by
  rcases entry with text | ⟨url, format, tech⟩ | name
  · trivial
  · exact ⟨trivial, Json.fieldsReadable_append.mpr
      ⟨Json.fieldsReadable_optionalField Json.readable_string "format" format,
        Json.fieldsReadable_optionalField Json.readable_string "tech" tech⟩⟩
  · exact ⟨trivial, trivial⟩

theorem Entry.depth_toJson_le (entry : Entry) : entry.toJson.depth ≤ 1 := by
  rcases entry with text | ⟨url, format, tech⟩ | name
  · exact Nat.zero_le 1
  · refine Nat.succ_le_succ (Nat.max_le.mpr ⟨Nat.le_refl 0, ?_⟩)
    refine Json.fieldsDepth_append_le.mpr ⟨?_, ?_⟩
    · exact Json.fieldsDepth_optionalField_le (Json.depth_string_le 0) "format" format
    · exact Json.fieldsDepth_optionalField_le (Json.depth_string_le 0) "tech" tech
  · exact Nat.le_refl 1

theorem Face.readable_toJson (face : Face) : face.toJson.Readable := by
  have hsrc := Listing.readable_toJson Entry.readable_toJson face.src
  refine ⟨hsrc, ?_⟩
  simp only [Json.fieldsReadable_append]
  simp [Json.fieldsReadable_optionalField, Json.readable_string]

theorem Face.depth_toJson_le (face : Face) : face.toJson.depth ≤ 3 := by
  have hsrc := Listing.depth_toJson_le Entry.depth_toJson_le face.src
  refine Nat.succ_le_succ (Nat.max_le.mpr ⟨hsrc, ?_⟩)
  simp only [Json.fieldsDepth_append_le]
  simp [Json.fieldsDepth_optionalField_le, Json.depth_string_le]

/-- Faces are read as they are written. -/
theorem Faces.ofReading_toReading (faces : Faces) {room : Nat} (hroom : 4 ≤ room) :
    ofReading room faces.toJson.toReading = .ok faces := by
  have hdepth : faces.toJson.depth ≤ room :=
    Nat.le_trans (Listing.depth_toJson_le Face.depth_toJson_le faces) hroom
  rw [ofReading, Json.toJson_toReading faces.toJson hdepth]
  simp only [Faces.ofJson?_toJson]

/-! ## Families and their configuration -/

theorem Family.ofReading_toReading (family : Family) :
    ofReading family.toJson.toReading = .ok family := by
  have hfaces := Faces.ofReading_toReading family.faces (by decide : 4 ≤ Json.maxDepth - 3)
  simp [ofReading, toJson, Json.toReading, Json.fieldsToEntries, Reading.record,
    Json.RecordField.storeEntries, fields, Reading.text, hfaces, bind, Except.bind, pure,
    Except.pure]

theorem Family.readable_toJson (family : Family) : family.toJson.Readable :=
  ⟨trivial, Listing.readable_toJson Face.readable_toJson family.faces, trivial⟩

theorem Order.choice_name (order : Order) :
    Reading.choice Order.ofName? (.string (.ok order.name)) = .ok order := by
  cases order <;> rfl

theorem Config.ofReading_toReading (config : Config) :
    ofReading config.toJson.toReading = .ok config := by
  have hfamilies := Json.list_map Family.ofReading_toReading config.families
  have horder := Order.choice_name config.order
  simp only [Json.toReading] at hfamilies
  simp [ofReading, toJson, Json.toReading, Json.fieldsToEntries, Reading.record,
    Json.RecordField.storeEntries, fields, hfamilies, horder, bind, Except.bind, pure,
    Except.pure]

theorem Config.readable_toJson (config : Config) : config.toJson.Readable :=
  ⟨Json.itemsReadable_map Family.readable_toJson config.families, trivial, trivial⟩

/-- Every configuration is read from its text as it is. -/
theorem Config.parse_render_toJson (config : Config) :
    parse config.toJson.render = .ok config := by
  rw [parse, Json.run_render ofReading (readable_toJson config), ofReading_toReading config]

end WebFonts
