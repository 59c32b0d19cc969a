import Mathlib.Data.List.Forall2
import WebFonts.Proofs.Json.Written
import WebFonts.Face.Json

/-! # Faces in a list

A list of faces could be a face as well, whose fields stand in their order: its first item would be
the sources of that face. Objects can only be taken so where there is one of them, which is a source
too. -/

namespace WebFonts

open Json (Problem Reading)

/-! ## Values that texts hold -/

theorem Faces.ofReading_eq_ok_iff {room : Nat} {reading : Reading} {json : Json} {faces : Faces}
    (h : reading.toJson room = .ok json) :
    ofReading room reading = .ok faces ↔ ofJson? json = some faces := by
  simp only [ofReading, h]
  cases ofJson? json <;> simp

/-- A value that is not too deep is read from its text as it is. -/
theorem Json.parse_render {json : Json} (h : json.Readable) (hdepth : json.depth ≤ maxDepth) :
    parse json.render = .ok json := by
  rw [parse, run_render _ h, toJson_toReading json hdepth]

/-- The faces that a text holds are those of its value. -/
theorem Faces.parse_eq_ok_iff {text : String} {json : Json} {faces : Faces}
    (h : Json.parse text = .ok json) : parse text = .ok faces ↔ ofJson? json = some faces := by
  rw [Json.parse, Reading.run] at h
  rw [parse, Reading.run]
  generalize Reading.value (2 * text.length + 1) text.toList = found at h ⊢
  obtain ⟨reading, next⟩ := found
  cases hvalue : reading.toJson Json.maxDepth with
  | error problem => simp [hvalue, bind, Except.bind] at h
  | ok value =>
    cases next with
    | error problem => simp [hvalue, bind, Except.bind] at h
    | ok rest =>
      by_cases hrest : (Json.skipSpace rest).isEmpty = true
      · simp only [hvalue, hrest, bind, Except.bind, pure, Except.pure, ↓reduceIte,
          Except.ok.injEq] at h
        subst h
        rw [← ofReading_eq_ok_iff hvalue]
        cases hfaces : ofReading Json.maxDepth reading <;>
          simp [hfaces, hrest, bind, Except.bind, pure, Except.pure]
      · simp [hvalue, hrest, bind, Except.bind, throw, throwThe, MonadExceptOf.throw] at h

/-! ## Objects in a list -/

def Json.isObject : Json → Bool
  | object _ => true
  | _ => false

/-- An object is a listing only of itself. -/
theorem Listing.ofJson?_of_isObject {α : Type} (read : Json → Option α) {json : Json}
    (h : json.isObject = true) : ofJson? read json = (read json).map lone := by
  cases json with
  | object given => simp [ofJson?, Json.list?]
  | _ => contradiction

theorem Face.ofJson?_of_lone {json : Json} {face : Face} (h : json.isObject = true)
    (hface : Faces.ofJson? json = some (.lone face)) : ofJson? json = some face := by
  rw [Faces.ofJson?, Listing.ofJson?_of_isObject ofJson? h, Option.map_eq_some_iff] at hface
  obtain ⟨found, hfound, he⟩ := hface
  rw [hfound, Listing.lone.inj he]

theorem Entry.ofJson?_of_isObject {json : Json} (h : json.isObject = true) :
    ofJson? json = (Source.ofJson? json).map source := by
  cases json with
  | object given => simp [ofJson?, Json.string?]
  | _ => contradiction

theorem Face.weightOfJson?_of_isObject {json : Json} (h : json.isObject = true) :
    weightOfJson? json = none := by
  cases json with
  | object given => rfl
  | _ => contradiction

/-- An object alone in an array is the source of a face, if it is a source. -/
theorem Face.ofJson?_singleton {json : Json} (h : json.isObject = true) :
    ofJson? (.array [json]) =
      (Source.ofJson? json).map fun source => ofSources (.lone (.source source)) := by
  simp only [ofJson?, storeItems, fields, Listing.ofJson?_of_isObject _ h,
    Entry.ofJson?_of_isObject h]
  cases Source.ofJson? json <;> rfl

/-- The second item of an array would be a weight, which is no object. -/
theorem Face.ofJson?_cons_cons (first : Json) {second : Json} (h : second.isObject = true)
    (others : List Json) : ofJson? (.array (first :: second :: others)) = none := by
  simp only [ofJson?, storeItems, fields]
  cases Listing.ofJson? Entry.ofJson? first with
  | none => rfl
  | some src => simp [weightOfJson?_of_isObject h]

/-- Objects that are read as one face each. -/
def Json.AreFaces (values : List Json) (faces : List Face) : Prop :=
  List.Forall₂ (fun value face => value.isObject = true ∧
    Faces.ofJson? value = some (.lone face)) values faces

theorem Json.AreFaces.mapM_eq {values : List Json} {faces : List Face}
    (h : AreFaces values faces) : values.mapM Face.ofJson? = some faces := by
  induction h with
  | nil => rfl
  | cons hvalue _ ih => simp [List.mapM_cons, Face.ofJson?_of_lone hvalue.1 hvalue.2, ih]

/-- Objects in an array that are read as one face each are taken for a single face exactly if there
is only one of them and it is a source. -/
theorem Json.AreFaces.face_eq {values : List Json} {faces : List Face} (h : AreFaces values faces) :
    Face.ofJson? (.array values) =
      if values.length = 1 then
        (values.head?.bind Source.ofJson?).map fun source => .ofSources (.lone (.source source))
      else none := by
  cases h with
  | nil => rfl
  | cons hvalue hvalues =>
    cases hvalues with
    | nil => simpa using Face.ofJson?_singleton hvalue.1
    | cons hvalue' _ => simpa using Face.ofJson?_cons_cons _ hvalue'.1 _

theorem Json.AreFaces.faces_eq {values : List Json} {faces : List Face}
    (h : AreFaces values faces) :
    Faces.ofJson? (.array values) =
      ((Face.ofJson? (.array values)).map Listing.lone).or (some (.list faces)) := by
  simp [Faces.ofJson?, Listing.ofJson?, Json.list?, h.mapM_eq]

/-- A list of objects that are read as one face each is read as the list of these faces, unless it
is one object that is a source too: then it is read as a single face with that source. -/
theorem Faces.parse_list {text : String} {values : List Json} {faces : List Face}
    (htext : Json.parse text = .ok (.array values)) (h : Json.AreFaces values faces) :
    (parse text = .ok (.list faces) ↔ ∀ value, values = [value] → Source.ofJson? value = none) ∧
      ∀ value source, values = [value] → Source.ofJson? value = some source →
        parse text = .ok (.lone (.ofSources (.lone (.source source)))) := by
  simp only [parse_eq_ok_iff htext, h.faces_eq, h.face_eq]
  constructor
  · constructor
    · rintro hlist value rfl
      cases hsource : Source.ofJson? value with
      | none => rfl
      | some source => simp [hsource] at hlist
    · intro hnone
      by_cases hlength : values.length = 1
      · obtain ⟨value, rfl⟩ := List.length_eq_one_iff.mp hlength
        simp [hnone value rfl]
      · simp [hlength]
  · rintro value source rfl hsource
    simp [hsource]

/-- Two objects that could be sources as well, of which the second gives no source to its face. -/
def twoValues : List Json :=
  [.object [("src", .string "/a.woff2"), ("url", .string "/b.woff2")],
    .object [("name", .string "N"), ("src", .array []), ("style", .string "")]]

def twoFaces : List Face :=
  [.ofSources (.lone (.shorthand "/a.woff2")),
    { Face.ofSources (.list []) with style := some "" }]

def twoValuesText : String :=
  "[\x7b\"src\":\"/a.woff2\",\"url\":\"/b.woff2\"\x7d," ++
    "\x7b\"name\":\"N\",\"src\":[],\"style\":\"\"\x7d]"

/-- Two objects are a list of two faces, whatever else they could be. -/
theorem Faces.parse_list_two :
    Json.parse twoValuesText = .ok (.array twoValues) ∧ Json.AreFaces twoValues twoFaces ∧
      Faces.parse twoValuesText = .ok (.list twoFaces) := by
  have htext : twoValuesText = (Json.array twoValues).render := by decide +kernel
  have hparse : Json.parse twoValuesText = .ok (.array twoValues) := by
    rw [htext]
    exact Json.parse_render
      (by simp [twoValues, Json.Readable, Json.ItemsReadable, Json.FieldsReadable])
      (by decide +kernel)
  have hfaces : Json.AreFaces twoValues twoFaces :=
    .cons ⟨rfl, rfl⟩ (.cons ⟨rfl, rfl⟩ .nil)
  refine ⟨hparse, hfaces, (Faces.parse_list hparse hfaces).1.mpr ?_⟩
  intro value he
  cases he

def namedValue : Json := .object [("src", .string "/a.woff2"), ("name", .string "Regular")]

def namedFace : Face := .ofSources (.lone (.shorthand "/a.woff2"))

/-- Read alone, an object with a name is a face with its own source. In a list of one it is taken
for the source of a face, which is then an installed font. -/
theorem Faces.parse_list_named :
    Json.parse "[\x7b\"src\":\"/a.woff2\",\"name\":\"Regular\"\x7d]" =
        .ok (.array [namedValue]) ∧
      namedValue.isObject = true ∧ Faces.ofJson? namedValue = some (.lone namedFace) ∧
      Faces.parse "[\x7b\"src\":\"/a.woff2\",\"name\":\"Regular\"\x7d]" =
        .ok (.lone (.ofSources (.lone (.source (.installed "Regular"))))) ∧
      Faces.parse "[\x7b\"src\":\"/a.woff2\",\"name\":\"Regular\"\x7d]" ≠
        .ok (.list [namedFace]) := by
  have htext : "[\x7b\"src\":\"/a.woff2\",\"name\":\"Regular\"\x7d]" =
      (Json.array [namedValue]).render := by decide +kernel
  have hparse : Json.parse "[\x7b\"src\":\"/a.woff2\",\"name\":\"Regular\"\x7d]" =
      .ok (.array [namedValue]) := by
    rw [htext]
    exact Json.parse_render
      (by simp [namedValue, Json.Readable, Json.ItemsReadable, Json.FieldsReadable])
      (by decide +kernel)
  have hlone : Faces.parse "[\x7b\"src\":\"/a.woff2\",\"name\":\"Regular\"\x7d]" =
      .ok (.lone (.ofSources (.lone (.source (.installed "Regular"))))) :=
    (Faces.parse_eq_ok_iff hparse).mpr rfl
  refine ⟨hparse, rfl, rfl, hlone, ?_⟩
  rw [hlone]
  simp

end WebFonts
