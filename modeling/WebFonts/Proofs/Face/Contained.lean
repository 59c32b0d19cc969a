import WebFonts.Proofs.Css.Contained
import WebFonts.Proofs.Face.Reading

/-! # Faces whose texts keep to themselves

Where the texts of a face do not reach out of their quotes, parentheses and lines, its rule is read
as one block with a declaration for each line. -/

namespace WebFonts

open Css Text

/-- Whether a text can stand between two quotes as it is. -/
def isQuotableIn (quote : Char) (text : String) : Bool :=
  text.toList.all fun c => c != quote && c != '\\' && c != '\n'

/-- Whether addresses and names fit between double quotes, and hints in parentheses. -/
def Source.isContained : Source → Bool
  | .remote url format tech =>
    isQuotableIn '"' url && format.all (fun hint => Css.isContained [')'] hint.toList) &&
      tech.all fun hint => Css.isContained [')'] hint.toList
  | .installed name => isQuotableIn '"' name

/-- A text that stands for a source is its address or its name. -/
def Entry.isContained : Entry → Bool
  | .shorthand text => isQuotableIn '"' text
  | .source found => found.isContained

namespace Face

/-- The descriptors of a face whose values are written as they are, in the order of its rule. -/
def optionals (face : Face) : List (String × Option String) :=
  [("unicode-range", face.unicodeRange), ("font-weight", face.weight), ("font-style", face.style),
    ("font-feature-settings", face.featureSettings),
    ("font-variation-settings", face.variationSettings)]

/-- Whether no text of a face reaches out of its place in the rule. -/
def isContained (face : Face) : Bool :=
  face.src.toList.all Entry.isContained &&
    face.optionals.all fun descriptor =>
      descriptor.2.all fun value => Css.isContained [] value.toList

end Face

/-! ## Sources -/

theorem forall_of_isQuotableIn {quote : Char} {text : String}
    (h : isQuotableIn quote text = true) :
    ∀ c ∈ text.toList, c ≠ quote ∧ c ≠ '\\' ∧ c ≠ '\n' := by
  simp only [isQuotableIn, List.all_eq_true, Bool.and_eq_true, bne_iff_ne] at h
  intro c hc
  obtain ⟨⟨hquote, hslash⟩, hline⟩ := h c hc
  exact ⟨hquote, hslash, hline⟩

theorem Format.isContained_ofPath? {path format : String}
    (h : Format.ofPath? path = some format) : isContained [')'] format.toList = true := by
  obtain ⟨extension, -, h⟩ := Option.bind_eq_some_iff.mp h
  obtain ⟨entry, hentry, rfl⟩ := Option.map_eq_some_iff.mp h
  have htable : ∀ entry ∈ Format.table, isContained [')'] entry.2.toList = true := by decide
  exact htable entry (List.mem_of_find?_eq_some hentry)

theorem Entry.isContained_toSource {entry : Entry} (h : entry.isContained = true) :
    entry.toSource.isContained = true := by
  cases entry with
  | source found => exact h
  | shorthand text =>
    rw [Entry.toSource, Source.ofShorthand]
    split
    · have hformat : (Format.ofPath? text).all
          (fun hint => Css.isContained [')'] hint.toList) = true := by
        cases hfound : Format.ofPath? text with
        | none => rfl
        | some format => exact Format.isContained_ofPath? hfound
      have htext : isQuotableIn '"' text = true := h
      simp [Source.isContained, htext, hformat]
    · exact h

/-- A word with a text in parentheses behind it. -/
theorem Passes.call {word inner : List Char} (hword : isContained [] word = true)
    (hinner : isContained [')'] inner = true) : Passes [] (word ++ '(' :: (inner ++ [')'])) :=
  (passes_of_isContained (by decide) hword).append
    (passes_of_isContained (by decide) hinner).parentheses (by simp)

theorem Source.passes_renderHint {name : String}
    (hname : Css.isContained [] (' ' :: name.toList) = true) {hint : Option String}
    (hhint : hint.all (fun text => Css.isContained [')'] text.toList) = true) :
    Passes [] (renderHint name hint) := by
  cases hint with
  | none => exact .nil []
  | some hint => exact Passes.call hname hhint

theorem Source.head?_renderHint (name : String) (hint : Option String) :
    (renderHint name hint).head? ≠ some '*' := by
  cases hint <;> simp [renderHint]

/-- A text in double quotes, as the only argument of a function. -/
def quotedArgument (text : String) : List Char := '"' :: (text.toList ++ ['"'])

theorem isContained_quotedArgument {text : String} (h : isQuotableIn '"' text = true) :
    isContained [')'] (quotedArgument text) = true :=
  isContained_quoted rfl (forall_of_isQuotableIn h) [')']

theorem Source.render_installed (name : String) :
    (installed name).render = "local".toList ++ '(' :: (quotedArgument name ++ [')']) := by
  have hrender : (installed name).render = "local(\"".toList ++ name.toList ++ "\")".toList := rfl
  simp [hrender, quotedArgument]

theorem Source.render_remote (url : String) (format tech : Option String) :
    (remote url format tech).render = "url".toList ++ '(' :: (quotedArgument url ++ [')']) ++
      renderHint "format" format ++ renderHint "tech" tech := by
  have hrender : (remote url format tech).render = "url(\"".toList ++ url.toList ++
      "\")".toList ++ renderHint "format" format ++ renderHint "tech" tech := rfl
  simp [hrender, quotedArgument]

theorem Source.passes_render {source : Source} (h : source.isContained = true) :
    Passes [] source.render := by
  cases source with
  | installed name =>
    rw [render_installed]
    exact Passes.call (by decide) (isContained_quotedArgument h)
  | remote url format tech =>
    simp only [Source.isContained, Bool.and_eq_true] at h
    obtain ⟨⟨hurl, hformat⟩, htech⟩ := h
    have hcall : Passes [] ("url".toList ++ '(' :: (quotedArgument url ++ [')'])) :=
      Passes.call (by decide) (isContained_quotedArgument hurl)
    have hhint := passes_renderHint (by decide : Css.isContained [] (' ' :: "format".toList) = true)
      hformat
    have hhint' := passes_renderHint (by decide : Css.isContained [] (' ' :: "tech".toList) = true)
      htech
    rw [render_remote]
    exact (hcall.append hhint (head?_renderHint _ _)).append hhint' (head?_renderHint _ _)

theorem Source.head?_render (source : Source) : source.render.head? ≠ some '*' := by
  cases source with
  | installed name => exact (by simp : some 'l' ≠ some '*')
  | remote url format tech => exact (by simp : some 'u' ≠ some '*')

theorem Source.passes_renderRest {front : List Char} (hfront : Passes [] front)
    {rest : List Source} (h : ∀ source ∈ rest, source.isContained = true) :
    Passes [] (front ++ (rest.map render).flatMap fun text => ", ".toList ++ text) := by
  induction rest generalizing front with
  | nil =>
    rw [List.map_nil, List.flatMap_nil, List.append_nil]
    exact hfront
  | cons source rest ih =>
    have hcomma : Passes [] (", ".toList) := passes_of_isContained (by decide) (by decide)
    have hsource := passes_render (h source List.mem_cons_self)
    have hfirst := hfront.append (hcomma.append hsource (head?_render source))
      (by simp : some ',' ≠ some '*')
    rw [List.map_cons, List.flatMap_cons, ← List.append_assoc]
    exact ih hfirst fun other hmem => h other (List.mem_cons_of_mem _ hmem)

theorem Source.passes_renderAll {sources : List Source}
    (h : ∀ source ∈ sources, source.isContained = true) : Passes [] (renderAll sources) := by
  cases sources with
  | nil => exact .nil []
  | cons first rest =>
    rw [renderAll, List.map_cons, Face.intercalate_cons]
    exact passes_renderRest (passes_render (h first List.mem_cons_self))
      fun other hmem => h other (List.mem_cons_of_mem _ hmem)

/-! ## Readable rules -/

theorem Face.readable_optional {property : String} (hproperty : isWord property.toList = true)
    {value : Option String}
    (hvalue : value.all (fun text => Css.isContained [] text.toList) = true) :
    ∀ d ∈ optional property value, Readable d := by
  intro d hd
  cases value with
  | none => contradiction
  | some value =>
    by_cases hempty : value.isEmpty
    · simp [optional, hempty] at hd
    · simp only [optional, hempty, Bool.false_eq_true, ↓reduceIte, List.mem_singleton] at hd
      subst hd
      exact ⟨hproperty, passes_of_isContained (by decide) hvalue⟩

theorem Face.readable_family {family : String} (h : isQuotableIn '\'' family = true) :
    Readable ("font-family", '\'' :: (family.toList ++ ['\''])) := by
  refine ⟨(by decide : isWord "font-family".toList = true), ?_⟩
  exact passes_of_isContained (by decide) (isContained_quoted rfl (forall_of_isQuotableIn h) [])

theorem Face.details_eq (face : Face) :
    face.details = [("src", Source.renderAll (face.src.toList.map Entry.toSource)),
      ("font-display", (face.display.getD .swap).keyword.toList)] ++
        face.optionals.flatMap fun descriptor => optional descriptor.1 descriptor.2 := by
  simp [details, optionals]

theorem Face.isContained_sources {face : Face} (h : face.isContained = true) :
    ∀ source ∈ face.src.toList.map Entry.toSource, source.isContained = true := by
  simp only [isContained, Bool.and_eq_true, List.all_eq_true] at h
  intro source hsource
  obtain ⟨entry, hentry, rfl⟩ := List.mem_map.mp hsource
  exact Entry.isContained_toSource (h.1 entry hentry)

theorem Face.readable_details {face : Face} (hface : face.isContained = true) :
    ∀ d ∈ face.details, Readable d := by
  have hsources := isContained_sources hface
  simp only [isContained, Bool.and_eq_true, List.all_eq_true] at hface
  have hdisplay : Css.isContained [] (face.display.getD .swap).keyword.toList = true := by
    cases face.display.getD .swap <;> decide
  have hwords : ∀ d ∈ face.optionals, isWord d.1.toList = true := by
    simp only [optionals, List.forall_mem_cons]
    decide
  rw [details_eq]
  intro d hd
  rcases List.mem_append.mp hd with hd | hd
  · rcases List.mem_cons.mp hd with rfl | hd
    · exact ⟨(by decide : isWord "src".toList = true), Source.passes_renderAll hsources⟩
    · obtain rfl := List.mem_singleton.mp hd
      exact ⟨(by decide : isWord "font-display".toList = true),
        passes_of_isContained (by decide) hdisplay⟩
  · obtain ⟨descriptor, hdescriptor, hd⟩ := List.mem_flatMap.mp hd
    exact readable_optional (hwords _ hdescriptor) (hface.2 _ hdescriptor) d hd

theorem Face.readable_descriptors {family : String} (hfamily : isQuotableIn '\'' family = true)
    {face : Face} (hface : face.isContained = true) :
    ∀ d ∈ face.descriptors family, Readable d :=
  List.forall_mem_cons.mpr ⟨readable_family hfamily, readable_details hface⟩

/-- The rule for a face whose texts keep to themselves is read as one block. -/
theorem Face.parse_render_of_isContained {family : String}
    (hfamily : isQuotableIn '\'' family = true) {face : Face} (hface : face.isContained = true) :
    Stylesheet.parse (face.render family).toList =
      .ok ⟨[blockNode (face.descriptors family)]⟩ := by
  rw [toList_render]
  exact parse_block (readable_descriptors hfamily hface)

end WebFonts
