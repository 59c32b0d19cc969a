import WebFonts.Injection.Families
import WebFonts.Proofs.Css.Written
import WebFonts.Proofs.Face.Contained

/-! # Plain faces

Faces whose texts mean nothing to a stylesheet, and families that can stand between single quotes.
The rule for a plain face names such a family exactly. -/

namespace WebFonts

open Css Text

/-- The texts in a source that are written as they are. -/
def Source.texts : Source → List String
  | .remote url format tech => url :: (format.toList ++ tech.toList)
  | .installed name => [name]

def Entry.texts : Entry → List String
  | .shorthand text => [text]
  | .source found => found.texts

namespace Face

/-- The texts in the rule for a face besides its family. -/
def texts (face : Face) : List String :=
  face.src.toList.flatMap Entry.texts ++
    [face.unicodeRange, face.weight, face.style, face.featureSettings,
      face.variationSettings].flatMap Option.toList

/-- Whether no text of a face means anything to a stylesheet. -/
def isPlain (face : Face) : Bool := face.texts.all fun text => Css.isPlain text.toList

/-- Whether a family can stand between single quotes as it is. -/
def isQuotable (family : String) : Bool :=
  family.toList.all fun c => c != '\'' && c != '\\' && c != '\n'

end Face

/-! ## Plain texts keep to themselves -/

theorem isQuotableIn_of_isPlain {quote : Char} (hquote : isQuote quote = true) {text : String}
    (h : isPlain text.toList = true) : isQuotableIn quote text = true := by
  have hspecial : quote ∈ specialCharacters := by
    simp only [isQuote, Bool.or_eq_true, beq_iff_eq] at hquote
    rcases hquote with rfl | rfl <;> decide
  simp only [isQuotableIn, List.all_eq_true, Bool.and_eq_true, bne_iff_ne]
  intro c hc
  refine ⟨⟨?_, ?_⟩, ?_⟩
  all_goals rintro rfl
  · exact not_mem_of_isPlain h hspecial hc
  · exact not_mem_of_isPlain h (by decide) hc
  · exact not_mem_of_isPlain h (by decide) hc

theorem all_isContained_of_isPlain {outer : List Char} (houter : outer ⊆ specialCharacters)
    {value : Option String} (h : ∀ text ∈ value, isPlain text.toList = true) :
    value.all (fun text => isContained outer text.toList) = true := by
  cases value with
  | none => rfl
  | some text => exact isContained_of_isPlain (h text rfl) houter

theorem Source.isContained_of_isPlain {source : Source}
    (h : ∀ text ∈ source.texts, isPlain text.toList = true) : source.isContained = true := by
  cases source with
  | installed name => exact isQuotableIn_of_isPlain rfl (h name List.mem_cons_self)
  | remote url format tech =>
    have hurl : isQuotableIn '"' url = true :=
      isQuotableIn_of_isPlain rfl (h url List.mem_cons_self)
    have hformat : ∀ text ∈ format, isPlain text.toList = true := by
      intro text hmem
      exact h text (List.mem_cons_of_mem _ (List.mem_append_left _ (Option.mem_toList.mpr hmem)))
    have htech : ∀ text ∈ tech, isPlain text.toList = true := by
      intro text hmem
      exact h text (List.mem_cons_of_mem _ (List.mem_append_right _ (Option.mem_toList.mpr hmem)))
    simp only [isContained, Bool.and_eq_true]
    exact ⟨⟨hurl, all_isContained_of_isPlain (by decide) hformat⟩,
      all_isContained_of_isPlain (by decide) htech⟩

theorem Entry.isContained_of_isPlain {entry : Entry}
    (h : ∀ text ∈ entry.texts, isPlain text.toList = true) : entry.isContained = true := by
  cases entry with
  | shorthand text => exact isQuotableIn_of_isPlain rfl (h text List.mem_cons_self)
  | source found => exact Source.isContained_of_isPlain h

theorem Face.isContained_of_isPlain {face : Face} (h : face.isPlain = true) :
    face.isContained = true := by
  have htexts : ∀ text ∈ face.texts, Css.isPlain text.toList = true := by
    simpa [isPlain] using h
  simp only [isContained, Bool.and_eq_true, List.all_eq_true]
  constructor
  · intro entry hentry
    apply Entry.isContained_of_isPlain
    intro text htext
    exact htexts text (List.mem_append_left _ (List.mem_flatMap.mpr ⟨entry, hentry, htext⟩))
  · intro descriptor hdescriptor
    apply all_isContained_of_isPlain (by decide)
    intro text htext
    have hvalue : descriptor.2 ∈ face.optionals.map Prod.snd := List.mem_map_of_mem hdescriptor
    apply htexts text
    apply List.mem_append_right
    exact List.mem_flatMap.mpr ⟨descriptor.2, hvalue, Option.mem_toList.mpr htext⟩

theorem isQuotableIn_of_isQuotable {family : String} (h : Face.isQuotable family = true) :
    isQuotableIn '\'' family = true := h

/-- The rule for a plain face of a quotable family is read as one block. -/
theorem Face.parse_render {family : String} (hfamily : isQuotable family = true)
    {face : Face} (hface : face.isPlain = true) :
    Stylesheet.parse (face.render family).toList =
      .ok ⟨[blockNode (face.descriptors family)]⟩ :=
  parse_render_of_isContained hfamily (isContained_of_isPlain hface)

/-! ## The family in a rule -/

theorem Face.tokens?_family {family : String} (h : isQuotable family = true) :
    tokens? (' ' :: '\'' :: (family.toList ++ ['\''])) = some [.string family] := by
  have hfamily := forall_of_isQuotableIn (isQuotableIn_of_isQuotable h)
  have hgap : gap false (' ' :: '\'' :: (family.toList ++ ['\''])) =
      .ok ([' '], '\'' :: (family.toList ++ ['\''])) := by
    rw [gap_of_some (spacing_of_isSpace rfl false _), gap_of_none rfl]
    rfl
  have htoken : token? ('\'' :: (family.toList ++ ['\''])) = some (.string family, []) := by
    have hslash : '\\' ∉ family.toList := fun hmem => (hfamily _ hmem).2.1 rfl
    have hstring := closeString_of_forall (by decide) hfamily []
    simp only [token?, quoted?, hstring, isQuote]
    simp [unescape_of_not_mem hslash]
  rw [tokens?_of_token hgap htoken, tokens?_of_end (gap_nil false)]
  rfl

/-- The rule names its family and nothing else. -/
theorem Face.value_family {family : String} (h : isQuotable family = true) :
    Value.read "font-family".toList
        (cutImportant (' ' :: '\'' :: (family.toList ++ ['\'']))).1 =
      .tokens [.string family] := by
  have hcut := cutImportant_concat (by decide : isBlank '\'' = false) (by decide)
    (' ' :: '\'' :: family.toList)
  rw [List.cons_append, List.cons_append] at hcut
  rw [hcut, Value.read, if_neg (by decide), tokens?_family h]

end WebFonts
