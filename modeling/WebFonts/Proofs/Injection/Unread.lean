import WebFonts.Proofs.Injection.Discovery

/-! # Texts that are not read

A run reads a text only if it finds in it the property that names families, right in front of a
colon. What it misses are declarations whose property is written in another way. -/

namespace WebFonts

open Css Text

/-! ## Names that do not meet the eye -/

/-- Whether the name at the start of a text is written with an escape, or apart from the colon that
is to follow it. -/
def Css.hidesName (text : List Char) : Bool :=
  match identifier? text with
  | some (name, rest) => name.contains '\\' || rest.head? != some ':'
  | none => false

/-- A declaration hides its name, or starts with it and a colon. -/
theorem Css.Declaration.Starts.isPrefix_of_not_hidesName {declaration : Declaration}
    {name blank behind written : List Char} (h : declaration.Starts name blank behind written)
    (hshown : hidesName (name ++ (blank ++ ':' :: behind)) = false) :
    declaration.property.toList ++ [':'] <+: name ++ (blank ++ ':' :: behind) := by
  simp only [hidesName, h.identifier_eq, Bool.or_eq_false_iff, List.contains_eq_mem,
    decide_eq_false_iff_not, bne_eq_false_iff_eq] at hshown
  obtain ⟨hslash, hcolon⟩ := hshown
  rcases List.head?_eq_some_iff.mp hcolon with ⟨rest, hrest⟩
  rw [h.property_eq, unescape_of_not_mem hslash, String.toList_ofList, hrest]
  exact ⟨rest, by simp⟩

namespace Injection

/-- In a text that is not read, each declaration that names families hides its name. -/
theorem hidesName_of_unread {code : String} {sheet : Stylesheet}
    (hparse : Stylesheet.parse code.toList = .ok sheet) (hunread : mayUseFamilies code = false)
    {site : Site} (hsite : site ∈ sheet.sites)
    (hproperty : site.declaration.property = "font-family") :
    hidesName (dropBytes site.declaration.span.start code.toList) = true := by
  obtain ⟨before, name, blank, behind, written, hcode, hstart, hstarts⟩ :=
    exists_start_of_mem_sites hparse hsite
  rw [hstart, hcode, dropBytes_utf8Width]
  by_contra hshown
  have hstands := hstarts.isPrefix_of_not_hidesName (Bool.eq_false_iff.mpr hshown)
  rw [hproperty] at hstands
  have hphrase : "font-family:".toList <:+: code.toList := by
    rw [hcode]
    exact hstands.isInfix.trans (List.suffix_append _ _).isInfix
  rw [mayUseFamilies, contains_iff_isInfix.mpr hphrase] at hunread
  contradiction

theorem asked_of_mayUseFamilies_eq_false {code : String} (hunread : mayUseFamilies code = false) :
    asked code = [] := by
  simp [asked, discoveries, start, hunread]

/-- For a stylesheet that is not read, no family is asked for. Every declaration in it that names
families hides its name. If it were read, those families would be asked for that such declarations
use and that it does not declare. -/
theorem asked_of_unread {code : String} {sheet : Stylesheet}
    (hparse : Stylesheet.parse code.toList = .ok sheet) (hunread : mayUseFamilies code = false) :
    asked code = [] ∧
      (∀ site ∈ sheet.sites, site.declaration.property = "font-family" →
        hidesName (dropBytes site.declaration.span.start code.toList) = true) ∧
      ∀ family, family ∈ (discover sheet).2 ↔
        (∃ site ∈ sheet.sites, site.declaration.property = "font-family" ∧
          site.isInFontFace = false ∧
          hidesName (dropBytes site.declaration.span.start code.toList) = true ∧
          family ∈ site.declaration.value.families) ∧
        family ∉ sheet.families true := by
  have hhides : ∀ site ∈ sheet.sites, site.declaration.property = "font-family" →
      hidesName (dropBytes site.declaration.span.start code.toList) = true :=
    fun site hsite hproperty => hidesName_of_unread hparse hunread hsite hproperty
  refine ⟨asked_of_mayUseFamilies_eq_false hunread, hhides, ?_⟩
  intro family
  rw [discover_eq, Stylesheet.mem_missingFamilies_iff, Stylesheet.mem_families_iff]
  constructor
  · rintro ⟨⟨site, hsite, hproperty, houtside, hfamily⟩, hundeclared⟩
    exact ⟨⟨site, hsite, hproperty, houtside, hhides site hsite hproperty, hfamily⟩, hundeclared⟩
  · rintro ⟨⟨site, hsite, hproperty, houtside, -, hfamily⟩, hundeclared⟩
    exact ⟨⟨site, hsite, hproperty, houtside, hfamily⟩, hundeclared⟩

/-- The families that would be asked for if every text were read. -/
def needed (code : String) : List String :=
  match Stylesheet.parse code.toList with
  | .error _ => []
  | .ok sheet => (discover sheet).2

theorem exists_sheet_of_needed {code family : String} {families : List String}
    (h : needed code = family :: families) :
    ∃ sheet, Stylesheet.parse code.toList = .ok sheet ∧
      (discover sheet).2 = family :: families := by
  unfold needed at h
  split at h
  · contradiction
  · rename_i sheet hparse
    exact ⟨sheet, hparse, h⟩

def spacedCode : String :=
  "a\x7bfont-family :X,serif,Y\x7d@FONT-FACE\x7bfont\\-family:Y\x7d"

/-- A declaration with a space in front of its colon is the only one that needs a family. -/
theorem asked_of_unread_spaced :
    ∃ sheet, Stylesheet.parse spacedCode.toList = .ok sheet ∧ mayUseFamilies spacedCode = false ∧
      asked spacedCode = [] ∧
      ∃ site ∈ sheet.sites, site.isInFontFace = false ∧
        hidesName (dropBytes site.declaration.span.start spacedCode.toList) = true ∧
        "X" ∈ site.declaration.value.families := by
  have hneeded : needed spacedCode = ["X"] := by decide +kernel
  have hunread : mayUseFamilies spacedCode = false := by decide +kernel
  obtain ⟨sheet, hparse, hfamilies⟩ := exists_sheet_of_needed hneeded
  obtain ⟨hasked, -, hiff⟩ := asked_of_unread hparse hunread
  have hmem : "X" ∈ (discover sheet).2 := hfamilies ▸ List.mem_singleton_self "X"
  obtain ⟨⟨site, hsite, -, houtside, hhides, hfamily⟩, -⟩ := (hiff "X").mp hmem
  exact ⟨sheet, hparse, hunread, hasked, site, hsite, houtside, hhides, hfamily⟩

/-- A text is not read, though a declaration in it uses a family that it does not declare. -/
def Misses (code family : String) : Prop :=
  mayUseFamilies code = false ∧ asked code = [] ∧ isGeneric family = false ∧
    ∃ sheet, Stylesheet.parse code.toList = .ok sheet ∧ (discover sheet).2 = [family] ∧
      family ∉ sheet.families true ∧
      ∃ site ∈ sheet.sites, site.declaration.property = "font-family" ∧
        site.isInFontFace = false ∧ family ∈ site.declaration.value.families

theorem misses_of_needed {code family : String} (hunread : mayUseFamilies code = false)
    (hneeded : needed code = [family]) (hplain : isGeneric family = false) :
    Misses code family := by
  obtain ⟨sheet, hparse, hfamilies⟩ := exists_sheet_of_needed hneeded
  have hmem : family ∈ sheet.missingFamilies := by
    rw [← discover_eq, hfamilies]
    exact List.mem_singleton_self family
  obtain ⟨hused, hundeclared⟩ := Stylesheet.mem_missingFamilies_iff.mp hmem
  refine ⟨hunread, ?_, hplain, sheet, hparse, hfamilies, hundeclared,
    Stylesheet.mem_families_iff.mp hused⟩
  exact asked_of_mayUseFamilies_eq_false hunread

/-- A space or a comment in front of the colon, or an escape in the name, hides a declaration. -/
theorem space_comment_and_escape_miss :
    Misses "a\x7bfont-family :X\x7d" "X" ∧
      Misses "a\x7bfont-family/**/:X\x7d" "X" ∧
      Misses "a\x7bfont\\-family:X\x7d" "X" := by
  refine ⟨?_, ?_, ?_⟩
  · exact misses_of_needed (by decide +kernel) (by decide +kernel) (by decide)
  · exact misses_of_needed (by decide +kernel) (by decide +kernel) (by decide)
  · exact misses_of_needed (by decide +kernel) (by decide +kernel) (by decide)

end Injection

end WebFonts
