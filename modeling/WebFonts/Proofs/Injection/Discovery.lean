import WebFonts.Proofs.Css.Spelling
import WebFonts.Proofs.Css.Token
import WebFonts.Proofs.Injection.Failure

/-! # What is asked for

A run asks for the families that a stylesheet uses and does not declare, in the order in which it
uses them, each once. Where a declaration stands is told by all blocks around it. -/

namespace WebFonts

open Css Text

/-! ## First occurrences -/

theorem nodup_eraseDups (texts : List String) : texts.eraseDups.Nodup := by
  cases texts with
  | nil => exact .nil
  | cons first texts =>
    rw [List.eraseDups_cons]
    apply List.nodup_cons.mpr
    constructor
    · intro hmem
      have hfirst := (List.mem_filter.mp (List.mem_eraseDups.mp hmem)).2
      simp at hfirst
    · exact nodup_eraseDups (texts.filter fun text => !text == first)
termination_by texts.length
decreasing_by
  have := List.length_filter_le (fun text => !text == first) texts
  simp only [List.length_cons]
  omega

namespace Injection

/-- What is asked for is each family that is not known yet, where it is named first. -/
theorem askAll_eq (session : Session) (families : List String) :
    (askAll session families).2 =
      (families.filter fun family =>
        family ∉ session.declared ∧ family ∉ session.asked).eraseDups := by
  induction families generalizing session with
  | nil => rfl
  | cons family families ih =>
    by_cases h : family ∈ session.declared ∨ family ∈ session.asked
    · rw [askAll_cons_of_known h, ih, List.filter_cons_of_neg]
      simpa [Classical.or_iff_not_imp_left] using h
    · rw [not_or] at h
      rw [askAll_cons_of_new h.1 h.2, ih, List.filter_cons_of_pos (by simpa using h),
        List.eraseDups_cons, List.filter_filter]
      refine congrArg (fun more : List String => family :: more.eraseDups) (List.filter_congr ?_)
      intro other _
      by_cases he : other = family <;> simp [he]

end Injection

/-! ## Families by their sites -/

namespace Css

/-- Whether the innermost at-rule around a declaration is one for a face, in any case of its
letters. -/
def Site.isInFontFace (site : Site) : Bool :=
  (site.around.findSome? (·.1.atRule?)).any fun atRule =>
    sameLetters atRule.1.toList "font-face".toList

/-- The families that declarations inside of rules for faces name, or those that all others do, in
the order of the text and with repetitions. -/
def Stylesheet.families (sheet : Stylesheet) (inFontFace : Bool) : List String :=
  (sheet.sites.filter fun site =>
    site.declaration.property == "font-family" && site.isInFontFace == inFontFace).flatMap
      fun site => site.declaration.value.families

/-- The families that a stylesheet uses and nowhere declares, each where it is used first. -/
def Stylesheet.missingFamilies (sheet : Stylesheet) : List String :=
  ((sheet.families false).filter fun family => family ∉ sheet.families true).eraseDups

/-- A stylesheet uses a family by a string. -/
def Stylesheet.Quotes (sheet : Stylesheet) (family : String) : Prop :=
  ∃ site ∈ sheet.sites, site.declaration.property = "font-family" ∧ site.isInFontFace = false ∧
    ∃ found, site.declaration.value = .tokens found ∧ .string family ∈ found

theorem Stylesheet.mem_families_iff {sheet : Stylesheet} {inFontFace : Bool} {family : String} :
    family ∈ sheet.families inFontFace ↔
      ∃ site ∈ sheet.sites, site.declaration.property = "font-family" ∧
        site.isInFontFace = inFontFace ∧ family ∈ site.declaration.value.families := by
  simp only [families, List.mem_flatMap, List.mem_filter, Bool.and_eq_true, beq_iff_eq, and_assoc]

theorem Stylesheet.mem_missingFamilies_iff {sheet : Stylesheet} {family : String} :
    family ∈ sheet.missingFamilies ↔
      family ∈ sheet.families false ∧ family ∉ sheet.families true := by
  simp [missingFamilies]

end Css

namespace Injection

theorem usedFamilies_eq (sheet : Stylesheet) : usedFamilies sheet = sheet.families false := by
  rw [usedFamilies, Stylesheet.visits_eq_map_sites, List.filter_map, List.flatMap_map]
  refine congrArg (List.flatMap _) (List.filter_congr ?_)
  intro site _
  change (_ && !site.isInFontFace) = (_ && site.isInFontFace == false)
  cases site.isInFontFace <;> rfl

theorem declaredFamilies_eq (sheet : Stylesheet) :
    declaredFamilies sheet = sheet.families true := by
  rw [declaredFamilies, Stylesheet.visits_eq_map_sites, List.filter_map, List.flatMap_map]
  refine congrArg (List.flatMap _) (List.filter_congr ?_)
  intro site _
  change (_ && site.isInFontFace) = (_ && site.isInFontFace == true)
  cases site.isInFontFace <;> rfl

theorem discover_eq (sheet : Stylesheet) : (discover sheet).2 = sheet.missingFamilies := by
  obtain ⟨-, hasked, hdeclared⟩ := foldl_declare Session.empty (declaredFamilies sheet)
  rw [discover, askAll_eq, hasked, usedFamilies_eq, Stylesheet.missingFamilies]
  refine congrArg List.eraseDups (List.filter_congr ?_)
  intro family _
  simp only [hdeclared]
  simp [declaredFamilies_eq, Session.empty]

theorem asked_eq {code : String} {sheet : Stylesheet} (hread : mayUseFamilies code = true)
    (hparse : Stylesheet.parse code.toList = .ok sheet) : asked code = sheet.missingFamilies := by
  rw [asked, discoveries, start, if_pos hread, hparse]
  exact (map_family_number 0 _).trans (discover_eq sheet)

/-! ## Generic names -/

theorem not_mem_obstacles_of_isGeneric {family : String} (h : isGeneric family = true) :
    ∀ c ∈ family.toList, c ∉ obstacles := by
  have hplain : (genericNames.all fun name => name.toList.all fun c => !obstacles.contains c) =
      true := by decide
  have hfamily := List.all_eq_true.mp hplain family (by simpa [isGeneric] using h)
  simpa using hfamily

theorem string_of_family? {token : Token} {family : String}
    (h : token.family? = some family) (hgeneric : isGeneric family = true) :
    token = .string family := by
  cases token with
  | identifier name =>
    simp only [Token.family?, Option.ite_none_left_eq_some, Option.some.injEq] at h
    obtain ⟨hname, rfl⟩ := h
    exact (hname hgeneric).elim
  | string contents => exact congrArg Token.string (Option.some.inj h)
  | _ => contradiction

/-- A generic name is used as a family only where it is written as a string. -/
theorem quotes_of_isGeneric {code : List Char} {sheet : Stylesheet}
    (hparse : Stylesheet.parse code = .ok sheet) {family : String}
    (hfamily : family ∈ sheet.families false) (hgeneric : isGeneric family = true) :
    sheet.Quotes family := by
  obtain ⟨site, hsite, hproperty, houtside, hmem⟩ := Stylesheet.mem_families_iff.mp hfamily
  refine ⟨site, hsite, hproperty, houtside, ?_⟩
  cases hvalue : site.declaration.value with
  | tokens found =>
    rw [hvalue] at hmem
    obtain ⟨token, htoken, hnames⟩ := List.mem_filterMap.mp hmem
    rw [string_of_family? hnames hgeneric] at htoken
    exact ⟨found, rfl, htoken⟩
  | raw text =>
    -- The text has a character in it that no generic name has.
    obtain ⟨before, name, blank, behind, written, -, -, hstarts⟩ :=
      exists_start_of_mem_sites hparse hsite
    have hname : unescape name = "font-family".toList := by
      have htoList := congrArg String.toList hstarts.property_eq
      rw [String.toList_ofList] at htoList
      rw [← htoList]
      exact congrArg String.toList hproperty
    have hread := hstarts.value_eq
    rw [hname] at hread
    obtain ⟨c, hc, hobstacle⟩ := exists_obstacle_of_raw (by decide) (hread.symm.trans hvalue)
    have htext : family = text := by
      rw [hvalue, Value.families] at hmem
      split at hmem
      · contradiction
      · exact List.mem_singleton.mp hmem
    rw [← htext] at hc
    exact (not_mem_obstacles_of_isGeneric hgeneric c hc hobstacle).elim

/-! ## The families of a run -/

/-- Breaks off for one family, and has no faces for any other. -/
def abortFor (family other : String) : Answer := if other = family then .aborted else .nothing

theorem failure?_abortFor_ne_none_iff {family other : String} :
    failure? (abortFor family other) ≠ none ↔ other = family := by
  unfold abortFor
  split <;> simp_all [failure?]

/-- Whatever the options and the schedule are, the resolver is asked for a family if a run fails
when it breaks off for this family only. -/
theorem run_abortFor_iff {options : Options} {schedule : List Discovery → List Discovery}
    {code : String} {sheet : Stylesheet} (hparse : Stylesheet.parse code.toList = .ok sheet)
    (hperm : (schedule (discoveries code)).Perm (discoveries code)) {family : String} :
    (∃ failure, run options (abortFor family) schedule code = .error failure) ↔
      family ∈ asked code := by
  simp [run_fails_iff hparse hperm, failure?_abortFor_ne_none_iff]

/-- A run asks for the families that a stylesheet uses and nowhere declares, in the order of their
first uses and each once. Among these are generic names only where they are written as strings, and
what is written as a string is left out only if it is declared. -/
theorem asked_missing_families {code : String} {sheet : Stylesheet}
    (hread : mayUseFamilies code = true) (hparse : Stylesheet.parse code.toList = .ok sheet) :
    asked code =
        ((sheet.families false).filter fun family => family ∉ sheet.families true).eraseDups ∧
      (asked code).Nodup ∧
      (∀ options schedule family, (schedule (discoveries code)).Perm (discoveries code) →
        ((∃ failure, run options (abortFor family) schedule code = .error failure) ↔
          family ∈ asked code)) ∧
      (∀ family ∈ asked code, isGeneric family = true → sheet.Quotes family) ∧
      ∀ family, sheet.Quotes family → (family ∈ asked code ↔ family ∉ sheet.families true) := by
  have hasked := asked_eq hread hparse
  refine ⟨hasked, ?_, ?_, ?_, ?_⟩
  · rw [hasked]
    exact nodup_eraseDups _
  · intro options schedule family hperm
    exact run_abortFor_iff hparse hperm
  · intro family hfamily hgeneric
    rw [hasked] at hfamily
    exact quotes_of_isGeneric hparse (Stylesheet.mem_missingFamilies_iff.mp hfamily).1 hgeneric
  · rintro family ⟨site, hsite, hproperty, houtside, found, hvalue, hstring⟩
    have hused : family ∈ sheet.families false := by
      refine Stylesheet.mem_families_iff.mpr ⟨site, hsite, hproperty, houtside, ?_⟩
      rw [hvalue]
      exact List.mem_filterMap.mpr ⟨.string family, hstring, rfl⟩
    rw [hasked, Stylesheet.mem_missingFamilies_iff]
    exact and_iff_right hused

/-- A family that is declared behind its first use, inside of another at-rule and in capitals, and
a keyword with and without quotes. -/
def nested : Sample where
  code := "a\x7bfont-family:A,serif,'serif',B\x7d" ++
    "@media x\x7b@FONT-FACE\x7bfont-family:B\x7dp\x7bfont-family:A,C\x7d\x7d"
  first := ⟨0, "A"⟩
  more := [⟨1, "serif"⟩, ⟨2, "C"⟩]
  discoveries_eq := by decide +kernel

theorem asked_missing_families_nested :
    mayUseFamilies nested.code = true ∧
      ∃ sheet, Stylesheet.parse nested.code.toList = .ok sheet ∧
        ((sheet.families false).filter fun family => family ∉ sheet.families true).eraseDups =
          ["A", "serif", "C"] ∧
        sheet.Quotes "serif" := by
  obtain ⟨hread, sheet, hparse⟩ := nested.read_and_parsed
  have hasked : asked nested.code = ["A", "serif", "C"] := nested.asked_eq
  have hserif : "serif" ∈ asked nested.code := by
    rw [hasked]
    decide
  obtain ⟨hmissing, -, -, hgeneric, -⟩ := asked_missing_families hread hparse
  exact ⟨hread, sheet, hparse, hmissing.symm.trans hasked, hgeneric "serif" hserif (by decide)⟩

end Injection

end WebFonts
