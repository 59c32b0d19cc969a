import WebFonts.Proofs.Injection.Declarations

/-! # A second run

Once each family that was answered with faces has a rule that declares it, a second run has
nothing to do. -/

namespace WebFonts.Injection

open Css (Stylesheet)

/-! ## The families of a second run -/

section

variable {options : Options} {answer : String → Answer}
  {schedule : List Discovery → List Discovery} {code : String} {out : Output}

/-- A run whose rules each declare their family adds these families to those that the stylesheet
declares, and none to those that it uses. -/
theorem families_of_run (hperm : (schedule (discoveries code)).Perm (discoveries code))
    (hinjected : ∀ entry ∈ injected options answer schedule code,
      declaresAlone entry.1 entry.2 = true)
    (h : run options answer schedule code = .ok (some out)) :
    ∃ sheet sheet', Stylesheet.parse code.toList = .ok sheet ∧
      Stylesheet.parse out.code.toList = .ok sheet' ∧
      usedFamilies sheet' = usedFamilies sheet ∧
      declaredFamilies sheet' =
        (injected options answer schedule code).map Prod.fst ++ declaredFamilies sheet := by
  obtain ⟨-, sheet, nodes, hparse, hparse', hnodes⟩ :=
    keepsStylesheet_of_declaresAlone hperm hinjected h
  refine ⟨sheet, _, hparse, hparse', ?_, ?_⟩
  · rw [usedFamilies_append, hnodes.usedFamilies, usedFamilies_shift]
    rfl
  · rw [declaredFamilies_append, hnodes.declaredFamilies, declaredFamilies_shift]

/-- A family is asked for again if it was asked for before and no rule was injected for it. -/
theorem mem_asked_again_iff (hperm : (schedule (discoveries code)).Perm (discoveries code))
    (hinjected : ∀ entry ∈ injected options answer schedule code,
      declaresAlone entry.1 entry.2 = true)
    (h : run options answer schedule code = .ok (some out)) {family : String} :
    family ∈ asked out.code ↔
      family ∈ asked code ∧
        ∀ entry ∈ injected options answer schedule code, entry.1 ≠ family := by
  obtain ⟨sheet, sheet', hparse, hparse', hused, hdeclared⟩ :=
    families_of_run hperm hinjected h
  rcases run_eq_some hperm h with ⟨-, -, hcode⟩
  have hmay : mayUseFamilies code = true := (exists_sheet_of_run hperm h).1
  have hmay' : mayUseFamilies out.code = true := by
    rw [hcode, mayUseFamilies, String.toList_append, Text.contains_iff_isInfix]
    exact (Text.contains_iff_isInfix.mp hmay).trans (List.suffix_append _ _).isInfix
  have hmem : family ∈ declaredFamilies sheet' ↔
      (∃ entry ∈ injected options answer schedule code, entry.1 = family) ∨
        family ∈ declaredFamilies sheet := by
    rw [hdeclared, List.mem_append, List.mem_map]
  simp only [mem_asked_iff, hmay, hmay', hparse, hparse', Except.ok.injEq, true_and,
    exists_eq_left', hused, hmem, not_or, not_exists, not_and]
  constructor
  · intro ⟨huses, hnew, hundeclared⟩
    exact ⟨⟨huses, hundeclared⟩, hnew⟩
  · intro ⟨⟨huses, hundeclared⟩, hnew⟩
    exact ⟨huses, hnew, hundeclared⟩

/-- A rule is injected for a family if one of the rules that were made for it alone declares it:
the same rule cannot have been injected for another family. -/
theorem exists_injected_iff (hperm : (schedule (discoveries code)).Perm (discoveries code))
    (hinjected : ∀ entry ∈ injected options answer schedule code,
      declaresAlone entry.1 entry.2 = true) {family : String} (hfamily : family ∈ asked code) :
    (∃ entry ∈ injected options answer schedule code, entry.1 = family) ↔
      ∃ face ∈ (answer family).listed, declaresAlone family (face.render family) = true := by
  constructor
  · intro ⟨entry, hentry, he⟩
    have halone := hinjected entry hentry
    obtain ⟨-, face, hface, hrule⟩ :=
      mem_renderings_iff.mp (mem_renderings_of_mem_injected hperm hentry)
    rw [hrule, he] at halone
    rw [he] at hface
    exact ⟨face, hface, halone⟩
  · intro ⟨face, hface, hdeclares⟩
    have hrendered : (family, face.render family) ∈ renderings answer (asked code) :=
      mem_renderings_iff.mpr ⟨hfamily, face, hface, rfl⟩
    have hrule : face.render family ∈ (injected options answer schedule code).map Prod.snd :=
      (mem_map_injected_iff hperm).mpr (List.mem_map_of_mem hrendered)
    rcases List.mem_map.mp hrule with ⟨entry, hentry, he⟩
    have halone := hinjected entry hentry
    rw [he] at halone
    exact ⟨entry, hentry, eq_of_declaresAlone halone hdeclares⟩

/-- No answer that was taken without a failure fails when the family is asked for again. -/
theorem failure?_again (hperm : (schedule (discoveries code)).Perm (discoveries code))
    (hinjected : ∀ entry ∈ injected options answer schedule code,
      declaresAlone entry.1 entry.2 = true)
    (h : run options answer schedule code = .ok (some out)) :
    ∀ family ∈ asked out.code, failure? (answer family) = none := by
  intro family hfamily
  rcases (mem_asked_again_iff hperm hinjected h).mp hfamily with ⟨hbefore, -⟩
  exact (run_eq_some hperm h).1 family hbefore

end

/-! ## Both runs -/

/-- If each rule that a run injects, read alone, declares the family it was made for and no other,
then a second run with the same answers leaves the text as it is, provided that each family that
was answered with faces has a rule that declares it. -/
theorem run_again_iff (options options' : Options) (answer : String → Answer)
    (schedule schedule' : List Discovery → List Discovery) (code : String) (out : Output)
    (hperm : (schedule (discoveries code)).Perm (discoveries code))
    (hperm' : (schedule' (discoveries out.code)).Perm (discoveries out.code))
    (hinjected : ∀ entry ∈ injected options answer schedule code,
      declaresAlone entry.1 entry.2 = true)
    (h : run options answer schedule code = .ok (some out)) :
    run options' answer schedule' out.code = .ok none ↔
      ∀ family ∈ asked code, (answer family).listed ≠ [] →
        ∃ face ∈ (answer family).listed, declaresAlone family (face.render family) = true := by
  have hanswers := failure?_again hperm hinjected h
  constructor
  · intro hagain family hfamily hlisted
    rw [← exists_injected_iff hperm hinjected hfamily]
    by_contra hnone
    have hasked : family ∈ asked out.code :=
      (mem_asked_again_iff hperm hinjected h).mpr
        ⟨hfamily, fun entry hentry he => hnone ⟨entry, hentry, he⟩⟩
    rcases List.exists_mem_of_ne_nil _ hlisted with ⟨face, hface⟩
    have hrules : renderings answer (asked out.code) ≠ [] :=
      List.ne_nil_of_mem (mem_renderings_iff.mpr ⟨hasked, face, hface, rfl⟩)
    rcases exists_output hperm' rfl hanswers hrules with ⟨again, hsome⟩
    rw [hagain] at hsome
    cases hsome
  · intro hanswered
    obtain ⟨both, hstart⟩ : ∃ both, start out.code = .ok both := by
      rcases families_of_run hperm hinjected h with ⟨-, sheet', -, hparse', -, -⟩
      rw [start, hparse']
      by_cases hmay : mayUseFamilies out.code = true
      · exact ⟨_, if_pos hmay⟩
      · exact ⟨_, if_neg hmay⟩
    refine run_eq_none hperm' hstart hanswers (List.eq_nil_iff_forall_not_mem.mpr ?_)
    intro entry hentry
    obtain ⟨hfamily, face, hface, -⟩ :=
      mem_renderings_iff.mp (mem_renderings_of_mem_injected hperm' hentry)
    rcases (mem_asked_again_iff hperm hinjected h).mp hfamily with ⟨hbefore, hnew⟩
    have hdeclared := hanswered entry.1 hbefore (List.ne_nil_of_mem hface)
    rcases (exists_injected_iff hperm hinjected hbefore).mpr hdeclared with ⟨other, hother, he⟩
    exact hnew other hother he

/-- A face for each family, except one. -/
def mostAnswer (family : String) : Answer :=
  if family = "Absent" then .nothing
  else .faces (.lone (Face.ofSources (.lone (.shorthand "Arial"))))

def mostCode : String := "p\x7bfont-family:Absent,Plain\x7d"

/-- The family without faces is asked for again, and again nothing is injected for it. -/
theorem run_again_with_an_absent_family :
    ∃ out, run ⟨.discovery, none⟩ mostAnswer List.reverse mostCode = .ok (some out) ∧
      asked out.code = ["Absent"] ∧
      run ⟨.completion, none⟩ mostAnswer id out.code = .ok none := by
  have hasked : asked mostCode = ["Absent", "Plain"] := by decide +kernel
  have hentries : injected ⟨.discovery, none⟩ mostAnswer List.reverse mostCode =
      fresh [] (renderings mostAnswer ["Absent", "Plain"]) :=
    congrArg (fun families => fresh [] (renderings mostAnswer families)) hasked
  have hinjected : ∀ entry ∈ injected ⟨.discovery, none⟩ mostAnswer List.reverse mostCode,
      declaresAlone entry.1 entry.2 = true := by
    rw [hentries]
    decide +kernel
  have hanswered : ∀ family ∈ asked mostCode, (mostAnswer family).listed ≠ [] →
      ∃ face ∈ (mostAnswer family).listed, declaresAlone family (face.render family) = true := by
    rw [hasked]
    decide +kernel
  obtain ⟨out, hout⟩ : ∃ out, run ⟨.discovery, none⟩ mostAnswer List.reverse mostCode =
      .ok (some out) :=
    exists_output (List.reverse_perm _) hasked (by decide) (by decide)
  rcases run_eq_some (List.reverse_perm _) hout with ⟨-, -, hcode⟩
  have hagain := (run_again_iff ⟨.discovery, none⟩ ⟨.completion, none⟩ mostAnswer List.reverse id
    mostCode out (List.reverse_perm _) (.refl _) hinjected hout).mpr hanswered
  refine ⟨out, hout, ?_, hagain⟩
  rw [hcode, hentries]
  decide +kernel

/-! ## Families with the same rule -/

/-- Faces for two families, which are both written as the same rule: one family holds the start of
what is a hint on the format for the other. -/
def twinAnswer (family : String) : Answer :=
  if family = "a" then
    .faces (.lone (Face.ofSources (.lone (.source
      (.remote "u" (some "/*';\n  src: url(\"v\") format(*/") none)))))
  else .faces (.lone (Face.ofSources (.lone (.source (.remote "v" (some "*/") none)))))

def twinCode : String := "x\x7bfont-family:a,\"a';\\a   src: url(\\\"u\\\") format(/*\"\x7d"

/-- The second family, as it is read from the stylesheet. -/
def twin : String := "a';\n  src: url(\"u\") format(/*"

/-- A rule that is injected for one family only, though two were answered with it, is injected once
more by a second run. -/
theorem twins_run_again :
    (injected ⟨.completion, none⟩ twinAnswer id twinCode).map Prod.fst = ["a"] ∧
    (∀ entry ∈ injected ⟨.completion, none⟩ twinAnswer id twinCode,
      declaresAlone entry.1 entry.2 = true) ∧
    ∃ out again, run ⟨.completion, none⟩ twinAnswer id twinCode = .ok (some out) ∧
      run ⟨.completion, none⟩ twinAnswer id out.code = .ok (some again) := by
  have hasked : asked twinCode = ["a", twin] := by decide +kernel
  have hentries : injected ⟨.completion, none⟩ twinAnswer id twinCode =
      (fresh [] (renderings twinAnswer ["a", twin])).reverse :=
    congrArg (fun families => (fresh [] (renderings twinAnswer families)).reverse) hasked
  obtain ⟨out, hout⟩ : ∃ out, run ⟨.completion, none⟩ twinAnswer id twinCode = .ok (some out) :=
    exists_output (.refl _) hasked (by decide) (by decide)
  rcases run_eq_some (.refl _) hout with ⟨-, -, hcode⟩
  have hagain : asked out.code = [twin] := by
    rw [hcode, hentries]
    decide +kernel
  obtain ⟨again, hsecond⟩ : ∃ again, run ⟨.completion, none⟩ twinAnswer id out.code =
      .ok (some again) :=
    exists_output (.refl _) hagain (by decide) (by decide)
  rw [hentries]
  exact ⟨by decide +kernel, by decide +kernel, out, again, hout, hsecond⟩

end WebFonts.Injection
