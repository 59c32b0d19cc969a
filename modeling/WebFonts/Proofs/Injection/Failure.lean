import WebFonts.Proofs.Injection.Outcome

/-! # Runs that fail

The first answer that fails ends a run, whatever was taken before. Whether there is one does not
depend on the order in which the answers come, nor on what is done with them. -/

namespace WebFonts.Injection

open Css (Stylesheet)

/-! ## The first failure -/

/-- A failure comes first among the answers for discoveries: no answer before it fails. -/
theorem firstFailure?_eq_some_iff {answer : String → Answer} {scheduled : List Discovery}
    {failure : Failure} :
    firstFailure? answer scheduled = some failure ↔
      ∃ before first after, scheduled = before ++ first :: after ∧
        failure? (answer first.family) = some failure ∧
        ∀ earlier ∈ before, failure? (answer earlier.family) = none :=
  List.findSome?_eq_some_iff

theorem start_of_parse_error {code : String} {error : Css.SyntaxError}
    (hread : mayUseFamilies code = true) (hparse : Stylesheet.parse code.toList = .error error) :
    start code = .error (.stylesheet error) := by
  rw [start, if_pos hread, hparse]

theorem exists_start {code : String} {sheet : Stylesheet}
    (hparse : Stylesheet.parse code.toList = .ok sheet) : ∃ both, start code = .ok both := by
  rw [start, hparse]
  by_cases hread : mayUseFamilies code = true
  · exact ⟨_, if_pos hread⟩
  · exact ⟨_, if_neg hread⟩

section

variable {options : Options} {answer : String → Answer}
  {schedule : List Discovery → List Discovery} {code : String} {sheet : Stylesheet}

/-- A run for a stylesheet fails with the first failure in the order of the schedule. -/
theorem run_eq_error_iff (hparse : Stylesheet.parse code.toList = .ok sheet)
    (hperm : (schedule (discoveries code)).Perm (discoveries code)) {failure : Failure} :
    run options answer schedule code = .error failure ↔
      firstFailure? answer (schedule (discoveries code)) = some failure := by
  obtain ⟨both, hstart⟩ := exists_start hparse
  rw [run_eq options answer hperm, hstart]
  cases firstFailure? answer (schedule (discoveries code)) <;> simp

/-- A run for a stylesheet fails if it asks for a family whose answer fails. -/
theorem run_fails_iff (hparse : Stylesheet.parse code.toList = .ok sheet)
    (hperm : (schedule (discoveries code)).Perm (discoveries code)) :
    (∃ failure, run options answer schedule code = .error failure) ↔
      ∃ family ∈ asked code, failure? (answer family) ≠ none := by
  simp only [run_eq_error_iff hparse hperm]
  rw [← Option.isSome_iff_exists, Option.isSome_iff_ne_none, ne_eq,
    firstFailure?_eq_none_iff hperm]
  simp

end

/-! ## Texts with known discoveries -/

/-- A text that uses families which it does not declare, with its discoveries. -/
structure Sample where
  code : String
  first : Discovery
  more : List Discovery
  discoveries_eq : discoveries code = first :: more

namespace Sample

theorem asked_eq (sample : Sample) :
    asked sample.code = sample.first.family :: sample.more.map (·.family) := by
  rw [asked, sample.discoveries_eq, List.map_cons]

theorem read_and_parsed (sample : Sample) :
    mayUseFamilies sample.code = true ∧
      ∃ sheet, Stylesheet.parse sample.code.toList = .ok sheet := by
  have hfirst : sample.first.family ∈ asked sample.code := by
    rw [sample.asked_eq]
    exact List.mem_cons_self
  obtain ⟨hread, sheet, hparse, -⟩ := mem_asked_iff.mp hfirst
  exact ⟨hread, sheet, hparse⟩

end Sample

/-! ## All or nothing -/

/-- A text that is read and is no stylesheet fails as such, before any family is asked for. A run
for a stylesheet fails with the first failure among the answers as they come; so it fails, for
whatever options and schedules, if any answer does. -/
theorem run_all_or_nothing (code : String) (hread : mayUseFamilies code = true) :
    (∀ error, Stylesheet.parse code.toList = .error error →
      asked code = [] ∧ ∀ options answer schedule,
        run options answer schedule code = .error (.stylesheet error)) ∧
    ∀ sheet, Stylesheet.parse code.toList = .ok sheet → ∀ options answer schedule,
      (schedule (discoveries code)).Perm (discoveries code) →
        (∀ failure, run options answer schedule code = .error failure ↔
          ∃ before first after, schedule (discoveries code) = before ++ first :: after ∧
            failure? (answer first.family) = some failure ∧
            ∀ earlier ∈ before, failure? (answer earlier.family) = none) ∧
        ((∃ failure, run options answer schedule code = .error failure) ↔
          ∃ family ∈ asked code, failure? (answer family) ≠ none) ∧
        ∀ options' schedule', (schedule' (discoveries code)).Perm (discoveries code) →
          ((∃ failure, run options' answer schedule' code = .error failure) ↔
            ∃ failure, run options answer schedule code = .error failure) := by
  constructor
  · intro error hparse
    have hstart := start_of_parse_error hread hparse
    constructor
    · simp [asked, discoveries, hstart]
    · intro options answer schedule
      rw [run, hstart]
  · intro sheet hparse options answer schedule hperm
    refine ⟨?_, run_fails_iff hparse hperm, ?_⟩
    · intro failure
      rw [run_eq_error_iff hparse hperm, firstFailure?_eq_some_iff]
    · intro options' schedule' hperm'
      rw [run_fails_iff hparse hperm', run_fails_iff hparse hperm]

/-- Faces for one family; the answers for all others fail, each in its own way. -/
def brokenAnswer (family : String) : Answer :=
  if family = "Fine" then .faces (.lone (Face.ofSources (.lone (.shorthand "Arial"))))
  else if family = "Lost" then .error (.notFound "Lost")
  else .aborted

def broken : Sample where
  code := "p\x7bfont-family:Fine,Lost,Stuck\x7d"
  first := ⟨0, "Fine"⟩
  more := [⟨1, "Lost"⟩, ⟨2, "Stuck"⟩]
  discoveries_eq := by decide +kernel

def cutCode : String := "p\x7bfont-family:Fine"

/-- Which of two failures is told depends on the order of the answers. Faces that were taken before
change nothing, and without a stylesheet there are no answers. -/
theorem run_all_or_nothing_broken :
    mayUseFamilies broken.code = true ∧ mayUseFamilies cutCode = true ∧
      run ⟨.completion, none⟩ brokenAnswer id broken.code = .error (.resolver (.notFound "Lost")) ∧
      run ⟨.discovery, none⟩ brokenAnswer List.reverse broken.code = .error .aborted ∧
      asked cutCode = [] ∧
      run ⟨.completion, none⟩ brokenAnswer id cutCode =
        .error (.stylesheet ⟨.unterminatedBlock, 1, 1, 2⟩) := by
  obtain ⟨hread, sheet, hparse⟩ := broken.read_and_parsed
  have hfound := broken.discoveries_eq
  have hread' : mayUseFamilies cutCode = true := by decide_cbv
  have hcut : Stylesheet.parse cutCode.toList = .error ⟨.unterminatedBlock, 1, 1, 2⟩ := by
    have hfault : Css.Event.read [] 0 cutCode.toList = .error ⟨.unterminatedBlock, 1⟩ := by
      decide +kernel
    rw [Stylesheet.parse, hfault]
    rfl
  have hfirst := (run_all_or_nothing broken.code hread).2 sheet hparse
  obtain ⟨hnone, hfails⟩ := (run_all_or_nothing cutCode hread').1 _ hcut
  refine ⟨hread, hread', ?_, ?_, hnone, hfails _ _ _⟩
  · refine ((hfirst _ _ id (.refl _)).1 _).mpr
      ⟨[⟨0, "Fine"⟩], ⟨1, "Lost"⟩, [⟨2, "Stuck"⟩], hfound, ?_⟩
    decide
  · refine ((hfirst _ _ _ (List.reverse_perm _)).1 _).mpr
      ⟨[], ⟨2, "Stuck"⟩, [⟨1, "Lost"⟩, ⟨0, "Fine"⟩], ?_, ?_⟩
    · rw [hfound]
      rfl
    · decide

end WebFonts.Injection
