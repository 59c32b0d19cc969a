import WebFonts.Proofs.Injection.Discovery

/-! # Where rules are put

What a run puts in front of a stylesheet depends on the schedule only in the order of the rules, and
not even there if they are to follow their families. -/

namespace WebFonts.Injection

open Css (Stylesheet)

/-! ## Rules without repetitions -/

/-- The rules for the faces of families in their order, each where it is made first. -/
def rulesFor (answer : String → Answer) (families : List String) : List String :=
  (families.flatMap fun family => (answer family).listed.map (Face.render family)).eraseDups

theorem map_renderings (answer : String → Answer) (families : List String) :
    (renderings answer families).map Prod.snd =
      families.flatMap fun family => (answer family).listed.map (Face.render family) := by
  simp [renderings, List.map_flatMap, Function.comp_def]

/-- Writing rules one after another keeps each where it is first, unless it was written before. -/
theorem map_fresh (written : List String) (entries : List (String × String)) :
    (fresh written entries).map Prod.snd =
      ((entries.map Prod.snd).filter (· ∉ written)).eraseDups := by
  induction entries generalizing written with
  | nil => rfl
  | cons entry entries ih =>
    by_cases h : entry.2 ∈ written
    · rw [fresh_cons_of_mem h, ih, List.map_cons, List.filter_cons_of_neg (by simpa using h)]
    · rw [fresh_cons_of_not_mem h, List.map_cons, ih, List.map_cons,
        List.filter_cons_of_pos (by simpa using h), List.eraseDups_cons, List.filter_filter]
      refine congrArg (fun more : List String => entry.2 :: more.eraseDups) (List.filter_congr ?_)
      intro rule _
      by_cases he : rule = entry.2 <;> simp [he]

theorem map_fresh_renderings (answer : String → Answer) (families : List String) :
    (fresh [] (renderings answer families)).map Prod.snd = rulesFor answer families := by
  rw [map_fresh, map_renderings, rulesFor]
  simp

theorem mem_rulesFor_iff {answer : String → Answer} {families : List String} {rule : String} :
    rule ∈ rulesFor answer families ↔
      ∃ family ∈ families, ∃ face ∈ (answer family).listed, face.render family = rule := by
  simp [rulesFor]

theorem nodup_rulesFor (answer : String → Answer) (families : List String) :
    (rulesFor answer families).Nodup := nodup_eraseDups _

/-- The same families in another order have the same rules in another order. -/
theorem rulesFor_perm (answer : String → Answer) {families more : List String}
    (h : families.Perm more) : (rulesFor answer families).Perm (rulesFor answer more) := by
  apply (List.perm_ext_iff_of_nodup (nodup_rulesFor _ _) (nodup_rulesFor _ _)).mpr
  intro rule
  simp only [mem_rulesFor_iff, h.mem_iff]

theorem rulesFor_eq_nil_iff {answer : String → Answer} {families : List String} :
    rulesFor answer families = [] ↔ ∀ family ∈ families, (answer family).listed = [] := by
  rw [List.eq_nil_iff_forall_not_mem]
  simp only [mem_rulesFor_iff, List.eq_nil_iff_forall_not_mem]
  constructor
  · intro h family hfamily face hface
    exact h _ ⟨family, hfamily, face, hface, rfl⟩
  · rintro h rule ⟨family, hfamily, face, hface, -⟩
    exact h family hfamily face hface

/-! ## The text in front -/

/-- The lines of rules in front of a stylesheet, which is not changed, and the map back to it. With
no rules there is nothing to tell. -/
def placed (sourceName : Option String) (rules : List String) (code : String) : Option Output :=
  let front := String.join (rules.map (· ++ "\n"))
  if rules = [] then none
  else some ⟨front ++ code, (⟨code, front⟩ : Prepended).sourceMap sourceName none true⟩

theorem joinRules_eq_join (rules : List String) :
    joinRules rules = String.join (rules.map (· ++ "\n")) := by
  induction rules with
  | nil => rfl
  | cons rule rules ih => rw [joinRules_cons, ih, List.map_cons, String.join_cons]

theorem outputOf_eq_placed (options : Options) (rules : List String) (code : String) :
    outputOf options rules code = placed options.sourceName rules code := by
  rw [outputOf, placed, joinRules_eq_join]
  cases rules <;> rfl

theorem placed_eq_none_iff {sourceName : Option String} {rules : List String} {code : String} :
    placed sourceName rules code = none ↔ rules = [] := by
  simp [placed]

/-! ## Runs without a failure -/

/-- The families that a run asks for, in the order in which the answers come. -/
def answered (schedule : List Discovery → List Discovery) (code : String) : List String :=
  (schedule (discoveries code)).map (·.family)

section

variable (sourceName : Option String) {answer : String → Answer}
  {schedule : List Discovery → List Discovery} {code : String} {sheet : Stylesheet}

theorem run_eq_outputOf {options : Options} (hparse : Stylesheet.parse code.toList = .ok sheet)
    (hperm : (schedule (discoveries code)).Perm (discoveries code))
    (hanswers : ∀ family ∈ asked code, failure? (answer family) = none) :
    run options answer schedule code =
      .ok (outputOf options ((injected options answer schedule code).map Prod.snd) code) := by
  obtain ⟨both, hstart⟩ := exists_start hparse
  rw [run_eq options answer hperm, hstart, (firstFailure?_eq_none_iff hperm).mpr hanswers]

/-- In the order of discovery, the schedule leaves no trace. -/
theorem run_discovery (hparse : Stylesheet.parse code.toList = .ok sheet)
    (hperm : (schedule (discoveries code)).Perm (discoveries code))
    (hanswers : ∀ family ∈ asked code, failure? (answer family) = none) :
    run ⟨.discovery, sourceName⟩ answer schedule code =
      .ok (placed sourceName (rulesFor answer (asked code)) code) := by
  rw [run_eq_outputOf hparse hperm hanswers, outputOf_eq_placed, injected, map_fresh_renderings]

/-- In the order of completion, the rule that came last is first. -/
theorem run_completion (hparse : Stylesheet.parse code.toList = .ok sheet)
    (hperm : (schedule (discoveries code)).Perm (discoveries code))
    (hanswers : ∀ family ∈ asked code, failure? (answer family) = none) :
    run ⟨.completion, sourceName⟩ answer schedule code =
      .ok (placed sourceName
        (rulesFor answer (answered schedule code)).reverse code) := by
  rw [run_eq_outputOf hparse hperm hanswers, outputOf_eq_placed, injected, List.map_reverse,
    map_fresh_renderings, answered]

end

/-- If no answer fails, a run puts the rules for all faces in front of the stylesheet, each once:
those for the families as they were found, whatever the schedule is, or those for the families as
they were answered, the last one first. These are the same rules, and there are none only if no
answer has a face. -/
theorem run_places_rules (sourceName : Option String) (answer : String → Answer)
    (schedule schedule' : List Discovery → List Discovery) {code : String} {sheet : Stylesheet}
    (hparse : Stylesheet.parse code.toList = .ok sheet)
    (hperm : (schedule (discoveries code)).Perm (discoveries code))
    (hperm' : (schedule' (discoveries code)).Perm (discoveries code))
    (hanswers : ∀ family ∈ asked code, failure? (answer family) = none) :
    run ⟨.discovery, sourceName⟩ answer schedule code =
        .ok (placed sourceName (rulesFor answer (asked code)) code) ∧
      run ⟨.discovery, sourceName⟩ answer schedule' code =
        run ⟨.discovery, sourceName⟩ answer schedule code ∧
      run ⟨.completion, sourceName⟩ answer schedule code =
        .ok (placed sourceName (rulesFor answer (answered schedule code)).reverse code) ∧
      (∀ order, run ⟨order, sourceName⟩ answer schedule code = .ok none ↔
        ∀ family ∈ asked code, (answer family).listed = []) ∧
      (rulesFor answer (answered schedule code)).Perm (rulesFor answer (asked code)) ∧
      (rulesFor answer (asked code)).Nodup := by
  have hfamilies : (answered schedule code).Perm (asked code) := hperm.map _
  have hrules := rulesFor_perm answer hfamilies
  have hdiscovery := run_discovery sourceName hparse hperm hanswers
  have hdiscovery' := run_discovery sourceName hparse hperm' hanswers
  have hcompletion := run_completion sourceName hparse hperm hanswers
  refine ⟨hdiscovery, hdiscovery'.trans hdiscovery.symm, hcompletion, ?_, hrules,
    nodup_rulesFor _ _⟩
  intro order
  rw [← rulesFor_eq_nil_iff]
  cases order with
  | discovery => rw [hdiscovery, Except.ok.injEq, placed_eq_none_iff]
  | completion =>
    rw [hcompletion, Except.ok.injEq, placed_eq_none_iff, List.reverse_eq_nil_iff]
    constructor
    · intro hnil
      exact (hnil ▸ hrules).nil_eq.symm
    · intro hnil
      exact (hnil ▸ hrules).eq_nil

theorem byDelay_perm (delay : String → Option Nat) (found : List Discovery) :
    (byDelay delay found).Perm found :=
  List.mergeSort_perm _ _

def lateFace : Face := Face.ofSources (.lone (.shorthand "Late"))

def earlyFace : Face := Face.ofSources (.lone (.shorthand "Early"))

/-- A family with the same face twice, one with two faces, one with none, and no answer for all
others. -/
def delayedAnswer (family : String) : Answer :=
  if family = "Late" then .faces (.list [lateFace, lateFace])
  else if family = "Early" then .faces (.list [earlyFace, lateFace])
  else if family = "Hollow" then .faces (.list [])
  else .nothing

def delayed : Sample where
  code := "p\x7bfont-family:Late,Hollow,Absent,Early\x7d"
  first := ⟨0, "Late"⟩
  more := [⟨1, "Hollow"⟩, ⟨2, "Absent"⟩, ⟨3, "Early"⟩]
  discoveries_eq := by decide +kernel

/-- The first family is the last one to be answered. -/
def delays (family : String) : Option Nat := if family = "Late" then some 5 else none

theorem run_places_rules_by_delay :
    run ⟨.discovery, none⟩ delayedAnswer (byDelay delays) delayed.code =
        .ok (placed none [lateFace.render "Late", earlyFace.render "Early",
          lateFace.render "Early"] delayed.code) ∧
      run ⟨.discovery, none⟩ delayedAnswer id delayed.code =
        run ⟨.discovery, none⟩ delayedAnswer (byDelay delays) delayed.code ∧
      run ⟨.completion, none⟩ delayedAnswer (byDelay delays) delayed.code =
        .ok (placed none [lateFace.render "Late", lateFace.render "Early",
          earlyFace.render "Early"] delayed.code) := by
  obtain ⟨-, sheet, hparse⟩ := delayed.read_and_parsed
  have hasked : asked delayed.code = ["Late", "Hollow", "Absent", "Early"] := delayed.asked_eq
  have hanswered : answered (byDelay delays) delayed.code =
      ["Hollow", "Absent", "Early", "Late"] := by
    rw [answered, delayed.discoveries_eq]
    simp [byDelay, delayed, delays, List.mergeSort]
  have hanswers : ∀ family ∈ asked delayed.code, failure? (delayedAnswer family) = none := by
    rw [hasked]
    decide
  obtain ⟨hdiscovery, hsame, hcompletion, -⟩ := run_places_rules none delayedAnswer
    (byDelay delays) id hparse (byDelay_perm delays _) (.refl _) hanswers
  rw [hasked] at hdiscovery
  rw [hanswered] at hcompletion
  refine ⟨hdiscovery.trans ?_, hsame, hcompletion.trans ?_⟩
  · refine congrArg (fun rules => Except.ok (placed none rules delayed.code)) ?_
    decide +kernel
  · refine congrArg (fun rules => Except.ok (placed none rules delayed.code)) ?_
    decide +kernel

end WebFonts.Injection
