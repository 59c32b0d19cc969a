import Mathlib.Data.List.Nodup
import WebFonts.Injection.Run

/-! # The outcome of a run

What a run puts in front of a stylesheet, said without its steps: the rules for the families in one
order, each rule once. -/

namespace WebFonts

open Css (Stylesheet)

/-- The faces in an answer. -/
def Answer.listed : Answer → List Face
  | .faces found => found.toList
  | _ => []

namespace Injection

/-- How an answer fails, if it does. -/
def failure? : Answer → Option Failure
  | .error error => some (.resolver error)
  | .aborted => some .aborted
  | _ => none

/-! ## Rules for families -/

/-- The rules for families in their order, each with its family. -/
def renderings (answer : String → Answer) (families : List String) : List (String × String) :=
  families.flatMap fun family =>
    (answer family).listed.map fun face => (family, face.render family)

/-- The entries whose rules were not written before, each rule at its first occurrence. -/
def fresh (written : List String) : List (String × String) → List (String × String)
  | [] => []
  | entry :: entries =>
    if entry.2 ∈ written then fresh written entries
    else entry :: fresh (entry.2 :: written) entries

/-- The families that a run asks for, with their numbers. -/
def discoveries (code : String) : List Discovery :=
  match start code with
  | .ok (_, found) => found
  | .error _ => []

/-- The families that a run asks for. -/
def asked (code : String) : List String := (discoveries code).map (·.family)

/-- The rules that a run puts in front of a stylesheet, from the first to the last, each with the
family it was made for. -/
def injected (options : Options) (answer : String → Answer)
    (schedule : List Discovery → List Discovery) (code : String) : List (String × String) :=
  match options.order with
  | .completion =>
    (fresh [] (renderings answer ((schedule (discoveries code)).map (·.family)))).reverse
  | .discovery => fresh [] (renderings answer (asked code))

theorem renderings_append (answer : String → Answer) (families more : List String) :
    renderings answer (families ++ more) = renderings answer families ++ renderings answer more :=
  List.flatMap_append

/-- What is written once entries were, the latest first. -/
def writtenAfter (written : List String) (entries : List (String × String)) : List String :=
  ((fresh written entries).map Prod.snd).reverse ++ written

theorem fresh_cons_of_mem {written : List String} {entry : String × String}
    (h : entry.2 ∈ written) (entries : List (String × String)) :
    fresh written (entry :: entries) = fresh written entries := by
  rw [fresh, if_pos h]

theorem fresh_cons_of_not_mem {written : List String} {entry : String × String}
    (h : entry.2 ∉ written) (entries : List (String × String)) :
    fresh written (entry :: entries) = entry :: fresh (entry.2 :: written) entries := by
  rw [fresh, if_neg h]

theorem fresh_append (written : List String) (entries more : List (String × String)) :
    fresh written (entries ++ more) =
      fresh written entries ++ fresh (writtenAfter written entries) more := by
  induction entries generalizing written with
  | nil => rfl
  | cons entry entries ih =>
    rw [List.cons_append]
    by_cases h : entry.2 ∈ written
    · rw [fresh_cons_of_mem h, fresh_cons_of_mem h, ih, writtenAfter, writtenAfter,
        fresh_cons_of_mem h]
    · rw [fresh_cons_of_not_mem h, fresh_cons_of_not_mem h, ih, writtenAfter, writtenAfter,
        fresh_cons_of_not_mem h]
      simp

/-- Each rule is there once or was written before, and no others are. -/
theorem mem_fresh_map_iff {written : List String} {entries : List (String × String)}
    {rule : String} :
    rule ∈ (fresh written entries).map Prod.snd ↔
      rule ∈ entries.map Prod.snd ∧ rule ∉ written := by
  induction entries generalizing written with
  | nil => simp [fresh]
  | cons entry entries ih =>
    by_cases h : entry.2 ∈ written
    · rw [fresh_cons_of_mem h, ih, List.map_cons, List.mem_cons]
      constructor
      · intro ⟨hrule, hnew⟩
        exact ⟨.inr hrule, hnew⟩
      · rintro ⟨rfl | hrule, hnew⟩
        · exact (hnew h).elim
        · exact ⟨hrule, hnew⟩
    · rw [fresh_cons_of_not_mem h, List.map_cons, List.mem_cons, ih, List.map_cons, List.mem_cons]
      by_cases he : rule = entry.2
      · subst he
        simp [h]
      · simp [he]

theorem fresh_subset {written : List String} {entries : List (String × String)}
    {entry : String × String} (h : entry ∈ fresh written entries) : entry ∈ entries := by
  induction entries generalizing written with
  | nil => exact h
  | cons first entries ih =>
    by_cases hfirst : first.2 ∈ written
    · rw [fresh_cons_of_mem hfirst] at h
      exact List.mem_cons_of_mem _ (ih h)
    · rw [fresh_cons_of_not_mem hfirst] at h
      rcases List.mem_cons.mp h with rfl | h
      · exact List.mem_cons_self
      · exact List.mem_cons_of_mem _ (ih h)

theorem writtenAfter_append (written : List String) (entries more : List (String × String)) :
    writtenAfter written (entries ++ more) =
      writtenAfter (writtenAfter written entries) more := by
  simp [writtenAfter, fresh_append]

/-! ## The text in front -/

theorem joinRules_cons (rule : String) (rules : List String) :
    joinRules (rule :: rules) = rule ++ "\n" ++ joinRules rules := rfl

theorem joinRules_append (rules more : List String) :
    joinRules (rules ++ more) = joinRules rules ++ joinRules more := by
  induction rules with
  | nil => simp [joinRules]
  | cons rule rules ih =>
    rw [List.cons_append, joinRules_cons, ih, joinRules_cons]
    simp only [String.append_assoc]

theorem prependEach_eq (text : Prepended) (rules : List String) :
    prependEach text rules = ⟨text.body, joinRules rules.reverse ++ text.insertion⟩ := by
  induction rules generalizing text with
  | nil => simp [prependEach, joinRules]
  | cons rule rules ih =>
    have hcons : prependEach text (rule :: rules) =
        prependEach (text.prepend (rule ++ "\n")) rules := rfl
    rw [hcons, ih, List.reverse_cons, joinRules_append]
    simp [Prepended.prepend, joinRules, String.append_assoc]

theorem writeAll_eq (session : Session) (entries : List (String × String)) :
    writeAll session (entries.map Prod.snd) =
      ({ session with written := writtenAfter session.written entries },
        (fresh session.written entries).map Prod.snd) := by
  induction entries generalizing session with
  | nil => rfl
  | cons entry entries ih =>
    rw [List.map_cons, writeAll, Session.write]
    by_cases h : entry.2 ∈ session.written
    · simp [h, ih, writtenAfter, fresh_cons_of_mem h]
    · simp [h, ih, writtenAfter, fresh_cons_of_not_mem h]

/-- The rules for the faces of one answer. -/
theorem renderings_singleton (answer : String → Answer) (family : String) :
    renderings answer [family] =
      (answer family).listed.map fun face => (family, face.render family) := by
  simp [renderings]

theorem render_eq (family : String) (faces : Faces) :
    Faces.render family faces =
      (faces.toList.map fun face => (family, face.render family)).map Prod.snd := by
  simp [Faces.render]

/-! ## Answers -/

/-- Progress by rules that go in front of the text one by one. -/
def Progress.written (progress : Progress) (entries : List (String × String)) : Progress :=
  { progress with
    text := ⟨progress.text.body,
      joinRules ((fresh progress.session.written entries).map Prod.snd).reverse ++
        progress.text.insertion⟩
    session := { progress.session with
      written := writtenAfter progress.session.written entries } }

theorem Progress.written_nil (progress : Progress) : progress.written [] = progress := by
  simp [Progress.written, fresh, joinRules, writtenAfter]

theorem Progress.written_append (progress : Progress) (entries more : List (String × String)) :
    progress.written (entries ++ more) = (progress.written entries).written more := by
  simp [Progress.written, fresh_append, writtenAfter_append, joinRules_append,
    String.append_assoc]

theorem takeFaces_completion (progress : Progress) (discovery : Discovery) (faces : Faces) :
    takeFaces .completion progress discovery faces =
      progress.written
        (faces.toList.map fun face => (discovery.family, face.render discovery.family)) := by
  rw [takeFaces, render_eq, writeAll_eq]
  simp [prependEach_eq, Progress.written]

theorem takeAnswer_completion (answer : String → Answer) (progress : Progress)
    (discovery : Discovery) :
    takeAnswer .completion progress discovery (answer discovery.family) =
      match failure? (answer discovery.family) with
      | some failure => .error failure
      | none => .ok (progress.written (renderings answer [discovery.family])) := by
  rw [renderings_singleton]
  cases answer discovery.family with
  | faces faces =>
    by_cases hempty : faces.toList = []
    · simp [takeAnswer, failure?, Answer.listed, hempty, Progress.written_nil]
    · simp [takeAnswer, failure?, Answer.listed, hempty, takeFaces_completion]
  | nothing => simp [takeAnswer, failure?, Answer.listed, Progress.written_nil]
  | error error => rfl
  | aborted => rfl

/-- The first failure among the answers for discoveries. -/
def firstFailure? (answer : String → Answer) (scheduled : List Discovery) : Option Failure :=
  scheduled.findSome? fun discovery => failure? (answer discovery.family)

theorem takeAnswers_completion (answer : String → Answer) (progress : Progress)
    (scheduled : List Discovery) :
    takeAnswers .completion answer progress scheduled =
      match firstFailure? answer scheduled with
      | some failure => .error failure
      | none => .ok (progress.written (renderings answer (scheduled.map (·.family)))) := by
  induction scheduled generalizing progress with
  | nil =>
    rw [takeAnswers]
    exact congrArg Except.ok progress.written_nil.symm
  | cons discovery scheduled ih =>
    rw [takeAnswers, takeAnswer_completion, firstFailure?, List.findSome?_cons]
    cases failure? (answer discovery.family) with
    | some failure => rfl
    | none =>
      rw [← firstFailure?]
      dsimp only
      rw [ih, ← Progress.written_append, ← renderings_append]
      rfl

/-! ## Faces that wait -/

/-- A discovery with the faces it was answered with, if there are any. -/
def waiting? (answer : String → Answer) (discovery : Discovery) : Option (Discovery × Faces) :=
  match answer discovery.family with
  | .faces faces => if faces.toList.isEmpty then none else some (discovery, faces)
  | _ => none

/-- The discoveries that were answered with faces. -/
def pending (answer : String → Answer) (scheduled : List Discovery) : List (Discovery × Faces) :=
  scheduled.filterMap (waiting? answer)

theorem pending_cons (answer : String → Answer) (discovery : Discovery)
    (scheduled : List Discovery) :
    pending answer (discovery :: scheduled) =
      pending answer [discovery] ++ pending answer scheduled := by
  rw [pending, ← List.singleton_append, List.filterMap_append]
  rfl

theorem takeAnswer_discovery (answer : String → Answer) (progress : Progress)
    (discovery : Discovery) :
    takeAnswer .discovery progress discovery (answer discovery.family) =
      match failure? (answer discovery.family) with
      | some failure => .error failure
      | none =>
        .ok { progress with waiting := progress.waiting ++ pending answer [discovery] } := by
  cases hanswer : answer discovery.family with
  | faces faces =>
    by_cases hempty : faces.toList = []
    · simp [takeAnswer, failure?, pending, waiting?, hanswer, hempty]
    · simp [takeAnswer, failure?, pending, waiting?, hanswer, hempty, takeFaces]
  | nothing => simp [takeAnswer, failure?, pending, waiting?, hanswer]
  | error error => rfl
  | aborted => rfl

theorem takeAnswers_discovery (answer : String → Answer) (progress : Progress)
    (scheduled : List Discovery) :
    takeAnswers .discovery answer progress scheduled =
      match firstFailure? answer scheduled with
      | some failure => .error failure
      | none => .ok { progress with waiting := progress.waiting ++ pending answer scheduled } := by
  induction scheduled generalizing progress with
  | nil => simp [takeAnswers, firstFailure?, pending]
  | cons discovery scheduled ih =>
    rw [takeAnswers, takeAnswer_discovery, firstFailure?, List.findSome?_cons]
    cases failure? (answer discovery.family) with
    | some failure => rfl
    | none =>
      rw [← firstFailure?, pending_cons answer discovery scheduled]
      dsimp only
      rw [ih]
      simp only [List.append_assoc]

theorem le_index_of_mem_number {index : Nat} {families : List String} {discovery : Discovery}
    (h : discovery ∈ number index families) : index ≤ discovery.index := by
  induction families generalizing index with
  | nil => contradiction
  | cons family families ih =>
    rcases List.mem_cons.mp h with rfl | h
    · exact Nat.le_refl index
    · exact Nat.le_of_succ_le (ih h)

theorem pairwise_number (index : Nat) (families : List String) :
    (number index families).Pairwise fun a b => a.index < b.index := by
  induction families generalizing index with
  | nil => exact .nil
  | cons family families ih =>
    refine .cons ?_ (ih (index + 1))
    intro discovery hmem
    exact le_index_of_mem_number hmem

theorem fst_of_waiting? {answer : String → Answer} {discovery : Discovery}
    {entry : Discovery × Faces} (h : waiting? answer discovery = some entry) :
    entry.1 = discovery := by
  cases hanswer : answer discovery.family with
  | faces faces =>
    simp only [waiting?, hanswer, Option.ite_none_left_eq_some, Option.some.injEq] at h
    rw [← h.2]
  | _ => simp [waiting?, hanswer] at h

theorem pairwise_pending (answer : String → Answer) {found : List Discovery}
    (h : found.Pairwise fun a b => a.index < b.index) :
    (pending answer found).Pairwise fun a b => a.1.index < b.1.index := by
  refine h.filterMap (waiting? answer) ?_
  intro a b hlt first hfirst second hsecond
  rwa [fst_of_waiting? hfirst, fst_of_waiting? hsecond]

/-- Sorting brings the faces that wait back into the order of their families. -/
theorem mergeSort_pending (answer : String → Answer) {scheduled found : List Discovery}
    (hfound : found.Pairwise fun a b => a.index < b.index) (hperm : scheduled.Perm found) :
    (pending answer scheduled).mergeSort (fun a b => a.1.index ≤ b.1.index) =
      pending answer found := by
  have hsorted := pairwise_pending answer hfound
  have hindex : ((pending answer found).map fun entry => entry.1.index).Nodup := by
    rw [List.Nodup, List.pairwise_map]
    exact hsorted.imp Nat.ne_of_lt
  have hpending : (pending answer scheduled).Perm (pending answer found) :=
    hperm.filterMap _
  have hle : (pending answer found).Pairwise fun a b => a.1.index ≤ b.1.index :=
    hsorted.imp Nat.le_of_lt
  have hmerged : ((pending answer scheduled).mergeSort fun a b => a.1.index ≤ b.1.index).Pairwise
      fun a b => decide (a.1.index ≤ b.1.index) = true := by
    apply List.pairwise_mergeSort
    · intro a b c hab hbc
      simp only [decide_eq_true_eq] at hab hbc ⊢
      exact Nat.le_trans hab hbc
    · intro a b
      simp only [Bool.or_eq_true, decide_eq_true_eq]
      exact Nat.le_total a.1.index b.1.index
  refine List.Perm.eq_of_pairwise ?_ (hmerged.imp of_decide_eq_true) hle
    ((List.mergeSort_perm _ _).trans hpending)
  intro a b ha hb hab hba
  have ha : a ∈ pending answer found := hpending.mem_iff.mp (List.mem_mergeSort.mp ha)
  exact List.inj_on_of_nodup_map hindex ha hb (Nat.le_antisymm hab hba)

theorem flatMap_pending (answer : String → Answer) (found : List Discovery) :
    ((pending answer found).flatMap fun entry => Faces.render entry.1.family entry.2) =
      (renderings answer (found.map (·.family))).map Prod.snd := by
  induction found with
  | nil => rfl
  | cons discovery found ih =>
    rw [pending_cons, List.flatMap_append, ih, List.map_cons,
      ← @List.singleton_append _ discovery.family, renderings_append, List.map_append,
      renderings_singleton]
    congr 1
    cases hanswer : answer discovery.family with
    | faces faces =>
      by_cases hempty : faces.toList = []
      · simp [pending, waiting?, hanswer, hempty, Answer.listed]
      · simp [pending, waiting?, hanswer, hempty, Answer.listed, Faces.render]
    | _ => simp [pending, waiting?, hanswer, Answer.listed]

/-! ## What is asked for -/

theorem askAll_cons_of_known {session : Session} {family : String}
    (h : family ∈ session.declared ∨ family ∈ session.asked) (families : List String) :
    askAll session (family :: families) = askAll session families := by
  have hask : session.ask family = (session, false) := by
    rcases h with h | h <;> simp [Session.ask, h]
  rw [askAll, hask]

theorem askAll_cons_of_new {session : Session} {family : String}
    (hdeclared : family ∉ session.declared) (hasked : family ∉ session.asked)
    (families : List String) :
    askAll session (family :: families) =
      ((askAll { session with asked := family :: session.asked } families).1,
        family :: (askAll { session with asked := family :: session.asked } families).2) := by
  have hask : session.ask family =
      ({ session with asked := family :: session.asked }, true) := by
    simp [Session.ask, hdeclared, hasked]
  rw [askAll, hask]

theorem written_askAll (session : Session) (families : List String) :
    (askAll session families).1.written = session.written := by
  induction families generalizing session with
  | nil => rfl
  | cons family families ih =>
    by_cases h : family ∈ session.declared ∨ family ∈ session.asked
    · rw [askAll_cons_of_known h, ih]
    · rw [not_or] at h
      rw [askAll_cons_of_new h.1 h.2]
      exact ih _

theorem mem_askAll_iff {session : Session} {families : List String} {family : String} :
    family ∈ (askAll session families).2 ↔
      family ∈ families ∧ family ∉ session.declared ∧ family ∉ session.asked := by
  induction families generalizing session with
  | nil => simp [askAll]
  | cons first families ih =>
    by_cases h : first ∈ session.declared ∨ first ∈ session.asked
    · rw [askAll_cons_of_known h, ih]
      constructor
      · intro ⟨hmem, hnew⟩
        exact ⟨List.mem_cons_of_mem _ hmem, hnew⟩
      · intro ⟨hmem, hdeclared, hasked⟩
        rcases List.mem_cons.mp hmem with rfl | hmem
        · exact (h.elim hdeclared hasked).elim
        · exact ⟨hmem, hdeclared, hasked⟩
    · rw [not_or] at h
      rw [askAll_cons_of_new h.1 h.2, List.mem_cons, ih, List.mem_cons]
      by_cases he : family = first
      · subst he
        simp [h]
      · simp [he]

theorem foldl_declare (session : Session) (families : List String) :
    (families.foldl Session.declare session).written = session.written ∧
      (families.foldl Session.declare session).asked = session.asked ∧
      ∀ family, family ∈ (families.foldl Session.declare session).declared ↔
        family ∈ session.declared ∨ family ∈ families := by
  induction families generalizing session with
  | nil => simp
  | cons first families ih =>
    rcases ih (session.declare first) with ⟨hwritten, hasked, hdeclared⟩
    refine ⟨hwritten, hasked, ?_⟩
    intro family
    rw [List.foldl_cons, hdeclared, List.mem_cons]
    by_cases h : first ∈ session.declared
    · have hadd : (session.declare first).declared = session.declared := by
        simp [Session.declare, Session.add, h]
      rw [hadd]
      constructor
      · rintro (hmem | hmem)
        · exact .inl hmem
        · exact .inr (.inr hmem)
      · rintro (hmem | rfl | hmem)
        · exact .inl hmem
        · exact .inl h
        · exact .inr hmem
    · have hadd : (session.declare first).declared = first :: session.declared := by
        simp [Session.declare, Session.add, h]
      rw [hadd, List.mem_cons, or_assoc, or_left_comm]

theorem written_discover (sheet : Stylesheet) : (discover sheet).1.written = [] := by
  rw [discover, written_askAll, (foldl_declare _ _).1]
  rfl

/-- A family is asked for if it is used and not declared. -/
theorem mem_discover_iff {sheet : Stylesheet} {family : String} :
    family ∈ (discover sheet).2 ↔
      family ∈ usedFamilies sheet ∧ family ∉ declaredFamilies sheet := by
  rcases foldl_declare Session.empty (declaredFamilies sheet) with ⟨-, hasked, hdeclared⟩
  rw [discover, mem_askAll_iff, hasked, hdeclared]
  simp [Session.empty]

theorem map_family_number (index : Nat) (families : List String) :
    (number index families).map (·.family) = families := by
  induction families generalizing index with
  | nil => rfl
  | cons family families ih => rw [number, List.map_cons, ih]

/-- What a run starts with: nothing, if the text cannot use any family, or what was found in the
stylesheet. -/
theorem start_eq_ok {code : String} {session : Session} {found : List Discovery}
    (h : start code = .ok (session, found)) :
    (session, found) = (Session.empty, []) ∨
      ∃ sheet, Stylesheet.parse code.toList = .ok sheet ∧
        (session, found) = ((discover sheet).1, number 0 (discover sheet).2) := by
  unfold start at h
  split at h
  · split at h
    · contradiction
    · rename_i sheet hparse
      exact .inr ⟨sheet, hparse, (Except.ok.inj h).symm⟩
  · exact .inl (Except.ok.inj h).symm

/-! ## The whole of a run -/

theorem takeWaiting_of_flatMap {progress : Progress} {entries : List (String × String)}
    (h : ((progress.waiting.mergeSort fun a b => a.1.index ≤ b.1.index).flatMap
      fun entry => Faces.render entry.1.family entry.2) = entries.map Prod.snd) :
    takeWaiting progress =
      ⟨progress.text.prepend (joinRules ((fresh progress.session.written entries).map Prod.snd)),
        { progress.session with written := writtenAfter progress.session.written entries },
        []⟩ := by
  rw [takeWaiting, h, writeAll_eq]

theorem takeWaiting_of_nil {progress : Progress} (h : progress.waiting = []) :
    takeWaiting progress = progress := by
  obtain ⟨text, session, waiting⟩ := progress
  subst h
  simp [takeWaiting, writeAll, joinRules, Prepended.prepend]

/-- A stylesheet with rules in front of it, if there are any. -/
def outputOf (options : Options) (rules : List String) (code : String) : Option Output :=
  if rules.isEmpty then none
  else
    some ⟨joinRules rules ++ code,
      (⟨code, joinRules rules⟩ : Prepended).sourceMap options.sourceName none true⟩

theorem output_eq (options : Options) {progress : Progress} {code : String}
    {rules : List String} (h : progress.text = ⟨code, joinRules rules⟩) :
    progress.output options = outputOf options rules code := by
  rw [Progress.output, h]
  cases rules with
  | nil => simp [outputOf, Prepended.isChanged, joinRules]
  | cons rule rules => simp [outputOf, Prepended.isChanged, Prepended.display, joinRules]

/-- A run fails with the first answer that does. Else it puts in front of the stylesheet what is
injected, if there is anything. -/
theorem run_eq (options : Options) (answer : String → Answer)
    {schedule : List Discovery → List Discovery} {code : String}
    (hperm : (schedule (discoveries code)).Perm (discoveries code)) :
    run options answer schedule code =
      match start code with
      | .error failure => .error failure
      | .ok _ =>
        match firstFailure? answer (schedule (discoveries code)) with
        | some failure => .error failure
        | none =>
          .ok (outputOf options ((injected options answer schedule code).map Prod.snd) code) := by
  cases hstart : start code with
  | error failure => simp [run, hstart]
  | ok both =>
    obtain ⟨session, found⟩ := both
    have hsession : session.written = [] ∧ found.Pairwise fun a b => a.index < b.index := by
      rcases start_eq_ok hstart with he | ⟨sheet, -, he⟩
      · rcases Prod.mk.inj he with ⟨rfl, rfl⟩
        exact ⟨rfl, .nil⟩
      · rcases Prod.mk.inj he with ⟨rfl, rfl⟩
        exact ⟨written_discover sheet, pairwise_number 0 _⟩
    obtain ⟨hwritten, hpairwise⟩ := hsession
    have hfound : discoveries code = found := by simp [discoveries, hstart]
    rw [hfound] at hperm
    obtain ⟨order, sourceName⟩ := options
    cases order with
    | completion =>
      simp only [run, hstart, hfound, takeAnswers_completion]
      cases firstFailure? answer (schedule found) with
      | some failure => rfl
      | none =>
        dsimp only
        rw [takeWaiting_of_nil rfl]
        refine congrArg Except.ok (output_eq _ ?_)
        simp [Progress.written, Prepended.ofBody, hwritten, injected, hfound]
    | discovery =>
      simp only [run, hstart, hfound, takeAnswers_discovery]
      cases firstFailure? answer (schedule found) with
      | some failure => rfl
      | none =>
        have hflat := flatMap_pending answer found
        rw [← mergeSort_pending answer hpairwise hperm] at hflat
        dsimp only
        rw [takeWaiting_of_flatMap hflat]
        refine congrArg Except.ok (output_eq _ ?_)
        simp [Prepended.ofBody, Prepended.prepend, hwritten, injected, asked, hfound]

/-- A run asks for the families that a stylesheet uses and does not declare. -/
theorem mem_asked_iff {code family : String} :
    family ∈ asked code ↔
      mayUseFamilies code = true ∧ ∃ sheet, Stylesheet.parse code.toList = .ok sheet ∧
        family ∈ usedFamilies sheet ∧ family ∉ declaredFamilies sheet := by
  rw [asked, discoveries, start]
  by_cases hmay : mayUseFamilies code = true
  · rw [if_pos hmay]
    cases hparse : Stylesheet.parse code.toList with
    | error error => simp
    | ok sheet => simp [map_family_number, mem_discover_iff, hmay]
  · rw [if_neg hmay]
    simp [hmay]

/-! ## What is injected -/

theorem mem_renderings_iff {answer : String → Answer} {families : List String}
    {family rule : String} :
    (family, rule) ∈ renderings answer families ↔
      family ∈ families ∧ ∃ face ∈ (answer family).listed, rule = face.render family := by
  simp only [renderings, List.mem_flatMap, List.mem_map, Prod.mk.injEq]
  constructor
  · rintro ⟨found, hfound, face, hface, rfl, rfl⟩
    exact ⟨hfound, face, hface, rfl⟩
  · rintro ⟨hfamily, face, hface, rfl⟩
    exact ⟨family, hfamily, face, hface, rfl, rfl⟩

section

variable {options : Options} {answer : String → Answer}
  {schedule : List Discovery → List Discovery} {code : String}

theorem mem_renderings_schedule_iff
    (hperm : (schedule (discoveries code)).Perm (discoveries code)) {entry : String × String} :
    entry ∈ renderings answer ((schedule (discoveries code)).map (·.family)) ↔
      entry ∈ renderings answer (asked code) :=
  ((hperm.map _).flatMap_right _).mem_iff

/-- What is injected was made for a family that was asked for, from a face in its answer. -/
theorem mem_renderings_of_mem_injected
    (hperm : (schedule (discoveries code)).Perm (discoveries code)) {entry : String × String}
    (h : entry ∈ injected options answer schedule code) :
    entry ∈ renderings answer (asked code) := by
  unfold injected at h
  cases horder : options.order with
  | completion =>
    rw [horder] at h
    exact (mem_renderings_schedule_iff hperm).mp (fresh_subset (List.mem_reverse.mp h))
  | discovery =>
    rw [horder] at h
    exact fresh_subset h

/-- Every rule that was made is injected, for the first of the families it was made for. -/
theorem mem_map_injected_iff (hperm : (schedule (discoveries code)).Perm (discoveries code))
    {rule : String} :
    rule ∈ (injected options answer schedule code).map Prod.snd ↔
      rule ∈ (renderings answer (asked code)).map Prod.snd := by
  unfold injected
  cases options.order with
  | completion =>
    rw [List.map_reverse, List.mem_reverse, mem_fresh_map_iff]
    simp [mem_renderings_schedule_iff hperm]
  | discovery =>
    rw [mem_fresh_map_iff]
    simp

theorem firstFailure?_eq_none_iff
    (hperm : (schedule (discoveries code)).Perm (discoveries code)) :
    firstFailure? answer (schedule (discoveries code)) = none ↔
      ∀ family ∈ asked code, failure? (answer family) = none := by
  rw [firstFailure?, List.findSome?_eq_none_iff]
  simp only [hperm.mem_iff, asked, List.forall_mem_map]

/-- A run with an outcome has no answer that fails, and puts what is injected in front of the
stylesheet. -/
theorem run_eq_some (hperm : (schedule (discoveries code)).Perm (discoveries code))
    {out : Output} (h : run options answer schedule code = .ok (some out)) :
    (∀ family ∈ asked code, failure? (answer family) = none) ∧
      injected options answer schedule code ≠ [] ∧
      out.code = joinRules ((injected options answer schedule code).map Prod.snd) ++ code := by
  rw [run_eq options answer hperm] at h
  cases hstart : start code with
  | error failure => simp [hstart] at h
  | ok both =>
    simp only [hstart] at h
    cases hfailure : firstFailure? answer (schedule (discoveries code)) with
    | some failure => simp [hfailure] at h
    | none =>
      simp only [hfailure, Except.ok.injEq, outputOf, Option.ite_none_left_eq_some,
        Option.some.injEq] at h
      refine ⟨(firstFailure?_eq_none_iff hperm).mp hfailure, ?_, ?_⟩
      · simpa using h.1
      · rw [← h.2]

/-- A run with an outcome has read the stylesheet. -/
theorem exists_sheet_of_run (hperm : (schedule (discoveries code)).Perm (discoveries code))
    {out : Output} (h : run options answer schedule code = .ok (some out)) :
    mayUseFamilies code = true ∧ ∃ sheet, Stylesheet.parse code.toList = .ok sheet := by
  rcases run_eq_some hperm h with ⟨-, hinjected, -⟩
  rcases List.exists_mem_of_ne_nil _ hinjected with ⟨entry, hentry⟩
  have hrendered := mem_renderings_of_mem_injected hperm hentry
  rcases mem_asked_iff.mp (mem_renderings_iff.mp hrendered).1 with ⟨hmay, sheet, hparse, -⟩
  exact ⟨hmay, sheet, hparse⟩

/-- A run has an outcome if it asks for a family, no answer fails, and there is any rule for what
it asks for. -/
theorem exists_output (hperm : (schedule (discoveries code)).Perm (discoveries code))
    {families : List String} (hasked : asked code = families)
    (hanswers : ∀ family ∈ families, failure? (answer family) = none)
    (hrules : renderings answer families ≠ []) :
    ∃ out, run options answer schedule code = .ok (some out) := by
  subst hasked
  rcases List.exists_mem_of_ne_nil _ hrules with ⟨entry, hentry⟩
  have hrule : entry.2 ∈ (injected options answer schedule code).map Prod.snd :=
    (mem_map_injected_iff hperm).mpr (List.mem_map_of_mem hentry)
  have hinjected : injected options answer schedule code ≠ [] := by
    intro hnil
    rw [hnil] at hrule
    contradiction
  rw [run_eq options answer hperm]
  cases hstart : start code with
  | error failure => simp [asked, discoveries, hstart, renderings] at hentry
  | ok both =>
    simp [(firstFailure?_eq_none_iff hperm).mpr hanswers, outputOf, hinjected]

theorem run_eq_none (hperm : (schedule (discoveries code)).Perm (discoveries code))
    {both : Session × List Discovery} (hstart : start code = .ok both)
    (hanswers : ∀ family ∈ asked code, failure? (answer family) = none)
    (hinjected : injected options answer schedule code = []) :
    run options answer schedule code = .ok none := by
  rw [run_eq options answer hperm, hstart]
  simp only [(firstFailure?_eq_none_iff hperm).mpr hanswers, hinjected]
  rfl

end

end Injection

end WebFonts
