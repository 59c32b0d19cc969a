import WebFonts.Css.Event
import WebFonts.Css.Visit
import WebFonts.Face.Render
import WebFonts.Injection.Families
import WebFonts.Injection.Order
import WebFonts.Injection.Resolver
import WebFonts.Injection.Session
import WebFonts.SourceMap.Basic

/-!
# Injection

The rules for all families that a stylesheet uses and does not declare are put in front of it. The
families are asked for in the order in which they are found; the answers come in an order of their
own, the schedule, and the first one that fails decides the outcome.
-/

namespace WebFonts

open Css (Stylesheet SyntaxError Visit)

namespace Injection

/-- Why nothing can be injected. -/
inductive Failure where
  | stylesheet (error : SyntaxError)
  | resolver (error : ResolveError)
  /-- The resolver broke off. -/
  | aborted
  deriving DecidableEq, Repr

/-- The wording of a failure. -/
def Failure.message : Failure → String
  | stylesheet error => "Stylesheet parsing failed: " ++ error.message
  | resolver error => "Font family resolution failed: " ++ error.message
  | aborted => "Resolution task did not complete"

/-! ## Which families are asked for -/

/-- Whether a declaration says which fonts a text uses, or which family a face belongs to. -/
def namesFamilies (visit : Visit) : Bool := visit.declaration.property == "font-family"

/-- Whether a declaration stands in the rule for a face. -/
def inFontFace (visit : Visit) : Bool := visit.context.isInside "font-face"

/-- The families that a stylesheet declares. -/
def declaredFamilies (sheet : Stylesheet) : List String :=
  (sheet.visits.filter fun visit => namesFamilies visit && inFontFace visit).flatMap
    fun visit => visit.declaration.value.families

/-- The families that a stylesheet uses, in order and with repetitions. -/
def usedFamilies (sheet : Stylesheet) : List String :=
  (sheet.visits.filter fun visit => namesFamilies visit && !inFontFace visit).flatMap
    fun visit => visit.declaration.value.families

/-- Asks for families one after another, and lists those that were not asked for before. -/
def askAll (session : Session) : List String → Session × List String
  | [] => (session, [])
  | family :: families =>
    match session.ask family with
    | (session, false) => askAll session families
    | (session, true) =>
      let (session, asked) := askAll session families
      (session, family :: asked)

/-- The session after a stylesheet was looked through, and the families asked for in order. -/
def discover (sheet : Stylesheet) : Session × List String :=
  askAll ((declaredFamilies sheet).foldl Session.declare Session.empty) (usedFamilies sheet)

/-- A family that was asked for, with its number among these. -/
structure Discovery where
  index : Nat
  family : String
  deriving DecidableEq, Repr

/-- Numbers families in their order. -/
def number (index : Nat) : List String → List Discovery
  | [] => []
  | family :: families => ⟨index, family⟩ :: number (index + 1) families

/-! ## Answers -/

/-- The state of a run between two answers. -/
structure Progress where
  text : Prepended
  session : Session
  /-- Faces that wait for the end of the run, with the number of their family. -/
  waiting : List (Discovery × Faces)
  deriving DecidableEq, Repr

/-- Writes rules one after another, and lists those that were not written before. -/
def writeAll (session : Session) : List String → Session × List String
  | [] => (session, [])
  | rule :: rules =>
    match session.write rule with
    | (session, false) => writeAll session rules
    | (session, true) =>
      let (session, fresh) := writeAll session rules
      (session, rule :: fresh)

/-- Puts each rule in front of the text, one after another. -/
def prependEach (text : Prepended) (rules : List String) : Prepended :=
  rules.foldl (fun text rule => text.prepend (rule ++ "\n")) text

/-- The rules one after another, each with a line feed at its end. -/
def joinRules (rules : List String) : String :=
  rules.foldr (fun rule rest => rule ++ "\n" ++ rest) ""

/-- Takes the faces of a family: into the text, or among those that wait. -/
def takeFaces (order : Order) (progress : Progress) (discovery : Discovery) (faces : Faces) :
    Progress :=
  match order with
  | .completion =>
    let (session, fresh) := writeAll progress.session (Faces.render discovery.family faces)
    { progress with text := prependEach progress.text fresh, session }
  | .discovery => { progress with waiting := progress.waiting ++ [(discovery, faces)] }

/-- Takes one answer. No faces and an empty list of faces change nothing. -/
def takeAnswer (order : Order) (progress : Progress) (discovery : Discovery) :
    Answer → Except Failure Progress
  | .error error => .error (.resolver error)
  | .aborted => .error .aborted
  | .nothing => .ok progress
  | .faces faces =>
    if faces.toList.isEmpty then .ok progress else .ok (takeFaces order progress discovery faces)

/-- Takes the answers in the order of the schedule, up to the first that fails. -/
def takeAnswers (order : Order) (answer : String → Answer) (progress : Progress) :
    List Discovery → Except Failure Progress
  | [] => .ok progress
  | discovery :: scheduled =>
    match takeAnswer order progress discovery (answer discovery.family) with
    | .error failure => .error failure
    | .ok progress => takeAnswers order answer progress scheduled

/-- Takes the faces that wait, in the order in which their families were found, and puts their
rules in front of the text all at once. -/
def takeWaiting (progress : Progress) : Progress :=
  let inOrder := progress.waiting.mergeSort fun a b => a.1.index ≤ b.1.index
  let rules := inOrder.flatMap fun entry => Faces.render entry.1.family entry.2
  let (session, fresh) := writeAll progress.session rules
  { text := progress.text.prepend (joinRules fresh), session, waiting := [] }

/-! ## The whole of a run -/

/-- What can be chosen for a run. -/
structure Options where
  order : Order
  /-- The name of the stylesheet in the source map. -/
  sourceName : Option String
  deriving DecidableEq, Repr

/-- A stylesheet with rules injected, and the map back to what it was. -/
structure Output where
  code : String
  map : SourceMap
  deriving DecidableEq, Repr

/-- Whether a text can use any family. One that cannot is not even read. -/
def mayUseFamilies (code : String) : Bool :=
  Text.contains "font-family:".toList code.toList

/-- The session and the families asked for at the start of a run. -/
def start (code : String) : Except Failure (Session × List Discovery) :=
  if mayUseFamilies code then
    match Stylesheet.parse code.toList with
    | .error error => .error (.stylesheet error)
    | .ok sheet =>
      let (session, families) := discover sheet
      .ok (session, number 0 families)
  else .ok (Session.empty, [])

/-- The outcome of a run that took all answers: none if nothing was injected. -/
def Progress.output (progress : Progress) (options : Options) : Option Output :=
  if progress.text.isChanged then
    some ⟨progress.text.display, progress.text.sourceMap options.sourceName none true⟩
  else none

/-- Injects into a stylesheet the rules for the families it uses and does not declare. The
schedule puts what was asked for into the order in which the answers come. -/
def run (options : Options) (answer : String → Answer)
    (schedule : List Discovery → List Discovery) (code : String) :
    Except Failure (Option Output) :=
  match start code with
  | .error failure => .error failure
  | .ok (session, discoveries) =>
    let progress : Progress := ⟨Prepended.ofBody code, session, []⟩
    match takeAnswers options.order answer progress (schedule discoveries) with
    | .error failure => .error failure
    | .ok progress => .ok ((takeWaiting progress).output options)

/-- The schedule by delays. Answers without a delay come first; those with equal delays come in
the order in which they were asked for. -/
def byDelay (delay : String → Option Nat) (discoveries : List Discovery) : List Discovery :=
  discoveries.mergeSort fun a b =>
    match delay a.family, delay b.family with
    | none, _ => true
    | some _, none => false
    | some m, some n => m ≤ n

end Injection

end WebFonts
