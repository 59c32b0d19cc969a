import WebFonts.Proofs.Face.Plain
import WebFonts.Proofs.Injection.Declarations

/-! # What a run does to a stylesheet

A run for plain faces leaves a stylesheet as it was, behind rules that declare the families they
were made for. Families that cannot stand between single quotes are the exception. -/

namespace WebFonts.Injection

open Css (Node Stylesheet Closed)
open Text

/-! ## The family of a rule -/

theorem visitsAll_declarations (context : Css.Context) (found : List Css.Declaration) :
    Node.visitsAll context (found.map .declaration) = found.map fun d => ⟨d, context⟩ := by
  induction found with
  | nil => rfl
  | cons first found ih => rw [List.map_cons, Node.visitsAll, ih]; rfl

theorem name_of_mem_optional {property : String} {value : Option String}
    {descriptor : String × List Char} (h : descriptor ∈ Face.optional property value) :
    descriptor.1 = property := by
  cases value with
  | none => contradiction
  | some value =>
    by_cases hempty : value.isEmpty
    · simp [Face.optional, hempty] at h
    · simp only [Face.optional, hempty, Bool.false_eq_true, ↓reduceIte, List.mem_singleton] at h
      rw [h]

theorem name_of_mem_details {face : Face} {descriptor : String × List Char}
    (h : descriptor ∈ face.details) : descriptor.1 ≠ "font-family" := by
  simp only [Face.details, List.mem_append, List.mem_cons, List.not_mem_nil, or_false] at h
  rcases h with ((((((rfl | rfl) | h) | h) | h) | h) | h)
  · exact (by decide : "src" ≠ "font-family")
  · exact (by decide : "font-display" ≠ "font-family")
  all_goals
    rw [name_of_mem_optional h]
    decide

theorem filter_declarationsFrom {found : List (String × List Char)}
    (h : ∀ d ∈ found, d.1 ≠ "font-family") (place : Nat) :
    (Face.declarationsFrom place found).filter (·.property == "font-family") = [] := by
  induction found generalizing place with
  | nil => rfl
  | cons first found ih =>
    have hfirst : ((Face.declarationAt place first).property == "font-family") = false :=
      beq_eq_false_iff_ne.mpr (h first List.mem_cons_self)
    rw [Face.declarationsFrom, List.filter_cons_of_neg (by simp [hfirst]),
      ih fun d hd => h d (List.mem_cons_of_mem _ hd)]

theorem declaresOnly_blockNode {family : String} (hfamily : Face.isQuotable family = true)
    (face : Face) : declaresOnly family (Face.blockNode (face.descriptors family)) = true := by
  let first := ("font-family", '\'' :: (family.toList ++ ['\'']))
  let context : Css.Context := ⟨some ("font-face", ""), none⟩
  have hvalue : (Face.declarationAt 12 first).value = .tokens [.string family] := by
    simp only [Face.declarationAt, first]
    exact Face.value_family hfamily
  have hfilter : (Face.declarationsFrom 12 (face.descriptors family)).filter
      (·.property == "font-family") = [Face.declarationAt 12 first] := by
    rw [Face.descriptors, Face.declarationsFrom, List.filter_cons_of_pos (by rfl),
      filter_declarationsFrom fun d hd => name_of_mem_details hd]
  have hvisits : ((Face.blockNode (face.descriptors family)).visits ⟨none, none⟩).filter
      namesFamilies = [⟨Face.declarationAt 12 first, context⟩] := by
    have hall : (Face.blockNode (face.descriptors family)).visits ⟨none, none⟩ =
        (Face.declarationsFrom 12 (face.descriptors family)).map fun d => ⟨d, context⟩ :=
      visitsAll_declarations context _
    have hmap := congrArg (List.map fun d => (⟨d, context⟩ : Css.Visit)) hfilter
    rw [hall, List.filter_map]
    exact hmap
  have hfamilies : (Face.declarationAt 12 first).value.families = [family] := by
    rw [hvalue]
    rfl
  have hinside : context.isInside "font-face" = true := by decide
  rw [Face.blockNode, declaresOnly, ← Face.blockNode, hvisits]
  simp only [hfamilies, beq_self_eq_true, Bool.and_true, inFontFace]
  exact (Bool.and_eq_true _ _).mpr ⟨by decide, hinside⟩

theorem declaresAlone_render {family : String} (hfamily : Face.isQuotable family = true)
    {face : Face} (hface : face.isPlain = true) :
    declaresAlone family (face.render family) = true := by
  rw [declaresAlone, Face.parse_render hfamily hface]
  exact declaresOnly_blockNode hfamily face

/-- A run for plain faces keeps the stylesheet if each family that a rule is injected for can stand
between single quotes. -/
theorem run_keeps_stylesheet (options : Options) (answer : String → Answer)
    (schedule : List Discovery → List Discovery) (code : String) (out : Output)
    (hperm : (schedule (discoveries code)).Perm (discoveries code))
    (hplain : ∀ family, ∀ face ∈ (answer family).listed, face.isPlain = true)
    (hquotable : ∀ entry ∈ injected options answer schedule code,
      Face.isQuotable entry.1 = true)
    (h : run options answer schedule code = .ok (some out)) :
    KeepsStylesheet options answer schedule code out := by
  refine keepsStylesheet_of_declaresAlone hperm ?_ h
  intro entry hentry
  obtain ⟨-, face, hface, hrule⟩ :=
    mem_renderings_iff.mp (mem_renderings_of_mem_injected hperm hentry)
  rw [hrule]
  exact declaresAlone_render (hquotable entry hentry) (hplain entry.1 face hface)

def sampleFace : Face :=
  { Face.ofSources (.lone (.shorthand "Arial")) with weight := some "700" }

/-- Two faces for one family, and a face for all others. -/
def sampleAnswer (family : String) : Answer :=
  if family = "Plain" then
    .faces (.list [Face.ofSources (.list [.shorthand "/f.woff2", .source (.installed "Plain")]),
      Face.ofSources (.lone (.source (.remote "/g" (some "woff") (some "variations"))))])
  else .faces (.lone sampleFace)

theorem isPlain_sampleAnswer :
    ∀ family, ∀ face ∈ (sampleAnswer family).listed, face.isPlain = true := by
  intro family
  unfold sampleAnswer
  split <;> decide

def sampleCode : String := "p\x7bfont-family:Plain,'x\x7d/*\"'\x7d"

/-- Braces, double quotes and comment marks in a family do no harm, in whatever order the answers
come. -/
theorem run_keeps_stylesheet_braces :
    ∃ out, run ⟨.discovery, none⟩ sampleAnswer List.reverse sampleCode = .ok (some out) ∧
      KeepsStylesheet ⟨.discovery, none⟩ sampleAnswer List.reverse sampleCode out := by
  have hasked : asked sampleCode = ["Plain", "x\x7d/*\""] := by decide +kernel
  have hentries : injected ⟨.discovery, none⟩ sampleAnswer List.reverse sampleCode =
      fresh [] (renderings sampleAnswer ["Plain", "x\x7d/*\""]) :=
    congrArg (fun families => fresh [] (renderings sampleAnswer families)) hasked
  have hquotable : ∀ entry ∈ injected ⟨.discovery, none⟩ sampleAnswer List.reverse sampleCode,
      Face.isQuotable entry.1 = true := by
    rw [hentries]
    decide +kernel
  obtain ⟨out, hout⟩ : ∃ out, run ⟨.discovery, none⟩ sampleAnswer List.reverse sampleCode =
      .ok (some out) :=
    exists_output (List.reverse_perm _) hasked (by decide) (by decide)
  have hkeeps := run_keeps_stylesheet ⟨.discovery, none⟩ sampleAnswer List.reverse sampleCode out
    (List.reverse_perm _) isPlain_sampleAnswer hquotable hout
  exact ⟨out, hout, hkeeps⟩

/-! ## Families that break a stylesheet -/

/-- A run that asks for one family and puts its rule in front does not keep the stylesheet. -/
def Breaks (code family : String) : Prop :=
  asked code = [family] ∧
    ∃ out, run ⟨.completion, none⟩ sampleAnswer id code = .ok (some out) ∧
      ¬KeepsStylesheet ⟨.completion, none⟩ sampleAnswer id code out

/-- Whether the first rule of a text declares a family and no other. -/
def declaresFirst (family : String) (text : List Char) : Bool :=
  match Stylesheet.parse text with
  | .ok ⟨node :: _⟩ => declaresOnly family node
  | _ => false

theorem declaresFirst_of_keepsStylesheet {options : Options} {answer : String → Answer}
    {schedule : List Discovery → List Discovery} {code : String} {out : Output}
    (h : KeepsStylesheet options answer schedule code out) {family rule : String}
    {entries : List (String × String)}
    (hentries : injected options answer schedule code = (family, rule) :: entries) :
    declaresFirst family out.code.toList = true := by
  obtain ⟨-, sheet, nodes, -, hparse, hnodes⟩ := h
  rw [hentries] at hnodes
  cases hnodes with
  | cons hnode _ =>
    rw [declaresFirst, hparse]
    exact hnode

theorem breaks_of_declaresFirst {code family : String} (hasked : asked code = [family])
    (hanswer : sampleAnswer family = .faces (.lone sampleFace))
    (h : declaresFirst family (sampleFace.render family ++ "\n" ++ code).toList = false) :
    Breaks code family := by
  have hrules : renderings sampleAnswer [family] = [(family, sampleFace.render family)] := by
    rw [renderings_singleton, hanswer]
    rfl
  have hinjected : injected ⟨.completion, none⟩ sampleAnswer id code =
      [(family, sampleFace.render family)] := by
    have hfresh := congrArg (fun families => (fresh [] (renderings sampleAnswer families)).reverse)
      hasked
    rw [hrules] at hfresh
    exact hfresh
  obtain ⟨out, hout⟩ : ∃ out, run ⟨.completion, none⟩ sampleAnswer id code = .ok (some out) := by
    refine exists_output (.refl _) hasked ?_ (hrules ▸ List.cons_ne_nil _ _)
    intro other hother
    rw [List.mem_singleton.mp hother, hanswer]
    rfl
  refine ⟨hasked, out, hout, ?_⟩
  intro hkeeps
  have hfirst := declaresFirst_of_keepsStylesheet hkeeps hinjected
  have hjoin : joinRules ([(family, sampleFace.render family)].map Prod.snd) ++ code =
      sampleFace.render family ++ "\n" ++ code := by
    simp [joinRules]
  rw [hkeeps.1, hinjected, hjoin, h] at hfirst
  contradiction

/-- A single quote ends the string that the family stands in, a backslash changes what the string
says, and a line feed breaks it off. -/
theorem quote_backslash_and_line_feed_break :
    (∀ family, ∀ face ∈ (sampleAnswer family).listed, face.isPlain = true) ∧
      Breaks "p\x7bfont-family:\"O'Neil\"\x7d" "O'Neil" ∧
      Breaks "p\x7bfont-family:\"a\\\\b\"\x7d" "a\\b" ∧
      Breaks "p\x7bfont-family:\"a\\a b\"\x7d" "a\nb" := by
  refine ⟨isPlain_sampleAnswer, ?_, ?_, ?_⟩
  · exact breaks_of_declaresFirst (by decide +kernel) (by decide) (by decide +kernel)
  · exact breaks_of_declaresFirst (by decide +kernel) (by decide) (by decide +kernel)
  · exact breaks_of_declaresFirst (by decide +kernel) (by decide) (by decide +kernel)

end WebFonts.Injection
