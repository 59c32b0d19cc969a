import WebFonts.Proofs.Face.Reading
import WebFonts.Proofs.Injection.Outcome

/-! # Rules in front of a stylesheet

What a stylesheet declares and uses once rules for faces stand in front of it. -/

namespace WebFonts.Injection

open Css (Node Stylesheet Visit Context Closed)
open Text

/-! ## Rules for one family -/

/-- Whether a node is a rule for a face that names one family, once, and no other. -/
def declaresOnly (family : String) (node : Node) : Bool :=
  match node with
  | .block (.atRule name _) _ _ =>
    sameLetters name.toList "font-face".toList &&
      match (node.visits ⟨none, none⟩).filter namesFamilies with
      | [visit] => inFontFace visit && visit.declaration.value.families == [family]
      | _ => false
  | _ => false

/-- Whether a text alone is one rule, for a face that names one family, once, and no other. -/
def declaresAlone (family rule : String) : Bool :=
  match Stylesheet.parse rule.toList with
  | .ok ⟨[node]⟩ => declaresOnly family node
  | _ => false

theorem exists_visit_of_declaresOnly {family : String} {node : Node}
    (h : declaresOnly family node = true) :
    ∃ visit, (node.visits ⟨none, none⟩).filter namesFamilies = [visit] ∧
      inFontFace visit = true ∧ visit.declaration.value.families = [family] := by
  unfold declaresOnly at h
  split at h
  · rw [Bool.and_eq_true] at h
    obtain ⟨-, h⟩ := h
    split at h
    · rename_i visit hvisits
      rw [Bool.and_eq_true, beq_iff_eq] at h
      exact ⟨visit, hvisits, h⟩
    · contradiction
  · contradiction

theorem eq_of_declaresOnly {family other : String} {node : Node}
    (h : declaresOnly family node = true) (h' : declaresOnly other node = true) :
    family = other := by
  rcases exists_visit_of_declaresOnly h with ⟨visit, hvisits, -, hfamilies⟩
  rcases exists_visit_of_declaresOnly h' with ⟨visit', hvisits', -, hfamilies'⟩
  rw [hvisits] at hvisits'
  obtain rfl := List.cons.inj hvisits' |>.1
  rw [hfamilies] at hfamilies'
  exact List.cons.inj hfamilies' |>.1

theorem exists_node_of_declaresAlone {family rule : String}
    (h : declaresAlone family rule = true) :
    ∃ node, Stylesheet.parse rule.toList = .ok ⟨[node]⟩ ∧ declaresOnly family node = true := by
  unfold declaresAlone at h
  split at h
  · rename_i node hparse
    exact ⟨node, hparse, h⟩
  · contradiction

theorem eq_of_declaresAlone {family other rule : String} (h : declaresAlone family rule = true)
    (h' : declaresAlone other rule = true) : family = other := by
  rcases exists_node_of_declaresAlone h with ⟨node, hparse, hnode⟩
  rcases exists_node_of_declaresAlone h' with ⟨node', hparse', hnode'⟩
  rw [hparse] at hparse'
  have hrules := congrArg Stylesheet.rules (Except.ok.inj hparse')
  obtain rfl := List.cons.inj hrules |>.1
  exact eq_of_declaresOnly hnode hnode'

/-! ## Moved nodes -/

theorem filter_map_shift (n : Nat) (p : Visit → Bool) (hp : ∀ visit, p (visit.shift n) = p visit)
    (visits : List Visit) :
    (visits.map (Visit.shift n)).filter p = (visits.filter p).map (Visit.shift n) := by
  rw [List.filter_map]
  exact congrArg (List.map _) (congrFun (congrArg List.filter (funext hp)) visits)

theorem filter_and (p q : Visit → Bool) (visits : List Visit) :
    visits.filter (fun visit => p visit && q visit) = (visits.filter p).filter q := by
  rw [List.filter_filter]
  exact congrFun (congrArg List.filter (funext fun visit => Bool.and_comm _ _)) visits

theorem declaresOnly_shift (n : Nat) (family : String) (node : Node) :
    declaresOnly family (node.shift n) = declaresOnly family node := by
  have hvisits := Node.visits_shift n ⟨none, none⟩ node
  have hfilter := filter_map_shift n namesFamilies (fun visit => rfl) (node.visits ⟨none, none⟩)
  rw [← hvisits] at hfilter
  cases node with
  | declaration found => rfl
  | statement name prelude span => rfl
  | block head body span =>
    cases head with
    | qualified prelude => rfl
    | atRule name prelude =>
      rw [Node.shift] at hfilter
      rw [Node.shift, declaresOnly, declaresOnly, hfilter]
      rcases (Node.block (.atRule name prelude) body span).visits ⟨none, none⟩ |>.filter
        namesFamilies with _ | ⟨visit, _ | ⟨second, rest⟩⟩ <;> rfl

theorem declaredFamilies_shift (n : Nat) (nodes : List Node) :
    declaredFamilies ⟨Node.shiftAll n nodes⟩ = declaredFamilies ⟨nodes⟩ := by
  rw [declaredFamilies, Stylesheet.visits, Node.visitsAll_shift,
    filter_map_shift n _ (fun visit => rfl), List.flatMap_map]
  rfl

theorem usedFamilies_shift (n : Nat) (nodes : List Node) :
    usedFamilies ⟨Node.shiftAll n nodes⟩ = usedFamilies ⟨nodes⟩ := by
  rw [usedFamilies, Stylesheet.visits, Node.visitsAll_shift,
    filter_map_shift n _ (fun visit => rfl), List.flatMap_map]
  rfl

/-! ## Rules in front -/

theorem visitsAll_append (context : Context) (nodes more : List Node) :
    Node.visitsAll context (nodes ++ more) =
      Node.visitsAll context nodes ++ Node.visitsAll context more := by
  induction nodes with
  | nil => rfl
  | cons node nodes ih => simp [Node.visitsAll, ih]

theorem declaredFamilies_append (nodes more : List Node) :
    declaredFamilies ⟨nodes ++ more⟩ = declaredFamilies ⟨nodes⟩ ++ declaredFamilies ⟨more⟩ := by
  simp [declaredFamilies, Stylesheet.visits, visitsAll_append]

theorem usedFamilies_append (nodes more : List Node) :
    usedFamilies ⟨nodes ++ more⟩ = usedFamilies ⟨nodes⟩ ++ usedFamilies ⟨more⟩ := by
  simp [usedFamilies, Stylesheet.visits, visitsAll_append]

theorem declaredFamilies_of_declaresOnly {family : String} {node : Node}
    (h : declaresOnly family node = true) : declaredFamilies ⟨[node]⟩ = [family] := by
  rcases exists_visit_of_declaresOnly h with ⟨visit, hvisits, hface, hfamilies⟩
  have hsheet : (Stylesheet.mk [node]).visits = node.visits ⟨none, none⟩ := List.append_nil _
  rw [declaredFamilies, hsheet, filter_and, hvisits]
  simp [hface, hfamilies]

theorem usedFamilies_of_declaresOnly {family : String} {node : Node}
    (h : declaresOnly family node = true) : usedFamilies ⟨[node]⟩ = [] := by
  rcases exists_visit_of_declaresOnly h with ⟨visit, hvisits, hface, -⟩
  have hsheet : (Stylesheet.mk [node]).visits = node.visits ⟨none, none⟩ := List.append_nil _
  rw [usedFamilies, hsheet, filter_and, hvisits]
  simp [hface]

/-- Each node in a list declares the family of the entry in its place. -/
def DeclareEach (entries : List (String × String)) (nodes : List Node) : Prop :=
  List.Forall₂ (fun entry node => declaresOnly entry.1 node = true) entries nodes

theorem DeclareEach.declaredFamilies {entries : List (String × String)} {nodes : List Node}
    (h : DeclareEach entries nodes) :
    Injection.declaredFamilies ⟨nodes⟩ = entries.map Prod.fst := by
  induction h with
  | nil => rfl
  | @cons entry node entries nodes hnode _ ih =>
    rw [← List.singleton_append, declaredFamilies_append, ih,
      declaredFamilies_of_declaresOnly hnode]
    rfl

theorem DeclareEach.usedFamilies {entries : List (String × String)} {nodes : List Node}
    (h : DeclareEach entries nodes) : Injection.usedFamilies ⟨nodes⟩ = [] := by
  induction h with
  | nil => rfl
  | @cons entry node entries nodes hnode _ ih =>
    rw [← List.singleton_append, usedFamilies_append, ih, usedFamilies_of_declaresOnly hnode]
    rfl

theorem DeclareEach.shift {entries : List (String × String)} {nodes : List Node}
    (h : DeclareEach entries nodes) (n : Nat) : DeclareEach entries (Node.shiftAll n nodes) := by
  induction h with
  | nil => exact .nil
  | @cons entry node entries nodes hnode _ ih =>
    refine .cons ?_ ih
    rw [declaresOnly_shift]
    exact hnode

/-- A rule for a face ends where its block does. -/
theorem closed_of_mem_renderings {answer : String → Answer} {families : List String}
    {entry : String × String} (h : entry ∈ renderings answer families) :
    Closed entry.2.toList := by
  rcases mem_renderings_iff.mp h with ⟨-, face, -, hrule⟩
  rw [hrule, Face.toList_render]
  exact Face.closed_block _

/-- Rules that are each read alone as a rule for one family are read the same in front of a
stylesheet, which only moves. -/
theorem parse_joinRules {entries : List (String × String)}
    (hclosed : ∀ entry ∈ entries, Closed entry.2.toList)
    (hentries : ∀ entry ∈ entries, declaresAlone entry.1 entry.2 = true) {code : List Char}
    {sheet : Stylesheet} (h : Stylesheet.parse code = .ok sheet) :
    ∃ nodes, DeclareEach entries nodes ∧
      Stylesheet.parse ((joinRules (entries.map Prod.snd)).toList ++ code) =
        .ok ⟨nodes ++ Node.shiftAll (utf8Width (joinRules (entries.map Prod.snd)).toList)
          sheet.rules⟩ := by
  induction entries with
  | nil => exact ⟨[], .nil, by simpa [joinRules, utf8Width, Node.shiftAll_zero] using h⟩
  | cons entry entries ih =>
    obtain ⟨nodes, hnodes, hrest⟩ := ih
      (fun other hmem => hclosed other (List.mem_cons_of_mem _ hmem))
      (fun other hmem => hentries other (List.mem_cons_of_mem _ hmem))
    obtain ⟨node, hparse, hnode⟩ :=
      exists_node_of_declaresAlone (hentries entry List.mem_cons_self)
    have hjoin : (joinRules ((entry :: entries).map Prod.snd)).toList =
        entry.2.toList ++ '\n' :: (joinRules (entries.map Prod.snd)).toList := by
      rw [List.map_cons, joinRules_cons]
      simp
    have hwidth : utf8Width (joinRules ((entry :: entries).map Prod.snd)).toList =
        utf8Width entry.2.toList + 1 +
          utf8Width (joinRules (entries.map Prod.snd)).toList := by
      rw [hjoin, utf8Width_append, utf8Width, Nat.add_assoc]
      rfl
    refine ⟨node :: Node.shiftAll (utf8Width entry.2.toList + 1) nodes,
      .cons hnode (hnodes.shift _), ?_⟩
    rw [hwidth, hjoin, List.append_assoc, List.cons_append,
      Css.parse_closed_append (hclosed entry List.mem_cons_self) hparse hrest,
      Node.shiftAll_append, Node.shiftAll_shiftAll]
    rfl

/-! ## A run -/

/-- The text with the rules in front is a stylesheet: one rule for each that was injected, which
declares its family and no other, and then the rules that were there before, further down. -/
def KeepsStylesheet (options : Options) (answer : String → Answer)
    (schedule : List Discovery → List Discovery) (code : String) (out : Output) : Prop :=
  let entries := injected options answer schedule code
  let inserted := joinRules (entries.map Prod.snd)
  out.code = inserted ++ code ∧
    ∃ sheet nodes, Stylesheet.parse code.toList = .ok sheet ∧
      Stylesheet.parse out.code.toList =
        .ok ⟨nodes ++ Node.shiftAll (utf8Width inserted.toList) sheet.rules⟩ ∧
      DeclareEach entries nodes

/-- A run keeps the stylesheet if each rule that it injects, read alone, declares its family. -/
theorem keepsStylesheet_of_declaresAlone {options : Options} {answer : String → Answer}
    {schedule : List Discovery → List Discovery} {code : String} {out : Output}
    (hperm : (schedule (discoveries code)).Perm (discoveries code))
    (hinjected : ∀ entry ∈ injected options answer schedule code,
      declaresAlone entry.1 entry.2 = true)
    (h : run options answer schedule code = .ok (some out)) :
    KeepsStylesheet options answer schedule code out := by
  rcases run_eq_some hperm h with ⟨-, -, hcode⟩
  rcases exists_sheet_of_run hperm h with ⟨-, sheet, hparse⟩
  have hclosed : ∀ entry ∈ injected options answer schedule code, Closed entry.2.toList := by
    intro entry hentry
    exact closed_of_mem_renderings (mem_renderings_of_mem_injected hperm hentry)
  rcases parse_joinRules hclosed hinjected hparse with ⟨nodes, hnodes, hparsed⟩
  refine ⟨hcode, sheet, nodes, hparse, ?_, hnodes⟩
  rw [hcode, String.toList_append]
  exact hparsed

end WebFonts.Injection
