import WebFonts.Proofs.Css.Nesting

/-! # Walks through a tree

A visit tells what the innermost at-rule and the innermost other rule around a declaration say of
themselves. These two rules are the smallest nodes of their kinds around the text of the
declaration. -/

namespace WebFonts.Css

/-! ## Declarations with the rules around them -/

/-- An at-rule, with or without a block, says its name and prelude. -/
def Node.atRule? : Node → Option (String × String)
  | .declaration _ => none
  | .statement name prelude _ => some (name, prelude)
  | .block head _ _ => head.atRule?

/-- A rule that is not an at-rule says its prelude. -/
def Node.qualified? : Node → Option String
  | .declaration _ => none
  | .statement .. => none
  | .block head _ _ => head.qualified?

def Node.isAtRule (node : Node) : Bool := node.atRule?.isSome

def Node.isQualified (node : Node) : Bool := node.qualified?.isSome

/-- The innermost at-rule and the innermost other rule around a place. -/
structure Enclosing where
  atRule : Option Node
  rule : Option Node

/-- What is innermost inside of a block. -/
def Enclosing.enter (enclosing : Enclosing) (block : Node) (head : Head) : Enclosing :=
  match head with
  | .atRule .. => { enclosing with atRule := some block }
  | .qualified _ => { enclosing with rule := some block }

/-- What the innermost rules say of themselves. -/
def Enclosing.context (enclosing : Enclosing) : Context :=
  ⟨enclosing.atRule.bind Node.atRule?, enclosing.rule.bind Node.qualified?⟩

/-- A declaration and the rules it stands in. -/
structure Walked where
  declaration : Declaration
  enclosing : Enclosing

def Walked.toVisit (walked : Walked) : Visit := ⟨walked.declaration, walked.enclosing.context⟩

mutual

/-- The declarations in a node, in the order of the text. -/
def Node.walk (enclosing : Enclosing) : Node → List Walked
  | .declaration found => [⟨found, enclosing⟩]
  | .statement .. => []
  | .block head body span => walkAll (enclosing.enter (.block head body span) head) body

/-- The declarations in a list of nodes, in the order of the text. -/
def Node.walkAll (enclosing : Enclosing) : List Node → List Walked
  | [] => []
  | node :: nodes => node.walk enclosing ++ walkAll enclosing nodes

end

/-- The declarations of a stylesheet, in the order of the text. -/
def Stylesheet.walk (sheet : Stylesheet) : List Walked := Node.walkAll ⟨none, none⟩ sheet.rules

/-! ## Visits tell of walks -/

theorem Enclosing.context_enter (enclosing : Enclosing) (head : Head) (body : List Node)
    (span : Span) :
    (enclosing.enter (.block head body span) head).context = enclosing.context.enter head := by
  cases head <;> rfl

mutual

theorem Node.visits_context (enclosing : Enclosing) (node : Node) :
    node.visits enclosing.context = (node.walk enclosing).map Walked.toVisit := by
  cases node with
  | declaration found => rfl
  | statement name prelude span => rfl
  | block head body span =>
    rw [visits, ← Enclosing.context_enter enclosing head body span, walk]
    exact Node.visitsAll_context _ body

theorem Node.visitsAll_context (enclosing : Enclosing) (nodes : List Node) :
    visitsAll enclosing.context nodes = (walkAll enclosing nodes).map Walked.toVisit := by
  cases nodes with
  | nil => rfl
  | cons node nodes =>
    rw [visitsAll, walkAll, List.map_append, Node.visits_context enclosing node,
      Node.visitsAll_context enclosing nodes]

end

/-! ## Each declaration is met once -/

def Node.toDeclaration? : Node → Option Declaration
  | .declaration found => some found
  | .statement .. => none
  | .block .. => none

mutual

theorem Node.map_declaration_walk (enclosing : Enclosing) (node : Node) :
    (node.walk enclosing).map Walked.declaration = node.nodes.filterMap toDeclaration? := by
  cases node with
  | declaration found => rfl
  | statement name prelude span => rfl
  | block head body span =>
    rw [walk, nodes, List.filterMap_cons_none rfl]
    exact Node.map_declaration_walkAll _ body

theorem Node.map_declaration_walkAll (enclosing : Enclosing) (nodes : List Node) :
    (walkAll enclosing nodes).map Walked.declaration =
      (nodesAll nodes).filterMap toDeclaration? := by
  cases nodes with
  | nil => rfl
  | cons node nodes =>
    rw [walkAll, nodesAll, List.map_append, List.filterMap_append,
      Node.map_declaration_walk enclosing node, Node.map_declaration_walkAll enclosing nodes]

end

theorem mem_nodesAll_of_walked {enclosing : Enclosing} {nodes : List Node} {walked : Walked}
    (h : walked ∈ Node.walkAll enclosing nodes) :
    .declaration walked.declaration ∈ Node.nodesAll nodes := by
  have hmem := List.mem_map_of_mem h (f := Walked.declaration)
  rw [Node.map_declaration_walkAll] at hmem
  obtain ⟨node, hnode, he⟩ := List.mem_filterMap.mp hmem
  cases node with
  | declaration found =>
    obtain rfl := Option.some.inj he
    exact hnode
  | statement => contradiction
  | block => contradiction

/-- A walk goes from each declaration to one behind its end. -/
theorem Nested.pairwise_walkAll {first last : Nat} {nodes : List Node}
    (h : Nested first nodes last) (enclosing : Enclosing) :
    (Node.walkAll enclosing nodes).Pairwise fun walked later =>
      walked.declaration.span.stop ≤ later.declaration.span.start := by
  induction h generalizing enclosing with
  | nil => exact .nil
  | leaf found _ _ hrest ih =>
    cases found with
    | statement => exact ih enclosing
    | declaration =>
      refine .cons ?_ (ih enclosing)
      intro later hlater
      exact (hrest.bounds (mem_nodesAll_of_walked hlater)).1
  | block head _ _ hbody hrest ih ih' =>
    apply List.pairwise_append.mpr
    refine ⟨ih _, ih' enclosing, ?_⟩
    intro walked hwalked later hlater
    have hstop := (hbody.bounds (mem_nodesAll_of_walked hwalked)).2.2
    have hstart := (hrest.bounds (mem_nodesAll_of_walked hlater)).1
    simp only [Node.span] at hstop hstart
    omega

/-! ## The smallest rule around a declaration -/

def Span.Covers (outer inner : Span) : Prop :=
  outer.start ≤ inner.start ∧ inner.stop ≤ outer.stop

def Span.width (span : Span) : Nat := span.stop - span.start

/-- Of the nodes of a kind, the one with the smallest span around another; there is none exactly if
no such node lies around it. -/
def IsInnermost (kind : Node → Bool) (nodes : List Node) (span : Span) : Option Node → Prop
  | none => ∀ node ∈ nodes, kind node = true → ¬node.span.Covers span
  | some found => found ∈ nodes ∧ kind found = true ∧ found.span.Covers span ∧
      ∀ node ∈ nodes, kind node = true → node.span.Covers span →
        node = found ∨ found.span.width < node.span.width

theorem not_covers_of_apart {outer inner : Span} (hinner : inner.start < inner.stop)
    (h : outer.stop ≤ inner.start ∨ inner.stop ≤ outer.start) : ¬outer.Covers inner := by
  intro hcovers
  have hstart := hcovers.1
  have hstop := hcovers.2
  omega

/-- Nodes that lie in front of a span or behind it do not count. -/
theorem IsInnermost.of_apart {kind : Node → Bool} {nodes more : List Node} {span : Span}
    {found : Option Node} (h : IsInnermost kind nodes span found)
    (hspan : span.start < span.stop) (hsubset : nodes ⊆ more)
    (hmore : ∀ node ∈ more,
      node ∈ nodes ∨ node.span.stop ≤ span.start ∨ span.stop ≤ node.span.start) :
    IsInnermost kind more span found := by
  have hcount : ∀ node ∈ more, node.span.Covers span → node ∈ nodes := by
    intro node hnode hcovers
    apply (hmore node hnode).resolve_right
    intro hapart
    exact not_covers_of_apart hspan hapart hcovers
  cases found with
  | none =>
    intro node hnode hkind hcovers
    exact h node (hcount node hnode hcovers) hkind hcovers
  | some found =>
    obtain ⟨hfound, hkind, hcovers, hsmallest⟩ := h
    refine ⟨hsubset hfound, hkind, hcovers, ?_⟩
    intro node hnode hkind' hcovers'
    exact hsmallest node (hcount node hnode hcovers') hkind' hcovers'

/-- A node around all others comes last. -/
theorem IsInnermost.cons {kind : Node → Bool} {nodes : List Node} {span : Span}
    {found : Option Node} (h : IsInnermost kind nodes span found) (outer : Node)
    (hcovers : outer.span.Covers span)
    (houter : ∀ node ∈ nodes, node.span.width < outer.span.width) :
    IsInnermost kind (outer :: nodes) span
      (found.or (if kind outer then some outer else none)) := by
  cases found with
  | some found =>
    obtain ⟨hfound, hkind, hcovers', hsmallest⟩ := h
    refine ⟨List.mem_cons_of_mem _ hfound, hkind, hcovers', ?_⟩
    intro node hnode hkind' hnode'
    rcases List.mem_cons.mp hnode with rfl | hnode
    · exact .inr (houter found hfound)
    · exact hsmallest node hnode hkind' hnode'
  | none =>
    rw [Option.none_or]
    split
    · rename_i hkind
      refine ⟨List.mem_cons_self, hkind, hcovers, ?_⟩
      intro node hnode hkind' hnode'
      rcases List.mem_cons.mp hnode with rfl | hnode
      · exact .inl rfl
      · exact (h node hnode hkind' hnode').elim
    · rename_i hkind
      intro node hnode hkind'
      rcases List.mem_cons.mp hnode with rfl | hnode
      · exact (hkind hkind').elim
      · exact h node hnode hkind'

/-- What is kept of the nodes of a kind on the way down is the last of them. -/
structure Tracks (kind : Node → Bool) (get : Enclosing → Option Node) : Prop where
  declaration : ∀ found, kind (.declaration found) = false
  enter : ∀ enclosing head body span, get (enclosing.enter (.block head body span) head) =
    (if kind (.block head body span) then some (.block head body span) else none).or (get enclosing)

theorem tracks_atRule : Tracks Node.isAtRule Enclosing.atRule where
  declaration := fun _ => rfl
  enter := by
    intro enclosing head body span
    cases head <;> rfl

theorem tracks_rule : Tracks Node.isQualified Enclosing.rule where
  declaration := fun _ => rfl
  enter := by
    intro enclosing head body span
    cases head <;> rfl

/-- A block around a declaration comes behind what is innermost inside of it. -/
theorem IsInnermost.of_body {kind : Node → Bool} {inner last : Nat} {head : Head}
    {body nodes : List Node} {outer span : Span} {found : Option Node}
    (h : IsInnermost kind (Node.nodesAll body) span found)
    (hbody : Nested (outer.start + 1) body inner) (hinner : inner < outer.stop)
    (hrest : Nested outer.stop nodes last)
    (hspan : outer.start + 1 ≤ span.start ∧ span.start < span.stop ∧ span.stop ≤ inner) :
    IsInnermost kind (Node.nodesAll (.block head body outer :: nodes)) span
      (found.or
        (if kind (.block head body outer) then some (.block head body outer) else none)) := by
  have hcovers : outer.Covers span := by
    constructor <;> omega
  have hwidth : ∀ node ∈ Node.nodesAll body, node.span.width < outer.width := by
    intro node hnode
    have hbounds := hbody.bounds hnode
    simp only [Span.width]
    omega
  apply (h.cons (.block head body outer) hcovers hwidth).of_apart hspan.2.1
  · intro node hnode
    apply mem_nodesAll_block.mpr
    exact (List.mem_cons.mp hnode).imp_right .inl
  · intro node hnode
    rcases mem_nodesAll_block.mp hnode with rfl | hnode | hnode
    · exact .inl List.mem_cons_self
    · exact .inl (List.mem_cons_of_mem _ hnode)
    · have hbounds := hrest.bounds hnode
      exact .inr (.inr (by omega))

/-- What is innermost around a declaration is the smallest node around it of those it was reached
through, or else what was innermost before. -/
theorem Tracks.exists_isInnermost {kind : Node → Bool} {get : Enclosing → Option Node}
    (htracks : Tracks kind get) {first last : Nat} {nodes : List Node}
    (h : Nested first nodes last) (enclosing : Enclosing) {walked : Walked}
    (hwalked : walked ∈ Node.walkAll enclosing nodes) :
    ∃ found, IsInnermost kind (Node.nodesAll nodes) walked.declaration.span found ∧
      get walked.enclosing = found.or (get enclosing) := by
  induction h generalizing enclosing with
  | nil => contradiction
  | @leaf first last nodes leaf span _ hspan hrest ih =>
    rcases List.mem_append.mp hwalked with hwalked | hwalked
    · cases leaf with
      | statement => contradiction
      | declaration =>
        obtain rfl := List.mem_singleton.mp hwalked
        refine ⟨none, ?_, rfl⟩
        intro node hnode hkind
        rcases mem_nodesAll_toNode.mp hnode with rfl | hnode
        · exact absurd hkind (by simp [Leaf.toNode, htracks.declaration])
        · exact not_covers_of_apart hspan (.inr (hrest.bounds hnode).1)
    · obtain ⟨found, hfound, he⟩ := ih enclosing hwalked
      obtain ⟨hstart, hdeclaration, -⟩ := hrest.bounds (mem_nodesAll_of_walked hwalked)
      refine ⟨found, ?_, he⟩
      apply hfound.of_apart hdeclaration (List.subset_append_right _ _)
      intro node hnode
      rcases mem_nodesAll_toNode.mp hnode with rfl | hnode
      · exact .inr (.inl (by rwa [Leaf.span_toNode]))
      · exact .inl hnode
  | @block first inner last body nodes head span _ hinner hbody hrest ih ih' =>
    rcases List.mem_append.mp hwalked with hwalked | hwalked
    · obtain ⟨found, hfound, he⟩ := ih _ hwalked
      have hdeclaration := hbody.bounds (mem_nodesAll_of_walked hwalked)
      refine ⟨_, hfound.of_body hbody hinner hrest hdeclaration, ?_⟩
      rw [he, htracks.enter, Option.or_assoc]
    · obtain ⟨found, hfound, he⟩ := ih' enclosing hwalked
      obtain ⟨hstart, hdeclaration, -⟩ := hrest.bounds (mem_nodesAll_of_walked hwalked)
      refine ⟨found, ?_, he⟩
      apply hfound.of_apart hdeclaration (List.subset_append_right _ _)
      intro node hnode
      rcases mem_nodesAll_block.mp hnode with rfl | hnode | hnode
      · exact .inr (.inl hstart)
      · have hbounds := hbody.bounds hnode
        exact .inr (.inl (Nat.le_trans (by omega) hstart))
      · exact .inl hnode

/-- How a walk goes through a stylesheet. What is visited are the declarations of the walk. -/
structure Stylesheet.Walks (sheet : Stylesheet) : Prop where
  visits_eq : sheet.visits = sheet.walk.map Walked.toVisit
  declarations_eq :
    sheet.walk.map Walked.declaration = sheet.nodes.filterMap Node.toDeclaration?
  pairwise : sheet.walk.Pairwise fun walked later =>
    walked.declaration.span.stop ≤ later.declaration.span.start
  atRule : ∀ walked ∈ sheet.walk,
    IsInnermost Node.isAtRule sheet.nodes walked.declaration.span walked.enclosing.atRule
  rule : ∀ walked ∈ sheet.walk,
    IsInnermost Node.isQualified sheet.nodes walked.declaration.span walked.enclosing.rule

theorem Nested.walks {first last : Nat} {rules : List Node} (h : Nested first rules last) :
    Stylesheet.Walks ⟨rules⟩ where
  visits_eq := Node.visitsAll_context ⟨none, none⟩ rules
  declarations_eq := Node.map_declaration_walkAll _ rules
  pairwise := h.pairwise_walkAll _
  atRule := by
    intro walked hwalked
    obtain ⟨found, hfound, he⟩ := tracks_atRule.exists_isInnermost h _ hwalked
    rwa [he, Option.or_none]
  rule := by
    intro walked hwalked
    obtain ⟨found, hfound, he⟩ := tracks_rule.exists_isInnermost h _ hwalked
    rwa [he, Option.or_none]

/-- The spans of a stylesheet are nested as its nodes are. So a walk meets every declaration once,
in the order of the spans, and what is innermost around it is smallest around its span. -/
theorem nestedIn_and_walks {source : List Char} {sheet : Stylesheet}
    (h : Stylesheet.parse source = .ok sheet) : sheet.NestedIn source ∧ sheet.Walks := by
  obtain ⟨stop, last, blank, hpassage, -⟩ := parse_iff_passage.mp h
  exact ⟨nestedIn_of_parse h, hpassage.nested.walks⟩

def mixedText : List Char :=
  "@media x\x7bé\x7b@media x\x7ba:b\x7dc:d\x7d\x7de\x7b@y z;f:g\x7d".toList

/-- An at-rule in a rule in an at-rule that reads the same. -/
def mixedSheet : Stylesheet :=
  ⟨[.block (.atRule "media" "x") [.block (.qualified "é") [
      .block (.atRule "media" "x") [.declaration ⟨"a", .tokens [.identifier "b"], false, ⟨21, 24⟩⟩]
        ⟨12, 25⟩,
      .declaration ⟨"c", .tokens [.identifier "d"], false, ⟨25, 28⟩⟩] ⟨9, 29⟩] ⟨0, 30⟩,
    .block (.qualified "e") [.statement "y" "z" ⟨32, 37⟩,
      .declaration ⟨"f", .tokens [.identifier "g"], false, ⟨37, 40⟩⟩] ⟨30, 41⟩]⟩

theorem nestedIn_and_walks_mixed :
    Stylesheet.parse mixedText = .ok mixedSheet ∧
      (mixedSheet.NestedIn mixedText ∧ mixedSheet.Walks) ∧
      mixedSheet.walk.map (fun walked =>
        (walked.enclosing.atRule.map Node.span, walked.enclosing.rule.map Node.span)) =
          [(some ⟨12, 25⟩, some ⟨9, 29⟩), (some ⟨0, 30⟩, some ⟨9, 29⟩), (none, some ⟨30, 41⟩)] := by
  have hparse : Stylesheet.parse mixedText = .ok mixedSheet :=
    parse_of_events (by decide +kernel : _ = some [.opens (some (.atRule "media" "x")) 0,
      .opens (some (.qualified "é")) 9, .opens (some (.atRule "media" "x")) 12,
      .leaf (.declaration "a" (.tokens [.identifier "b"]) false) ⟨21, 24⟩, .closes 25,
      .leaf (.declaration "c" (.tokens [.identifier "d"]) false) ⟨25, 28⟩, .closes 29, .closes 30,
      .opens (some (.qualified "e")) 30, .leaf (.statement "y" "z") ⟨32, 37⟩,
      .leaf (.declaration "f" (.tokens [.identifier "g"]) false) ⟨37, 40⟩, .closes 41])
  exact ⟨hparse, nestedIn_and_walks hparse, rfl⟩

end WebFonts.Css
