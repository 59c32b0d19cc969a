import WebFonts.Proofs.Css.Excerpt

/-! # How nodes lie in their text

Each node takes some of the text behind the node before it, and the nodes of a block lie between
its head and the brace that closes it. -/

namespace WebFonts.Css

open Text

/-! ## Nodes behind one another -/

/-- Nodes lie behind one another, from one place to another, and those of each block inside of
it. -/
inductive Nested : Nat → List Node → Nat → Prop where
  | nil {first last : Nat} (hle : first ≤ last) : Nested first [] last
  | leaf {first last : Nat} {nodes : List Node} (found : Leaf) {span : Span}
      (hfirst : first ≤ span.start) (hspan : span.start < span.stop) :
      Nested span.stop nodes last → Nested first (found.toNode span :: nodes) last
  | block {first inner last : Nat} {body nodes : List Node} (head : Head) {span : Span}
      (hfirst : first ≤ span.start) (hinner : inner < span.stop) :
      Nested (span.start + 1) body inner → Nested span.stop nodes last →
      Nested first (.block head body span :: nodes) last

theorem Nested.le {first last : Nat} {nodes : List Node} (h : Nested first nodes last) :
    first ≤ last := by
  induction h with
  | nil hle => exact hle
  | leaf => omega
  | block => omega

theorem Nested.of_le {first first' last : Nat} {nodes : List Node} (h : Nested first nodes last)
    (hle : first' ≤ first) : Nested first' nodes last := by
  cases h with
  | nil hfirst => exact .nil (Nat.le_trans hle hfirst)
  | leaf found hfirst hspan hrest => exact .leaf found (Nat.le_trans hle hfirst) hspan hrest
  | block head hfirst hinner hbody hrest =>
    exact .block head (Nat.le_trans hle hfirst) hinner hbody hrest

theorem Nested.leafNodes_append {first last : Nat} {nodes : List Node} {span : Span}
    (hfirst : first ≤ span.start) (hspan : span.start < span.stop)
    (hrest : Nested span.stop nodes last) (leaf : Option Leaf) :
    Nested first (leafNodes leaf span ++ nodes) last := by
  cases leaf with
  | none => exact hrest.of_le (by omega)
  | some found => exact .leaf found hfirst hspan hrest

theorem Nested.blockNodes_append {first inner last : Nat} {body nodes : List Node} {span : Span}
    (hfirst : first ≤ span.start) (hinner : inner < span.stop)
    (hbody : Nested (span.start + 1) body inner) (hrest : Nested span.stop nodes last)
    (head : Option Head) : Nested first (blockNodes head body span ++ nodes) last := by
  cases head with
  | none =>
    have hle := hbody.le
    exact hrest.of_le (by omega)
  | some head => exact .block head hfirst hinner hbody hrest

theorem Passage.nested {inBlock : Bool} {place stop : Nat} {text last : List Char}
    {nodes : List Node} (h : Passage inBlock place text nodes stop last) :
    Nested place nodes stop := by
  induction h with
  | nil => exact .nil (Nat.le_refl _)
  | semicolon _ _ ih => exact ih.of_le (by omega)
  | whole hgap hbrace _ hitem _ ih =>
    obtain ⟨tail, rfl⟩ := Item.exists_cons_of_whole hitem hbrace
    apply ih.leafNodes_append
    · exact Nat.le_add_right _ _
    · apply Nat.lt_add_of_pos_right
      rw [utf8Width]
      exact Nat.add_pos_left (Char.utf8Size_pos _) _
  | block _ _ _ _ _ _ _ ih ih' =>
    apply Nested.blockNodes_append
    · exact Nat.le_add_right _ _
    · exact Nat.lt_succ_of_le (Nat.le_add_right _ _)
    · apply ih.of_le
      simp only
      omega
    · exact ih'

/-! ## Spans in a tree -/

theorem mem_nodesAll_of_mem {node : Node} {nodes : List Node} (h : node ∈ nodes) :
    node ∈ Node.nodesAll nodes := by
  induction nodes with
  | nil => contradiction
  | cons other nodes ih =>
    rcases List.mem_cons.mp h with rfl | h
    · apply List.mem_append_left
      cases node <;> exact List.mem_cons_self
    · exact List.mem_append_right _ (ih h)

theorem mem_nodesAll_toNode {node : Node} {found : Leaf} {span : Span} {nodes : List Node} :
    node ∈ Node.nodesAll (found.toNode span :: nodes) ↔
      node = found.toNode span ∨ node ∈ Node.nodesAll nodes := by
  cases found <;> exact List.mem_cons

theorem mem_nodesAll_block {node : Node} {head : Head} {body : List Node} {span : Span}
    {nodes : List Node} :
    node ∈ Node.nodesAll (.block head body span :: nodes) ↔
      node = .block head body span ∨ node ∈ Node.nodesAll body ∨ node ∈ Node.nodesAll nodes := by
  rw [Node.nodesAll, Node.nodes, List.cons_append, List.mem_cons, List.mem_append]

/-- All nodes take some of the text between the places that they lie between. -/
theorem Nested.bounds {first last : Nat} {nodes : List Node} (h : Nested first nodes last)
    {node : Node} (hmem : node ∈ Node.nodesAll nodes) :
    first ≤ node.span.start ∧ node.span.start < node.span.stop ∧ node.span.stop ≤ last := by
  induction h with
  | nil => contradiction
  | leaf found hfirst hspan hrest ih =>
    rcases mem_nodesAll_toNode.mp hmem with rfl | hmem
    · rw [Leaf.span_toNode]
      exact ⟨hfirst, hspan, hrest.le⟩
    · have hbounds := ih hmem
      omega
  | block head hfirst hinner hbody hrest ih ih' =>
    have hle := hbody.le
    have hlast := hrest.le
    rcases mem_nodesAll_block.mp hmem with rfl | hmem | hmem
    · simp only [Node.span]
      omega
    · have hbounds := ih hmem
      omega
    · have hbounds := ih' hmem
      omega

/-- Nodes side by side come one behind the end of another. -/
theorem Nested.pairwise {first last : Nat} {nodes : List Node} (h : Nested first nodes last) :
    nodes.Pairwise fun node later => node.span.stop ≤ later.span.start := by
  induction h with
  | nil => exact .nil
  | leaf found _ _ hrest ih =>
    refine .cons ?_ ih
    intro later hlater
    rw [Leaf.span_toNode]
    exact (hrest.bounds (mem_nodesAll_of_mem hlater)).1
  | block head _ _ _ hrest _ ih' =>
    refine .cons ?_ ih'
    intro later hlater
    exact (hrest.bounds (mem_nodesAll_of_mem hlater)).1

/-- The nodes of a block lie between its first and its last character. -/
theorem Nested.of_mem_block {first last : Nat} {nodes : List Node} (h : Nested first nodes last)
    {head : Head} {body : List Node} {span : Span}
    (hmem : .block head body span ∈ Node.nodesAll nodes) :
    ∃ inner, inner < span.stop ∧ Nested (span.start + 1) body inner := by
  induction h with
  | nil => contradiction
  | leaf found _ _ _ ih =>
    rcases mem_nodesAll_toNode.mp hmem with he | hmem
    · cases found <;> contradiction
    · exact ih hmem
  | block head _ hinner hbody _ ih ih' =>
    rcases mem_nodesAll_block.mp hmem with he | hmem | hmem
    · obtain ⟨rfl, rfl, rfl⟩ := Node.block.inj he
      exact ⟨_, hinner, hbody⟩
    · exact ih hmem
    · exact ih' hmem

/-- How the nodes of a stylesheet lie in its source. -/
structure Stylesheet.NestedIn (sheet : Stylesheet) (source : List Char) : Prop where
  start_lt_stop : ∀ node ∈ sheet.nodes, node.span.start < node.span.stop
  isPlace : ∀ node ∈ sheet.nodes, Outline.IsPlace source node.span.start ∧
    Outline.IsPlace source node.span.stop
  rules : sheet.rules.Pairwise fun node later => node.span.stop ≤ later.span.start
  body : ∀ head body span, .block head body span ∈ sheet.nodes →
    body.Pairwise fun node later => node.span.stop ≤ later.span.start
  inside : ∀ head body span, .block head body span ∈ sheet.nodes → ∀ node ∈ body,
    span.start < node.span.start ∧ node.span.stop < span.stop

theorem Node.StandsAs.isPlace {node : Node} {text run behind : List Char}
    (h : node.StandsAs 0 text run behind) :
    Outline.IsPlace text node.span.start ∧ Outline.IsPlace text node.span.stop := by
  obtain ⟨before, rfl, hspan⟩ := h.exists_before
  rw [hspan]
  constructor
  · exact ⟨before, List.prefix_append _ _, (Nat.zero_add _).symm⟩
  · refine ⟨before ++ run, ⟨behind, List.append_assoc _ _ _⟩, ?_⟩
    rw [utf8Width_append, Nat.zero_add]

theorem nestedIn_of_parse {source : List Char} {sheet : Stylesheet}
    (h : Stylesheet.parse source = .ok sheet) : sheet.NestedIn source := by
  obtain ⟨stop, last, blank, hpassage, -⟩ := parse_iff_passage.mp h
  have hnested := hpassage.nested
  constructor
  · intro node hnode
    exact (hnested.bounds hnode).2.1
  · intro node hnode
    obtain ⟨run, behind, hstands⟩ := hpassage.standsAs_of_mem (by simp) hnode
    exact hstands.isPlace
  · exact hnested.pairwise
  · intro head body span hmem
    obtain ⟨inner, -, hbody⟩ := hnested.of_mem_block hmem
    exact hbody.pairwise
  · intro head body span hmem node hnode
    obtain ⟨inner, hinner, hbody⟩ := hnested.of_mem_block hmem
    have hbounds := hbody.bounds (mem_nodesAll_of_mem hnode)
    omega

end WebFonts.Css
