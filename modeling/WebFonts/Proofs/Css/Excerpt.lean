import WebFonts.Proofs.Css.Outline
import WebFonts.Proofs.Css.Relocation
import WebFonts.Proofs.Css.Spelling

/-! # Nodes read alone

The text at the span of a node is all that the node was read from: in a block of its own it is read
as the same node. -/

namespace WebFonts.Css

open Text

/-! ## The nodes of a tree -/

def Node.span : Node → Span
  | .declaration found => found.span
  | .statement _ _ span => span
  | .block _ _ span => span

mutual

/-- A node and all nodes in it, in the order of the text. -/
def Node.nodes : Node → List Node
  | .declaration found => [.declaration found]
  | .statement name prelude span => [.statement name prelude span]
  | .block head body span => .block head body span :: nodesAll body

/-- All nodes in a list of nodes, in the order of the text. -/
def Node.nodesAll : List Node → List Node
  | [] => []
  | node :: nodes => node.nodes ++ nodesAll nodes

end

/-- The nodes of a stylesheet at any depth, in the order of the text. -/
def Stylesheet.nodes (sheet : Stylesheet) : List Node := Node.nodesAll sheet.rules

theorem Node.nodesAll_append (nodes more : List Node) :
    nodesAll (nodes ++ more) = nodesAll nodes ++ nodesAll more := by
  induction nodes with
  | nil => rfl
  | cons node nodes ih => simp [nodesAll, ih]

theorem Node.nodesAll_leafNodes (leaf : Option Leaf) (span : Span) :
    nodesAll (leafNodes leaf span) = leafNodes leaf span := by
  rcases leaf with _ | (_ | _) <;> rfl

@[simp] theorem Leaf.span_toNode (found : Leaf) (span : Span) :
    (found.toNode span).span = span := by
  cases found <;> rfl

@[simp] theorem Leaf.shift_toNode (n : Nat) (found : Leaf) (span : Span) :
    (found.toNode span).shift n = found.toNode (span.shift n) := by
  cases found <;> rfl

theorem mem_nodesAll_blockNodes {node : Node} {head : Option Head} {body : List Node}
    {span : Span} (h : node ∈ Node.nodesAll (blockNodes head body span)) :
    (∃ head', head = some head' ∧ node = .block head' body span) ∨ node ∈ Node.nodesAll body := by
  cases head with
  | none => contradiction
  | some head =>
    rcases List.mem_append.mp h with hmem | hmem
    · rcases List.mem_cons.mp hmem with rfl | hmem
      · exact .inl ⟨head, rfl, rfl⟩
      · exact .inr hmem
    · contradiction

/-! ## Where nodes stand -/

/-- A run of text is read as a node wherever it stands in front of a brace in a block. -/
def Node.ReadFrom (node : Node) (run : List Char) : Prop :=
  ∀ place rest, rest.head? = some '}' → ∃ found,
    Passage true place (run ++ rest) [found] (place + utf8Width run) rest ∧
      found.shift node.span.start = node.shift place

/-- A node has its span from a run of text, which starts in a place. If the end of the text cannot
cut it off behind a backslash, it is read from that run. -/
structure Node.StandsAs (node : Node) (place : Nat) (text run behind : List Char) : Prop where
  exists_before : ∃ before, text = before ++ (run ++ behind) ∧
    node.span = ⟨place + utf8Width before, place + utf8Width before + utf8Width run⟩
  statement : behind = [] → run.getLast? = some '\\' →
    ∃ name prelude span, node = .statement name prelude span
  readFrom : (behind = [] → run.getLast? ≠ some '\\') → node.ReadFrom run

theorem Node.StandsAs.append {node : Node} {place place' : Nat}
    {front text run behind : List Char} (h : node.StandsAs place' text run behind)
    (hplace : place' = place + utf8Width front) :
    node.StandsAs place (front ++ text) run behind := by
  refine ⟨?_, h.statement, h.readFrom⟩
  obtain ⟨before, rfl, hspan⟩ := h.exists_before
  refine ⟨front ++ before, (List.append_assoc _ _ _).symm, ?_⟩
  rw [hspan, hplace, utf8Width_append, Nat.add_assoc place]

/-- Where nothing is white space between the rules of a sheet, nothing is inside of a block. -/
theorem spacing_inBlock {text : List Char} {between : Bool} (h : spacing between text = none) :
    spacing false text = none := by
  cases between with
  | false => exact h
  | true =>
    fun_cases spacing false text with
    | case1 => contradiction
    | case2 => contradiction
    | case3 => rfl
    | case4 => contradiction
    | case5 => rfl
    | case6 => simp_all [spacing]
    | case7 => simp_all [spacing]
    | case8 => rfl

theorem Item.read_true_of_leaf {inBlock : Bool} {text scanned behind : List Char} {found : Leaf}
    (h : Item.read inBlock text = .ok ⟨.whole (some found), scanned, behind⟩) :
    Item.read true text = .ok ⟨.whole (some found), scanned, behind⟩ := by
  cases inBlock with
  | true => exact h
  | false => exact Item.read_inBlock true h (by simp)

theorem Item.read_true_of_opening {inBlock : Bool} {text scanned behind : List Char}
    {head : Option Head} (h : Item.read inBlock text = .ok ⟨.opening head, scanned, behind⟩) :
    Item.read true text = .ok ⟨.opening head, scanned, behind⟩ := by
  cases inBlock with
  | true => exact h
  | false => exact Item.read_inBlock true h (by simp)

theorem Leaf.standsAs {inBlock : Bool} {text blank rest scanned behind : List Char} {c : Char}
    {found : Leaf} (hgap : gap (!inBlock) text = .ok (blank, c :: rest)) (hbrace : c ≠ '}')
    (hsemicolon : c ≠ ';')
    (hitem : Item.read inBlock (c :: rest) = .ok ⟨.whole (some found), scanned, behind⟩)
    (hblock : inBlock = true → behind ≠ []) (place : Nat) :
    (found.toNode ⟨place + utf8Width blank,
        place + utf8Width blank + utf8Width scanned⟩).StandsAs place text scanned behind := by
  have hsplits : c :: rest = scanned ++ behind := Item.read_splits hitem
  refine ⟨⟨blank, ?_, found.span_toNode _⟩, ?_, ?_⟩
  · rw [← gap_splits _ _ _ _ hgap, hsplits]
  · intro hnil _
    cases found with
    | statement name prelude => exact ⟨name, prelude, _, rfl⟩
    | declaration property value important =>
      cases inBlock with
      | true => exact (hblock rfl hnil).elim
      | false =>
        exact (@rule_ne_declaration _ _ _ ⟨property, value, important, ⟨0, 0⟩⟩ hitem).elim
  · intro hcut place' last hbrace'
    obtain ⟨tail, rfl⟩ := Item.exists_cons_of_whole hitem hbrace
    have hbehind : StopsAlike (c :: tail) behind last ∨ behind ≠ [] ∧ last.head? = some '}' := by
      by_cases hnil : behind = []
      · exact .inl (.inr ⟨hnil, hcut hnil, hbrace'⟩)
      · exact .inr ⟨hnil, hbrace'⟩
    have hitem' := Item.whole_behind (Item.read_true_of_leaf hitem) hbehind
    have hspacing := spacing_inBlock (spacing_of_gap hgap)
    rw [hsplits] at hspacing
    have hgap' := gap_of_none (spacing_none_behind hspacing (.inr hbrace') (.inl (by simp)))
    have hpassage : Passage true place' (c :: tail ++ last) _ _ last :=
      .whole hgap' hbrace hsemicolon hitem' (.nil true _ last)
    refine ⟨_, hpassage, ?_⟩
    simp only [Leaf.shift_toNode, Leaf.span_toNode, Span.shift]
    congr 2 <;> simp [utf8Width] <;> omega

theorem Passage.standsAs_block {inBlock : Bool} {place inner : Nat}
    {text blank rest scanned behind middle blank' rest' : List Char} {c : Char} {head : Head}
    {body : List Node} (hgap : gap (!inBlock) text = .ok (blank, c :: rest)) (hbrace : c ≠ '}')
    (hsemicolon : c ≠ ';')
    (hitem : Item.read inBlock (c :: rest) = .ok ⟨.opening (some head), scanned, behind⟩)
    (hbody : Passage true (place + utf8Width blank + utf8Width scanned + 1) behind body inner
      middle)
    (hclose : gap false middle = .ok (blank', '}' :: rest')) :
    ∃ run, (Node.block head body
      ⟨place + utf8Width blank, inner + utf8Width blank' + 1⟩).StandsAs place text run rest' := by
  have hsplits : c :: rest = scanned ++ '{' :: behind := Item.read_splits hitem
  obtain rfl := gap_splits _ _ _ _ hclose
  obtain ⟨run, rfl, rfl, helsewhere⟩ := hbody.elsewhere (by simp)
  refine ⟨scanned ++ '{' :: (run ++ (blank' ++ ['}'])), ⟨blank, ?_, ?_⟩, ?_, ?_⟩
  · rw [← gap_splits _ _ _ _ hgap, hsplits]
    simp
  · simp only [Node.span, Span.mk.injEq, true_and, utf8Width_append, utf8Width, utf8Size_marks]
    omega
  · intro _ hslash
    simp [List.getLast?_cons] at hslash
  · intro _ place' last _
    obtain ⟨body', hbody', hnodes⟩ := helsewhere (place + utf8Width blank) place'
      (place' + utf8Width ([] : List Char) + utf8Width scanned + 1) (blank' ++ '}' :: last)
      (by simp only [utf8Width]; omega) (head?_append_right blank' rfl)
    have hitem' := Item.opening_behind (Item.read_true_of_opening hitem)
      (run ++ (blank' ++ '}' :: last))
    have hspacing := spacing_inBlock (spacing_of_gap hgap)
    rw [hsplits] at hspacing
    have hgap' := gap_of_none (spacing_opening_behind hspacing (run ++ (blank' ++ '}' :: last)))
    obtain ⟨rest'', hrest''⟩ := exists_cons_of_splits hsplits (run ++ (blank' ++ '}' :: last))
    rw [hrest''] at hitem' hgap'
    have hpassage : Passage true place' (c :: rest'') _ _ last :=
      .block hgap' hbrace hsemicolon hitem' hbody' (gap_behind hclose rfl) (.nil true _ last)
    have htext : scanned ++ '{' :: (run ++ (blank' ++ ['}'])) ++ last = c :: rest'' := by
      rw [← hrest'']
      simp
    have hstop : place' + utf8Width ([] : List Char) + utf8Width scanned + 1 + utf8Width run +
        utf8Width blank' + 1 =
          place' + utf8Width (scanned ++ '{' :: (run ++ (blank' ++ ['}']))) := by
      simp only [utf8Width_append, utf8Width, utf8Size_marks]
      omega
    rw [hstop] at hpassage
    refine ⟨_, htext ▸ hpassage, ?_⟩
    simp only [Node.span, Node.shift, hnodes, Span.shift]
    congr 2
    · simp only [utf8Width]
      omega
    · simp only [utf8Width_append, utf8Width, utf8Size_marks]
      omega

/-- Every node of a passage, at any depth, stands somewhere in its text. -/
theorem Passage.standsAs_of_mem {inBlock : Bool} {place stop : Nat} {text last : List Char}
    {nodes : List Node} (h : Passage inBlock place text nodes stop last)
    (hlast : inBlock = true → last ≠ []) {node : Node} (hmem : node ∈ Node.nodesAll nodes) :
    ∃ run behind, node.StandsAs place text run behind := by
  induction h with
  | nil => contradiction
  | @semicolon inBlock place stop text blank rest last nodes hgap _ ih =>
    obtain ⟨run, after, hstands⟩ := ih hlast hmem
    refine ⟨run, after, ?_⟩
    rw [← gap_splits _ _ _ _ hgap, List.append_cons]
    apply hstands.append
    rw [utf8Width_append, ← Nat.add_assoc]
    rfl
  | @whole inBlock place stop text blank rest scanned behind last c leaf nodes hgap hbrace
      hsemicolon hitem hrest ih =>
    rw [Node.nodesAll_append, Node.nodesAll_leafNodes] at hmem
    rcases List.mem_append.mp hmem with hmem | hmem
    · cases leaf with
      | none => contradiction
      | some found =>
        obtain rfl := List.mem_singleton.mp hmem
        refine ⟨scanned, behind, Leaf.standsAs hgap hbrace hsemicolon hitem ?_ place⟩
        rintro hblock rfl
        obtain ⟨run, hrun, -⟩ := hrest.exists_text
        exact hlast hblock (List.append_eq_nil_iff.mp hrun.symm).2
    · obtain ⟨run, after, hstands⟩ := ih hlast hmem
      have hsplits : c :: rest = scanned ++ behind := Item.read_splits hitem
      refine ⟨run, after, ?_⟩
      rw [← gap_splits _ _ _ _ hgap, hsplits, ← List.append_assoc]
      apply hstands.append
      rw [utf8Width_append, Nat.add_assoc]
  | @block inBlock place inner stop text blank rest scanned behind middle blank' rest' last c head
      body nodes hgap hbrace hsemicolon hitem hbody hclose hrest ih ih' =>
    have hsplits : c :: rest = scanned ++ '{' :: behind := Item.read_splits hitem
    rw [Node.nodesAll_append] at hmem
    rcases List.mem_append.mp hmem with hmem | hmem
    · rcases mem_nodesAll_blockNodes hmem with ⟨head, rfl, rfl⟩ | hmem
      · obtain ⟨run, hstands⟩ := Passage.standsAs_block hgap hbrace hsemicolon hitem hbody hclose
        exact ⟨run, rest', hstands⟩
      · have hmiddle : middle ≠ [] := by
          rintro rfl
          simp at hclose
        obtain ⟨run, after, hstands⟩ := ih (fun _ => hmiddle) hmem
        refine ⟨run, after, ?_⟩
        rw [← gap_splits _ _ _ _ hgap, hsplits, List.append_cons, ← List.append_assoc]
        apply hstands.append
        simp only [utf8Width_append, utf8Width, utf8Size_marks]
        omega
    · obtain ⟨run', hrun', hinner⟩ := hbody.exists_text
      obtain ⟨run, after, hstands⟩ := ih' hlast hmem
      refine ⟨run, after, ?_⟩
      rw [← gap_splits _ _ _ _ hgap, hsplits, hrun', ← gap_splits _ _ _ _ hclose]
      have htext : blank ++ (scanned ++ '{' :: (run' ++ (blank' ++ '}' :: rest'))) =
          (blank ++ (scanned ++ '{' :: (run' ++ (blank' ++ ['}'])))) ++ rest' := by simp
      rw [htext]
      apply hstands.append
      simp only [utf8Width_append, utf8Width, utf8Size_marks]
      omega

/-! ## Excerpts -/

/-- An at-rule without a block that the end of the source cuts off behind a backslash, which would
escape whatever was put behind it. -/
def Node.IsCutOff (source : List Char) (node : Node) : Prop :=
  ∃ name prelude span, node = .statement name prelude span ∧ span.stop = utf8Width source ∧
    (span.slice source).getLast? = some '\\'

/-- The text at a span, alone in a block. -/
def Span.excerpt (span : Span) (source : List Char) : List Char :=
  'x' :: '{' :: (span.slice source ++ ['}'])

theorem Span.slice_append (before run behind : List Char) :
    (⟨utf8Width before, utf8Width before + utf8Width run⟩ : Span).slice
      (before ++ (run ++ behind)) = run := by
  rw [Span.slice, dropBytes_utf8Width, Nat.add_sub_cancel_left, takeBytes_utf8Width]

theorem Item.read_x (behind : List Char) :
    Item.read false ('x' :: '{' :: behind) =
      .ok ⟨.opening (some (.qualified "x")), ['x'], behind⟩ := by
  have hstretch : stretch [] ('x' :: '{' :: behind) = .ok (['x'], '{' :: behind) := by
    rw [stretch_cons_of_ordinary (by decide) (by simp), stretch_of_ends rfl]
    rfl
  have hrule : Item.read false ('x' :: '{' :: behind) = rule ('x' :: '{' :: behind) := rfl
  rw [hrule, rule_eq, ruleStart_of_ne (by simp)]
  simp only [hstretch]
  rfl

/-- What a run of text is read as is the body of the block that it makes up. -/
theorem parse_of_readFrom {node : Node} {run : List Char} (h : node.ReadFrom run) :
    ∃ found, Stylesheet.parse ('x' :: '{' :: (run ++ ['}'])) =
        .ok ⟨[.block (.qualified "x") [found] ⟨0, utf8Width ('x' :: '{' :: (run ++ ['}']))⟩]⟩ ∧
      found.shift node.span.start = node.shift 2 := by
  obtain ⟨found, hbody, hfound⟩ := h 2 ['}'] rfl
  have hclose : gap false ['}'] = .ok ([], ['}']) := gap_of_none rfl
  have hpassage : Passage false 0 ('x' :: '{' :: (run ++ ['}'])) _ _ [] :=
    .block (gap_of_none rfl) (by decide) (by decide) (Item.read_x _) hbody hclose
      (.nil false _ [])
  have hstop : 2 + utf8Width run + utf8Width ([] : List Char) + 1 =
      utf8Width ('x' :: '{' :: (run ++ ['}'])) := by
    simp only [utf8Width_append, utf8Width, show ('x' : Char).utf8Size = 1 from rfl,
      utf8Size_marks]
    omega
  rw [hstop] at hpassage
  exact ⟨found, parse_iff_passage.mpr ⟨_, [], [], hpassage, gap_nil true⟩, hfound⟩

/-- The text at the span of a node holds the whole node and nothing else: alone in a block, it is
read as that node, in whatever place and depth the node stands. -/
theorem parse_excerpt {source : List Char} {sheet : Stylesheet}
    (h : Stylesheet.parse source = .ok sheet) {node : Node} (hnode : node ∈ sheet.nodes)
    (hcut : ¬node.IsCutOff source) :
    ∃ found, Stylesheet.parse (node.span.excerpt source) =
        .ok ⟨[.block (.qualified "x") [found] ⟨0, utf8Width (node.span.excerpt source)⟩]⟩ ∧
      found.shift node.span.start = node.shift 2 := by
  obtain ⟨stop, last, blank, hpassage, -⟩ := parse_iff_passage.mp h
  obtain ⟨run, behind, hstands⟩ := hpassage.standsAs_of_mem (by simp) hnode
  obtain ⟨before, rfl, hspan⟩ := hstands.exists_before
  rw [Nat.zero_add] at hspan
  have hslice : node.span.slice (before ++ (run ++ behind)) = run := by
    rw [hspan, Span.slice_append]
  rw [Span.excerpt, hslice]
  apply parse_of_readFrom
  apply hstands.readFrom
  rintro rfl hslash
  obtain ⟨name, prelude, span, rfl⟩ := hstands.statement rfl hslash
  refine hcut ⟨name, prelude, span, rfl, ?_, ?_⟩
  · simpa [Node.span] using congrArg Span.stop hspan
  · rw [← hslash]
    exact congrArg List.getLast? hslice

def unevenText : List Char := "-->é\x7b@y b\\;;d:(é\x7d@x (;".toList

def unevenRule : Node :=
  .block (.qualified "é")
    [.statement "y" "b\\;" ⟨6, 13⟩, .declaration ⟨"d", .raw "(é", false, ⟨13, 18⟩⟩] ⟨3, 19⟩

def unevenEnd : Node := .statement "x" "(;" ⟨19, 24⟩

/-- A rule with an escaped semicolon and an open bracket in it, and an at-rule that the end of the
text cuts off, are read alone as they are read in their text. -/
theorem parse_excerpt_uneven :
    Stylesheet.parse unevenText = .ok ⟨[unevenRule, unevenEnd]⟩ ∧
      ¬unevenRule.IsCutOff unevenText ∧ ¬unevenEnd.IsCutOff unevenText ∧
      (∃ found, Stylesheet.parse "x\x7bé\x7b@y b\\;;d:(é\x7d\x7d".toList =
          .ok ⟨[.block (.qualified "x") [found] ⟨0, 19⟩]⟩ ∧ found.shift 3 = unevenRule.shift 2) ∧
      ∃ found, Stylesheet.parse "x\x7b@x (;\x7d".toList =
          .ok ⟨[.block (.qualified "x") [found] ⟨0, 8⟩]⟩ ∧ found.shift 19 = unevenEnd.shift 2 := by
  have hparse : Stylesheet.parse unevenText = .ok ⟨[unevenRule, unevenEnd]⟩ :=
    parse_of_events (by decide +kernel : _ = some [.opens (some (.qualified "é")) 3,
      .leaf (.statement "y" "b\\;") ⟨6, 13⟩, .leaf (.declaration "d" (.raw "(é") false) ⟨13, 18⟩,
      .closes 19, .leaf (.statement "x" "(;") ⟨19, 24⟩])
  have hrule : ¬unevenRule.IsCutOff unevenText := by
    rintro ⟨name, prelude, span, he, -⟩
    cases he
  have hend : ¬unevenEnd.IsCutOff unevenText := by
    rintro ⟨name, prelude, span, he, -, hslash⟩
    cases he
    exact absurd hslash (by decide)
  refine ⟨hparse, hrule, hend, ?_, ?_⟩
  · exact parse_excerpt hparse (.head _) hrule
  · exact parse_excerpt hparse (.tail _ (.tail _ (.tail _ (.head _)))) hend

end WebFonts.Css
