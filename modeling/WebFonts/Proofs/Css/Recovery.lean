import WebFonts.Proofs.Css.Contained
import WebFonts.Proofs.Css.Nesting

/-! # Recovery from junk

Junk that no string, bracket or comment opens in is dropped through the next semicolon. Put in
front of a node, it moves the spans behind it and changes nothing else. -/

namespace WebFonts.Css

open Text

/-! ## Junk -/

/-- The characters that could end or hide junk, or give it a meaning. -/
def junkMarks : List Char := ['"', '\'', '\\', '(', ')', '[', ']', '{', '}', ';', '@', '<']

/-- Text that starts neither with white space nor with a name, and holds no mark and no opening of
a comment. -/
structure IsJunk (junk : List Char) : Prop where
  exists_first : ∃ c rest, junk = c :: rest ∧ isSpace c = false ∧ isNameCharacter c = false
  unmarked : ∀ c ∈ junk, c ∉ junkMarks
  uncommented : ¬['/', '*'] <:+: junk

theorem stretch_append_of_unmarked {junk : List Char} (hmarks : ∀ c ∈ junk, c ∉ junkMarks)
    (hcomment : ¬['/', '*'] <:+: junk) (rest : List Char) :
    stretch [] (junk ++ ';' :: rest) = .ok (junk, ';' :: rest) := by
  induction junk with
  | nil => exact stretch_of_ends rfl
  | cons c junk ih =>
    have hc := hmarks c List.mem_cons_self
    simp only [junkMarks, List.mem_cons, List.not_mem_nil, or_false, not_or] at hc
    have hstar : ¬(c = '/' ∧ (junk ++ ';' :: rest).head? = some '*') := by
      rintro ⟨rfl, hhead⟩
      cases junk with
      | nil => simp at hhead
      | cons d junk =>
        obtain rfl := Option.some.inj hhead
        exact hcomment ⟨[], junk, rfl⟩
    have hpiece : piece c (junk ++ ';' :: rest) = .ok ([c], junk ++ ';' :: rest) := by
      rw [piece_eq_unit hstar]
      simp [unit, isQuote, hc]
    have hends : endsStretch [] c = false := by simp [endsStretch, hc]
    have hafter : closersAfter [] c = [] :=
      closersAfter_of_not_mem (List.nil_subset _) hc.2.2.2.1 hc.2.2.2.2.2.1 (by
        simp [closingMarks, hc])
    have hjunk := ih (fun d hd => hmarks d (List.mem_cons_of_mem _ hd))
      (fun hopening => hcomment (hopening.trans (List.suffix_cons c junk).isInfix))
    rw [List.cons_append, stretch_of_piece hends hpiece, hafter, hjunk]
    rfl

section

variable {junk : List Char} (hjunk : IsJunk junk)

include hjunk

theorem IsJunk.spacing_eq (between : Bool) (rest : List Char) :
    spacing between (junk ++ ';' :: rest) = none := by
  obtain ⟨c, junk, rfl, hspace, hname⟩ := hjunk.exists_first
  have hc := hjunk.unmarked c List.mem_cons_self
  rw [List.cons_append, spacing]
  · simp [hspace]
  · rintro body rfl hbody
    cases junk with
    | nil => simp at hbody
    | cons d junk =>
      obtain ⟨rfl, -⟩ := List.cons.inj hbody
      exact hjunk.uncommented ⟨[], junk, rfl⟩
  · rintro body rfl -
    exact hc (by decide)
  · rintro body rfl -
    contradiction

/-- Junk is dropped through its semicolon, in a block and between the rules of a sheet. -/
theorem IsJunk.read_eq (inBlock : Bool) (rest : List Char) :
    Item.read inBlock (junk ++ ';' :: rest) = .ok ⟨.whole none, junk ++ [';'], rest⟩ := by
  have hstretch := stretch_append_of_unmarked hjunk.unmarked hjunk.uncommented rest
  obtain ⟨c, junk, rfl, hspace, hname⟩ := hjunk.exists_first
  have hc := hjunk.unmarked c List.mem_cons_self
  have hat : (c :: junk ++ ';' :: rest).head? ≠ some '@' := by
    intro hhead
    obtain rfl := Option.some.inj hhead
    exact hc (by decide)
  have hrule : rule (c :: junk ++ ';' :: rest) = .ok ⟨.whole none, c :: junk ++ [';'], rest⟩ := by
    rw [rule_eq, ruleStart_of_ne hat]
    simp only [hstretch, List.nil_append]
    rfl
  have hnone : name (c :: junk ++ ';' :: rest) = ([], c :: junk ++ ';' :: rest) := by
    apply name_nil_of_head?
    rintro d hd hhead
    obtain rfl := Option.some.inj hhead
    rcases hd with hd | rfl
    · rw [hname] at hd
      contradiction
    · exact hc (by decide)
  have hidentifier : identifier? (c :: junk ++ ';' :: rest) = none := by
    rw [identifier?, hnone]
    rfl
  cases inBlock with
  | false => exact hrule
  | true => simp only [Item.read, ↓reduceIte, declaration?_of_no_word hidentifier, hrule]

end

/-! ## Room in a tree -/

mutual

/-- A node with another span, and other spans for all nodes in it. -/
def Node.mapSpan (f : Span → Span) : Node → Node
  | .declaration found => .declaration { found with span := f found.span }
  | .statement name prelude span => .statement name prelude (f span)
  | .block head body span => .block head (mapSpans f body) (f span)

def Node.mapSpans (f : Span → Span) : List Node → List Node
  | [] => []
  | node :: nodes => node.mapSpan f :: mapSpans f nodes

end

/-- A span once `n` bytes were put in at a place. -/
def Span.makeRoom (place n : Nat) (span : Span) : Span :=
  ⟨if place ≤ span.start then n + span.start else span.start,
    if place < span.stop then n + span.stop else span.stop⟩

section

variable {f g : Span → Span}

theorem Node.mapSpans_append (nodes more : List Node) :
    mapSpans f (nodes ++ more) = mapSpans f nodes ++ mapSpans f more := by
  induction nodes with
  | nil => rfl
  | cons node nodes ih => simp [mapSpans, ih]

theorem mapSpans_leafNodes (leaf : Option Leaf) (span : Span) :
    Node.mapSpans f (leafNodes leaf span) = leafNodes leaf (f span) := by
  rcases leaf with _ | (_ | _) <;> rfl

theorem mapSpans_blockNodes (head : Option Head) (body : List Node) (span : Span) :
    Node.mapSpans f (blockNodes head body span) =
      blockNodes head (Node.mapSpans f body) (f span) := by
  cases head <;> rfl

mutual

theorem Node.mapSpan_congr (node : Node) (h : ∀ found ∈ node.nodes, f found.span = g found.span) :
    node.mapSpan f = node.mapSpan g := by
  cases node with
  | declaration found =>
    have hspan : f found.span = g found.span := h (.declaration found) List.mem_cons_self
    rw [mapSpan, mapSpan, hspan]
  | statement name prelude span =>
    have hspan : f span = g span := h (.statement name prelude span) List.mem_cons_self
    rw [mapSpan, mapSpan, hspan]
  | block head body span =>
    have hspan : f span = g span := h (.block head body span) List.mem_cons_self
    rw [mapSpan, mapSpan, hspan,
      Node.mapSpans_congr body fun found hfound => h found (List.mem_cons_of_mem _ hfound)]

theorem Node.mapSpans_congr (nodes : List Node)
    (h : ∀ found ∈ nodesAll nodes, f found.span = g found.span) :
    mapSpans f nodes = mapSpans g nodes := by
  cases nodes with
  | nil => rfl
  | cons node nodes =>
    rw [mapSpans, mapSpans,
      Node.mapSpan_congr node fun found hfound => h found (List.mem_append_left _ hfound),
      Node.mapSpans_congr nodes fun found hfound => h found (List.mem_append_right _ hfound)]

end

end

mutual

theorem Node.mapSpan_shift (n : Nat) (node : Node) :
    node.mapSpan (Span.shift n) = node.shift n := by
  cases node with
  | declaration found => rfl
  | statement name prelude span => rfl
  | block head body span => rw [mapSpan, shift, Node.mapSpans_shift n body]

theorem Node.mapSpans_shift (n : Nat) (nodes : List Node) :
    mapSpans (Span.shift n) nodes = shiftAll n nodes := by
  cases nodes with
  | nil => rfl
  | cons node nodes =>
    rw [mapSpans, shiftAll, Node.mapSpan_shift n node, Node.mapSpans_shift n nodes]

end

section

variable {first last place : Nat} {nodes : List Node} (h : Nested first nodes last)

include h

/-- Nodes behind a place move. -/
theorem Nested.makeRoom_of_le (hplace : place ≤ first) (n : Nat) :
    Node.mapSpans (Span.makeRoom place n) nodes = Node.shiftAll n nodes := by
  rw [← Node.mapSpans_shift]
  apply Node.mapSpans_congr
  intro found hfound
  have hbounds := h.bounds hfound
  rw [Span.makeRoom, if_pos (by omega), if_pos (by omega), Span.shift]

/-- Nodes in front of a place stay. -/
theorem Nested.makeRoom_of_ge (hplace : last ≤ place) (n : Nat) :
    Node.mapSpans (Span.makeRoom place n) nodes = nodes := by
  have hstay : Node.mapSpans (Span.makeRoom place n) nodes =
      Node.mapSpans (Span.shift 0) nodes := by
    apply Node.mapSpans_congr
    intro found hfound
    have hbounds := h.bounds hfound
    rw [Span.makeRoom, if_neg (by omega), if_neg (by omega), Span.shift, Nat.zero_add,
      Nat.zero_add]
  rw [hstay, Node.mapSpans_shift, Node.shiftAll_zero]

end

/-! ## Items in front of junk -/

/-- White space starts neither at nor in front of a mark that ends a stretch, whatever is behind. -/
theorem spacing_none_behind_mark {between : Bool} {front rest : List Char} {mark : Char}
    (hmark : endsStretch [] mark = true) (h : spacing between (front ++ mark :: rest) = none)
    (rest' : List Char) : spacing between (front ++ mark :: rest') = none := by
  cases hread : spacing between (front ++ mark :: rest') with
  | none => rfl
  | some read =>
    obtain ⟨run, behind, he, hrun, hopens⟩ := exists_opening_of_spacing hread
    obtain ⟨more, rfl⟩ : run <+: front := by
      rcases List.append_eq_append_iff.mp he with ⟨more, rfl, hmore⟩ | ⟨more, rfl, -⟩
      · cases more with
        | nil => simp
        | cons c more =>
          obtain ⟨rfl, -⟩ := List.cons.inj hmore
          rw [hrun mark (by simp)] at hmark
          contradiction
      · exact List.prefix_append _ _
    rw [List.append_assoc] at h
    exact (hopens _ h).elim

/-- White space in front of a text through such a mark stays, whatever is behind the mark. -/
theorem gap_behind_mark {between : Bool} {text blank rest front behind : List Char} {c mark : Char}
    (hmark : endsStretch [] mark = true) (hgap : gap between text = .ok (blank, c :: rest))
    (hsplits : c :: rest = front ++ mark :: behind) (behind' : List Char) :
    ∃ rest', front ++ mark :: behind' = c :: rest' ∧
      gap between (blank ++ c :: rest') = .ok (blank, c :: rest') := by
  have hspacing := spacing_of_gap hgap
  rw [hsplits] at hspacing
  have hgap' := gap_behind hgap (spacing_none_behind_mark hmark hspacing behind')
  obtain ⟨rest', hrest'⟩ := exists_cons_of_splits hsplits behind'
  rw [hrest'] at hgap'
  exact ⟨rest', hrest', hgap'⟩

/-- An item without a block that something else than a brace follows ends in a semicolon, and
anything may follow. -/
theorem Item.exists_semicolon {inBlock : Bool} {text scanned behind : List Char}
    {leaf : Option Leaf} (h : Item.read inBlock text = .ok ⟨.whole leaf, scanned, behind⟩)
    (hbehind : behind ≠ [] ∧ behind.head? ≠ some '}') :
    ∃ front, scanned = front ++ [';'] ∧ ∀ behind',
      Item.read inBlock (front ++ ';' :: behind') = .ok ⟨.whole leaf, scanned, behind'⟩ := by
  obtain ⟨leaf', head, written, last, hstretch, he, hread⟩ := Item.read_stops h
  rcases stretch_stops_at hstretch with hnil | hopen | hclose | hsemicolon
  · obtain rfl := List.head?_eq_none_iff.mp hnil
    exact (hbehind.1 (Item.Reading.mk.inj he).2.2).elim
  · obtain ⟨rest, rfl⟩ := List.head?_eq_some_iff.mp hopen
    cases he
  · rw [Item.ending_of_brace _ _ _ hclose] at he
    rw [(Item.Reading.mk.inj he).2.2] at hbehind
    exact (hbehind.2 hclose).elim
  · obtain ⟨rest, rfl⟩ := List.head?_eq_some_iff.mp hsemicolon
    obtain ⟨hitem, rfl, rfl⟩ := Item.Reading.mk.inj he
    obtain rfl := Item.whole.inj hitem
    exact ⟨written, rfl, fun behind' => hread (';' :: behind') (.inl ⟨by simp, rfl⟩)⟩

/-! ## Passages with junk in them -/

section

variable {inBlock : Bool} {place stop : Nat} {text last : List Char} {nodes : List Node}

theorem Passage.shift (h : Passage inBlock place text nodes stop last) (n : Nat) :
    Passage inBlock (n + place) text (Node.shiftAll n nodes) (n + stop) last := by
  obtain ⟨nodes', stop', hmoved, hnodes, hstop⟩ :=
    @Passage.move _ _ _ _ _ _ h 0 n (n + place) (by omega)
  rw [Node.shiftAll_zero] at hnodes
  rw [Nat.zero_add] at hstop
  rwa [hnodes, hstop] at hmoved

/-- A passage with nodes in it starts with white space and something else than a closing brace. -/
theorem Passage.exists_gap (h : Passage inBlock place text nodes stop last) (hne : nodes ≠ []) :
    ∃ blank c rest, gap (!inBlock) text = .ok (blank, c :: rest) ∧ c ≠ '}' := by
  cases h with
  | nil => contradiction
  | semicolon hgap _ => exact ⟨_, _, _, hgap, by decide⟩
  | whole hgap hbrace _ _ _ => exact ⟨_, _, _, hgap, hbrace⟩
  | block hgap hbrace _ _ _ _ _ => exact ⟨_, _, _, hgap, hbrace⟩

theorem Passage.head?_ne (h : Passage inBlock place text nodes stop last) (hne : nodes ≠ []) :
    text ≠ [] ∧ text.head? ≠ some '}' := by
  obtain ⟨blank, c, rest, hgap, hbrace⟩ := h.exists_gap hne
  constructor
  · rintro rfl
    simp at hgap
  · intro hhead
    obtain ⟨rest', rfl⟩ := List.head?_eq_some_iff.mp hhead
    have hnone : spacing (!inBlock) ('}' :: rest') = none := spacing_of_ne rfl (by decide) _ _
    rw [gap_of_none hnone] at hgap
    obtain ⟨-, he⟩ := Prod.mk.inj (Except.ok.inj hgap)
    exact hbrace (List.cons.inj he).1.symm

/-- The white space that a passage starts with can be left out. -/
theorem Passage.skip_gap (h : Passage inBlock place text nodes stop last) (hne : nodes ≠ [])
    {blank rest : List Char} (hgap : gap (!inBlock) text = .ok (blank, rest)) :
    Passage inBlock (place + utf8Width blank) rest nodes stop last := by
  have hrest := gap_of_none (spacing_of_gap hgap)
  cases h with
  | nil => contradiction
  | semicolon hgap' hlast =>
    obtain ⟨rfl, rfl⟩ := Prod.mk.inj (Except.ok.inj (hgap.symm.trans hgap'))
    exact .semicolon hrest hlast
  | whole hgap' hbrace hsemicolon hitem hlast =>
    obtain ⟨rfl, rfl⟩ := Prod.mk.inj (Except.ok.inj (hgap.symm.trans hgap'))
    exact .whole hrest hbrace hsemicolon hitem hlast
  | block hgap' hbrace hsemicolon hitem hbody hclose hlast =>
    obtain ⟨rfl, rfl⟩ := Prod.mk.inj (Except.ok.inj (hgap.symm.trans hgap'))
    exact .block hrest hbrace hsemicolon hitem hbody hclose hlast

/-- Junk behind the white space that a passage starts with moves its nodes. -/
theorem Passage.insert_first {junk : List Char} (hjunk : IsJunk junk)
    (h : Passage inBlock place text nodes stop last) (hne : nodes ≠ []) {blank rest : List Char}
    (hgap : gap (!inBlock) text = .ok (blank, rest)) :
    Passage inBlock place (blank ++ (junk ++ ';' :: rest))
      (Node.shiftAll (utf8Width junk + 1) nodes) (utf8Width junk + 1 + stop) last := by
  have hgap' := gap_behind hgap (hjunk.spacing_eq (!inBlock) rest)
  have hitem := hjunk.read_eq inBlock rest
  have hmoved := (h.skip_gap hne hgap).shift (utf8Width junk + 1)
  obtain ⟨c, tail, rfl, -, -⟩ := hjunk.exists_first
  have hc := hjunk.unmarked c List.mem_cons_self
  have hplace : utf8Width (c :: tail) + 1 + (place + utf8Width blank) =
      place + utf8Width blank + utf8Width (c :: tail ++ [';']) := by
    simp only [utf8Width_append, utf8Width, utf8Size_marks]
    omega
  rw [hplace] at hmoved
  have hbrace : c ≠ '}' := by
    rintro rfl
    exact hc (by decide)
  have hsemicolon : c ≠ ';' := by
    rintro rfl
    exact hc (by decide)
  exact .whole hgap' hbrace hsemicolon hitem hmoved

end

/-- Junk in front of a node of a passage makes room for itself. -/
structure Passage.Inserts (junk : List Char) (inBlock : Bool) (place : Nat) (text : List Char)
    (nodes : List Node) (stop : Nat) (last : List Char) (node : Node)
    (before behind : List Char) : Prop where
  text_eq : text = before ++ behind
  start_eq : node.span.start = place + utf8Width before
  passage : Passage inBlock place (before ++ (junk ++ ';' :: behind))
    (Node.mapSpans (Span.makeRoom node.span.start (utf8Width junk + 1)) nodes)
    (utf8Width junk + 1 + stop) last

theorem Span.makeRoom_of_lt {span : Span} {place : Nat} (hstart : span.start < place)
    (hstop : span.stop ≤ place) (n : Nat) : span.makeRoom place n = span := by
  rw [makeRoom, if_neg (by omega), if_neg (by omega)]

theorem ne_nil_of_mem_nodesAll {node : Node} {nodes : List Node} (h : node ∈ Node.nodesAll nodes) :
    nodes ≠ [] := by
  rintro rfl
  contradiction

section

variable {junk : List Char} {inBlock : Bool} {place stop : Nat} {text last : List Char}
  {nodes : List Node} {node : Node}

theorem Passage.inserts_first (hjunk : IsJunk junk)
    (h : Passage inBlock place text nodes stop last) (hne : nodes ≠ []) {blank rest : List Char}
    (hgap : gap (!inBlock) text = .ok (blank, rest))
    (hstart : node.span.start = place + utf8Width blank) :
    Passage.Inserts junk inBlock place text nodes stop last node blank rest := by
  refine ⟨(gap_splits _ _ _ _ hgap).symm, hstart, ?_⟩
  rw [(h.skip_gap hne hgap).nested.makeRoom_of_le (Nat.le_of_eq hstart)]
  exact h.insert_first hjunk hne hgap

/-- Junk behind an item without a block leaves that item as it is. -/
theorem Passage.inserts_behind_whole {blank rest scanned behind : List Char} {c : Char}
    {leaf : Option Leaf} (hgap : gap (!inBlock) text = .ok (blank, c :: rest)) (hbrace : c ≠ '}')
    (hsemicolon : c ≠ ';')
    (hitem : Item.read inBlock (c :: rest) = .ok ⟨.whole leaf, scanned, behind⟩)
    (hrest : Passage inBlock (place + utf8Width blank + utf8Width scanned) behind nodes stop last)
    (hmem : node ∈ Node.nodesAll nodes) {before behind' : List Char}
    (h : Passage.Inserts junk inBlock (place + utf8Width blank + utf8Width scanned) behind nodes
      stop last node before behind') :
    Passage.Inserts junk inBlock place text
      (leafNodes leaf ⟨place + utf8Width blank,
        place + utf8Width blank + utf8Width scanned⟩ ++ nodes) stop last node
      (blank ++ (scanned ++ before)) behind' := by
  have hsplits : c :: rest = scanned ++ behind := Item.read_splits hitem
  obtain ⟨front, rfl, hread⟩ :=
    Item.exists_semicolon hitem (hrest.head?_ne (ne_nil_of_mem_nodesAll hmem))
  obtain ⟨rest', hrest', hgap'⟩ :=
    gap_behind_mark rfl hgap (hsplits.trans (List.append_cons _ _ _).symm)
      (before ++ (junk ++ ';' :: behind'))
  have hitem' := hread (before ++ (junk ++ ';' :: behind'))
  rw [hrest'] at hitem'
  have hbounds := hrest.nested.bounds hmem
  constructor
  · rw [← gap_splits _ _ _ _ hgap, hsplits, h.text_eq]
    simp
  · rw [h.start_eq]
    simp only [utf8Width_append]
    omega
  · have hlt : place + utf8Width blank < node.span.start := by
      simp only [utf8Width_append, utf8Width, utf8Size_marks] at hbounds
      omega
    have hstay := @Span.makeRoom_of_lt ⟨place + utf8Width blank, _⟩ _ hlt hbounds.1
      (utf8Width junk + 1)
    rw [Node.mapSpans_append, mapSpans_leafNodes, hstay]
    have htext : blank ++ (front ++ [';'] ++ before) ++ (junk ++ ';' :: behind') =
        blank ++ c :: rest' := by
      rw [← hrest']
      simp
    rw [htext]
    exact .whole hgap' hbrace hsemicolon hitem' h.passage

/-- Junk in a block leaves its head as it is and moves what follows the block. -/
theorem Passage.inserts_inside {inner : Nat}
    {blank rest scanned behind middle blank' rest' : List Char} {c : Char} {head : Option Head}
    {body : List Node} (hgap : gap (!inBlock) text = .ok (blank, c :: rest)) (hbrace : c ≠ '}')
    (hsemicolon : c ≠ ';')
    (hitem : Item.read inBlock (c :: rest) = .ok ⟨.opening head, scanned, behind⟩)
    (hbody : Passage true (place + utf8Width blank + utf8Width scanned + 1) behind body inner
      middle)
    (hclose : gap false middle = .ok (blank', '}' :: rest'))
    (hrest : Passage inBlock (inner + utf8Width blank' + 1) rest' nodes stop last)
    (hmem : node ∈ Node.nodesAll body) {before behind' : List Char}
    (h : Passage.Inserts junk true (place + utf8Width blank + utf8Width scanned + 1) behind body
      inner middle node before behind') :
    Passage.Inserts junk inBlock place text
      (blockNodes head body ⟨place + utf8Width blank, inner + utf8Width blank' + 1⟩ ++ nodes)
      stop last node (blank ++ (scanned ++ '{' :: before)) behind' := by
  have hsplits : c :: rest = scanned ++ '{' :: behind := Item.read_splits hitem
  obtain ⟨rest'', hrest'', hgap'⟩ :=
    gap_behind_mark rfl hgap hsplits (before ++ (junk ++ ';' :: behind'))
  have hitem' := Item.opening_behind hitem (before ++ (junk ++ ';' :: behind'))
  rw [hrest''] at hitem'
  have hbounds := hbody.nested.bounds hmem
  constructor
  · rw [← gap_splits _ _ _ _ hgap, hsplits, h.text_eq]
    simp
  · rw [h.start_eq]
    simp only [utf8Width_append, utf8Width, utf8Size_marks]
    omega
  · have hmoved := hrest.shift (utf8Width junk + 1)
    have hlater := hrest.nested.makeRoom_of_le (show node.span.start ≤ _ by omega)
      (utf8Width junk + 1)
    have hroom : (⟨place + utf8Width blank, inner + utf8Width blank' + 1⟩ : Span).makeRoom
        node.span.start (utf8Width junk + 1) =
          ⟨place + utf8Width blank, utf8Width junk + 1 + inner + utf8Width blank' + 1⟩ := by
      rw [Span.makeRoom, if_neg (by simp only; omega), if_pos (by simp only; omega)]
      simp only [Nat.add_assoc]
    rw [Node.mapSpans_append, mapSpans_blockNodes, hroom, hlater]
    have htext : blank ++ (scanned ++ '{' :: before) ++ (junk ++ ';' :: behind') =
        blank ++ c :: rest'' := by
      rw [← hrest'']
      simp
    rw [htext]
    simp only [← Nat.add_assoc] at hmoved
    exact .block hgap' hbrace hsemicolon hitem' h.passage hclose hmoved

/-- Junk behind a block leaves the block as it is. -/
theorem Passage.inserts_behind_block {inner : Nat}
    {blank rest scanned behind middle blank' rest' : List Char} {c : Char} {head : Option Head}
    {body : List Node} (hgap : gap (!inBlock) text = .ok (blank, c :: rest)) (hbrace : c ≠ '}')
    (hsemicolon : c ≠ ';')
    (hitem : Item.read inBlock (c :: rest) = .ok ⟨.opening head, scanned, behind⟩)
    (hbody : Passage true (place + utf8Width blank + utf8Width scanned + 1) behind body inner
      middle)
    (hclose : gap false middle = .ok (blank', '}' :: rest'))
    (hrest : Passage inBlock (inner + utf8Width blank' + 1) rest' nodes stop last)
    (hmem : node ∈ Node.nodesAll nodes) {before behind' : List Char}
    (h : Passage.Inserts junk inBlock (inner + utf8Width blank' + 1) rest' nodes stop last node
      before behind') :
    ∃ before', Passage.Inserts junk inBlock place text
      (blockNodes head body ⟨place + utf8Width blank, inner + utf8Width blank' + 1⟩ ++ nodes)
      stop last node before' behind' := by
  obtain rfl := gap_splits _ _ _ _ hclose
  have hsplits : c :: rest = scanned ++ '{' :: behind := Item.read_splits hitem
  have hhead : (blank' ++ '}' :: (before ++ (junk ++ ';' :: behind'))).head? =
      (blank' ++ '}' :: rest').head? := head?_append_right blank' rfl
  obtain ⟨run, rfl, hbody'⟩ := hbody.behind rfl (by simp) hhead
  obtain ⟨run', hrun, hinner⟩ := hbody.exists_text
  obtain rfl := List.append_cancel_right hrun
  obtain ⟨rest'', hrest'', hgap'⟩ := gap_behind_mark rfl hgap hsplits
    (run ++ (blank' ++ '}' :: (before ++ (junk ++ ';' :: behind'))))
  have hitem' := Item.opening_behind hitem
    (run ++ (blank' ++ '}' :: (before ++ (junk ++ ';' :: behind'))))
  rw [hrest''] at hitem'
  have hbounds := hrest.nested.bounds hmem
  refine ⟨blank ++ (scanned ++ '{' :: (run ++ (blank' ++ '}' :: before))), ?_⟩
  constructor
  · rw [← gap_splits _ _ _ _ hgap, hsplits, h.text_eq]
    simp
  · rw [h.start_eq]
    simp only [utf8Width_append, utf8Width, utf8Size_marks]
    omega
  · have hstay : Node.mapSpans (Span.makeRoom node.span.start (utf8Width junk + 1))
        (blockNodes head body ⟨place + utf8Width blank, inner + utf8Width blank' + 1⟩) =
          blockNodes head body ⟨place + utf8Width blank, inner + utf8Width blank' + 1⟩ := by
      rw [mapSpans_blockNodes, hbody.nested.makeRoom_of_ge (by omega),
        Span.makeRoom_of_lt (by simp only; omega) (by simp only; omega)]
    rw [Node.mapSpans_append, hstay]
    have htext : blank ++ (scanned ++ '{' :: (run ++ (blank' ++ '}' :: before))) ++
        (junk ++ ';' :: behind') = blank ++ c :: rest'' := by
      rw [← hrest'']
      simp
    rw [htext]
    exact .block hgap' hbrace hsemicolon hitem' hbody' (gap_behind hclose rfl) h.passage

/-- Junk in front of a node makes room for itself, at any depth. -/
theorem Passage.inserts_of_mem (hjunk : IsJunk junk)
    (h : Passage inBlock place text nodes stop last) (hmem : node ∈ Node.nodesAll nodes) :
    ∃ before behind,
      Passage.Inserts junk inBlock place text nodes stop last node before behind := by
  induction h with
  | nil => contradiction
  | @semicolon inBlock place stop text blank rest last nodes hgap _ ih =>
    obtain ⟨before, behind, rfl, hstart, hpassage⟩ := ih hmem
    have hsemicolon : spacing (!inBlock) (';' :: (before ++ (junk ++ ';' :: behind))) = none :=
      spacing_of_ne rfl (by decide) _ _
    refine ⟨blank ++ ';' :: before, behind, ?_, ?_, ?_⟩
    · rw [← gap_splits _ _ _ _ hgap]
      simp
    · rw [hstart]
      simp only [utf8Width_append, utf8Width, utf8Size_marks]
      omega
    · rw [List.append_assoc, List.cons_append]
      exact .semicolon (gap_behind hgap hsemicolon) hpassage
  | @whole inBlock place stop text blank rest scanned behind last c leaf nodes hgap hbrace
      hsemicolon hitem hrest ih =>
    have hwhole := Passage.whole hgap hbrace hsemicolon hitem hrest
    rw [Node.nodesAll_append, Node.nodesAll_leafNodes] at hmem
    rcases List.mem_append.mp hmem with hmem | hmem
    · cases leaf with
      | none => contradiction
      | some found =>
        obtain rfl := List.mem_singleton.mp hmem
        exact ⟨blank, c :: rest,
          hwhole.inserts_first hjunk (by simp [leafNodes]) hgap (by rw [Leaf.span_toNode])⟩
    · obtain ⟨before, behind', hinserts⟩ := ih hmem
      exact ⟨_, behind', inserts_behind_whole hgap hbrace hsemicolon hitem hrest hmem hinserts⟩
  | @block inBlock place inner stop text blank rest scanned behind middle blank' rest' last c head
      body nodes hgap hbrace hsemicolon hitem hbody hclose hrest ih ih' =>
    have hblock := Passage.block hgap hbrace hsemicolon hitem hbody hclose hrest
    rw [Node.nodesAll_append] at hmem
    rcases List.mem_append.mp hmem with hmem | hmem
    · rcases mem_nodesAll_blockNodes hmem with ⟨head, rfl, rfl⟩ | hmem
      · exact ⟨blank, c :: rest, hblock.inserts_first hjunk (by simp [blockNodes]) hgap rfl⟩
      · obtain ⟨before, behind', hinserts⟩ := ih hmem
        exact ⟨_, behind',
          inserts_inside hgap hbrace hsemicolon hitem hbody hclose hrest hmem hinserts⟩
    · obtain ⟨before, behind', hinserts⟩ := ih' hmem
      obtain ⟨before', hinserts'⟩ :=
        inserts_behind_block hgap hbrace hsemicolon hitem hbody hclose hrest hmem hinserts
      exact ⟨before', behind', hinserts'⟩

end

/-! ## Stylesheets with junk in them -/

/-- Junk that stands with a semicolon in front of a node is dropped: the stylesheet is read as the
same tree, in which only the spans behind the junk move, and the ends of those around it. -/
theorem parse_of_junk {source : List Char} {sheet : Stylesheet}
    (h : Stylesheet.parse source = .ok sheet) {node : Node} (hnode : node ∈ sheet.nodes)
    {junk : List Char} (hjunk : IsJunk junk) :
    Stylesheet.parse (takeBytes node.span.start source ++
        (junk ++ ';' :: dropBytes node.span.start source)) =
      .ok ⟨Node.mapSpans (Span.makeRoom node.span.start (utf8Width junk + 1)) sheet.rules⟩ := by
  obtain ⟨stop, last, blank, hpassage, hgap⟩ := parse_iff_passage.mp h
  obtain ⟨before, behind, hinserts⟩ := hpassage.inserts_of_mem hjunk hnode
  have hstart : node.span.start = utf8Width before := by rw [hinserts.start_eq, Nat.zero_add]
  have hfront : takeBytes node.span.start source = before := by
    rw [hstart, hinserts.text_eq, takeBytes_utf8Width]
  have hrest : dropBytes node.span.start source = behind := by
    rw [hstart, hinserts.text_eq, dropBytes_utf8Width]
  rw [hfront, hrest]
  exact parse_iff_passage.mpr ⟨_, last, blank, hinserts.passage, hgap⟩

def tidyText : List Char := "a\x7bb:c\x7d@m x\x7bp\x7bq:r;s:t\x7d\x7d".toList

def tidyEnd (start : Nat) : Declaration :=
  ⟨"s", .tokens [.identifier "t"], false, ⟨start, start + 3⟩⟩

/-- A sheet whose last declaration starts in a place. -/
def tidySheet (start : Nat) : Stylesheet :=
  ⟨[.block (.qualified "a") [.declaration ⟨"b", .tokens [.identifier "c"], false, ⟨2, 5⟩⟩] ⟨0, 6⟩,
    .block (.atRule "m" "x") [.block (.qualified "p")
      [.declaration ⟨"q", .tokens [.identifier "r"], false, ⟨13, 17⟩⟩,
        .declaration (tidyEnd start)] ⟨11, start + 4⟩] ⟨6, start + 5⟩]⟩

/-- Junk with a colon and the end of a mark in it stands in front of a declaration in two blocks. -/
theorem parse_of_junk_inside :
    Stylesheet.parse tidyText = .ok (tidySheet 17) ∧
      Node.declaration (tidyEnd 17) ∈ (tidySheet 17).nodes ∧ IsJunk "*z:1 -->".toList ∧
      Stylesheet.parse "a\x7bb:c\x7d@m x\x7bp\x7bq:r;*z:1 -->;s:t\x7d\x7d".toList =
        .ok (tidySheet 26) := by
  have hparse : Stylesheet.parse tidyText = .ok (tidySheet 17) :=
    parse_of_events (by decide +kernel : _ = some [.opens (some (.qualified "a")) 0,
      .leaf (.declaration "b" (.tokens [.identifier "c"]) false) ⟨2, 5⟩, .closes 6,
      .opens (some (.atRule "m" "x")) 6, .opens (some (.qualified "p")) 11,
      .leaf (.declaration "q" (.tokens [.identifier "r"]) false) ⟨13, 17⟩,
      .leaf (.declaration "s" (.tokens [.identifier "t"]) false) ⟨17, 20⟩, .closes 21, .closes 22])
  have hnode : Node.declaration (tidyEnd 17) ∈ (tidySheet 17).nodes :=
    .tail _ (.tail _ (.tail _ (.tail _ (.tail _ (.head _)))))
  have hjunk : IsJunk "*z:1 -->".toList := by
    refine ⟨⟨'*', "z:1 -->".toList, rfl, rfl, rfl⟩, by simp [junkMarks], ?_⟩
    rw [← contains_iff_isInfix]
    decide
  have hread := parse_of_junk hparse hnode hjunk
  have htext : takeBytes (Node.declaration (tidyEnd 17)).span.start tidyText ++
      ("*z:1 -->".toList ++ ';' :: dropBytes (Node.declaration (tidyEnd 17)).span.start tidyText) =
        "a\x7bb:c\x7d@m x\x7bp\x7bq:r;*z:1 -->;s:t\x7d\x7d".toList := by decide +kernel
  rw [htext] at hread
  exact ⟨hparse, hnode, hjunk, hread⟩

end WebFonts.Css
