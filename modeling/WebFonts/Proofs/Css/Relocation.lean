import WebFonts.Proofs.Css.ItemStopping
import WebFonts.Proofs.Css.Passage

/-! # Passages in other places

Inside of a block, the text of a passage is read as the same nodes wherever it stands, if what
follows it starts alike. -/

namespace WebFonts.Css

open Text

theorem shiftAll_leafNodes (n : Nat) (leaf : Option Leaf) (span : Span) :
    Node.shiftAll n (leafNodes leaf span) = leafNodes leaf (span.shift n) := by
  rcases leaf with _ | (_ | _) <;> rfl

theorem shiftAll_blockNodes (n : Nat) (head : Option Head) (body : List Node) (span : Span) :
    Node.shiftAll n (blockNodes head body span) =
      blockNodes head (Node.shiftAll n body) (span.shift n) := by
  cases head <;> rfl

/-- A passage can start in any place, and its nodes move with it. -/
theorem Passage.move {inBlock : Bool} {place stop : Nat} {text last : List Char}
    {nodes : List Node} (h : Passage inBlock place text nodes stop last) {m n : Nat} (place' : Nat)
    (hplace : m + place' = n + place) :
    ∃ nodes' stop', Passage inBlock place' text nodes' stop' last ∧
      Node.shiftAll m nodes' = Node.shiftAll n nodes ∧ m + stop' = n + stop := by
  induction h generalizing place' with
  | nil => exact ⟨[], place', .nil _ _ _, rfl, hplace⟩
  | @semicolon inBlock place stop text blank rest last nodes hgap _ ih =>
    obtain ⟨nodes', stop', hrest, hnodes, hstop⟩ :=
      ih (place' + utf8Width blank + 1) (by omega)
    exact ⟨nodes', stop', .semicolon hgap hrest, hnodes, hstop⟩
  | @whole inBlock place stop text blank rest scanned behind last c leaf nodes hgap hbrace
      hsemicolon hitem _ ih =>
    obtain ⟨nodes', stop', hrest, hnodes, hstop⟩ :=
      ih (place' + utf8Width blank + utf8Width scanned) (by omega)
    refine ⟨_, stop', .whole hgap hbrace hsemicolon hitem hrest, ?_, hstop⟩
    simp only [Node.shiftAll_append, shiftAll_leafNodes, hnodes, Span.shift]
    congr 3 <;> omega
  | @block inBlock place inner stop text blank rest scanned behind middle blank' rest' last c head
      body nodes hgap hbrace hsemicolon hitem _ hclose _ ih ih' =>
    obtain ⟨body', inner', hbody, hnodes, hinner⟩ :=
      ih (place' + utf8Width blank + utf8Width scanned + 1) (by omega)
    obtain ⟨nodes', stop', hrest, hnodes', hstop⟩ :=
      ih' (inner' + utf8Width blank' + 1) (by omega)
    refine ⟨_, stop', .block hgap hbrace hsemicolon hitem hbody hclose hrest, ?_, hstop⟩
    simp only [Node.shiftAll_append, shiftAll_blockNodes, hnodes, hnodes', Span.shift]
    congr 3 <;> omega

theorem head?_append_right (run : List Char) {rest rest' : List Char}
    (h : rest'.head? = rest.head?) :
    (run ++ rest').head? = (run ++ rest).head? := by
  cases run with
  | nil => exact h
  | cons c run => rfl

theorem exists_cons_of_splits {c d : Char} {rest front behind : List Char}
    (h : c :: rest = front ++ d :: behind) (behind' : List Char) :
    ∃ rest', front ++ d :: behind' = c :: rest' := by
  cases front with
  | nil =>
    obtain ⟨rfl, -⟩ := List.cons.inj h
    exact ⟨behind', rfl⟩
  | cons e front =>
    obtain ⟨rfl, -⟩ := List.cons.inj h
    exact ⟨front ++ d :: behind', rfl⟩

theorem spacing_opening_behind {run rest : List Char}
    (h : spacing false (run ++ '{' :: rest) = none) (rest' : List Char) :
    spacing false (run ++ '{' :: rest') = none :=
  spacing_none_behind h (.inl rfl) (.inr (by simp))

/-- What was read starts with the first character of the text, unless it ends at once. -/
theorem Item.exists_cons_of_whole {inBlock : Bool} {c : Char} {rest scanned behind : List Char}
    {leaf : Option Leaf}
    (h : Item.read inBlock (c :: rest) = .ok ⟨.whole leaf, scanned, behind⟩) (hc : c ≠ '}') :
    ∃ tail, scanned = c :: tail := by
  have hsplits : c :: rest = scanned ++ behind := Item.read_splits h
  cases scanned with
  | nil =>
    have hshorter := Item.read_shorter h hc
    rw [hsplits] at hshorter
    exact (Nat.lt_irrefl _ hshorter).elim
  | cons d tail =>
    obtain ⟨rfl, -⟩ := List.cons.inj hsplits
    exact ⟨tail, rfl⟩

/-- Inside of a block, a passage stays what it is if something else follows that starts alike. -/
theorem Passage.behind {inBlock : Bool} {place stop : Nat} {text last : List Char}
    {nodes : List Node} (h : Passage inBlock place text nodes stop last) (hblock : inBlock = true)
    (hlast : last ≠ []) {last' : List Char} (hhead : last'.head? = last.head?) :
    ∃ run, text = run ++ last ∧ Passage inBlock place (run ++ last') nodes stop last' := by
  induction h generalizing last' with
  | nil => exact ⟨[], rfl, .nil _ _ _⟩
  | @semicolon inBlock place stop text blank rest last nodes hgap _ ih =>
    subst hblock
    obtain ⟨run, rfl, hrest⟩ := ih rfl hlast hhead
    refine ⟨blank ++ ';' :: run, ?_, ?_⟩
    · simp [← gap_splits _ _ _ _ hgap]
    · rw [List.append_assoc, List.cons_append]
      exact .semicolon (gap_behind hgap rfl) hrest
  | @whole inBlock place stop text blank rest scanned behind last c leaf nodes hgap hbrace
      hsemicolon hitem _ ih =>
    subst hblock
    obtain ⟨run, rfl, hrest⟩ := ih rfl hlast hhead
    have hhead' := head?_append_right run hhead
    have hne : run ++ last ≠ [] := by simp [hlast]
    have hsplits : c :: rest = scanned ++ (run ++ last) := Item.read_splits hitem
    obtain ⟨tail, rfl⟩ := Item.exists_cons_of_whole hitem hbrace
    have hitem' := Item.whole_behind hitem (.inl (.inl ⟨hne, hhead'⟩))
    have hspacing := spacing_of_gap hgap
    rw [hsplits] at hspacing
    have hgap' := gap_behind hgap (spacing_none_behind hspacing (.inl hhead') (.inl (by simp)))
    refine ⟨blank ++ (c :: tail ++ run), ?_, ?_⟩
    · rw [← gap_splits _ _ _ _ hgap, hsplits]
      simp
    · rw [List.append_assoc, List.append_assoc]
      exact .whole hgap' hbrace hsemicolon hitem' hrest
  | @block inBlock place inner stop text blank rest scanned behind middle blank' rest' last c head
      body nodes hgap hbrace hsemicolon hitem _ hclose _ ih ih' =>
    subst hblock
    obtain ⟨run', rfl, hrest⟩ := ih' rfl hlast hhead
    obtain rfl := gap_splits _ _ _ _ hclose
    have hmiddle : (blank' ++ '}' :: (run' ++ last')).head? =
        (blank' ++ '}' :: (run' ++ last)).head? := head?_append_right blank' rfl
    obtain ⟨run, rfl, hbody⟩ := ih rfl (by simp) hmiddle
    have hsplits : c :: rest = scanned ++ '{' :: _ := Item.read_splits hitem
    have hspacing := spacing_of_gap hgap
    rw [hsplits] at hspacing
    have hitem' := Item.opening_behind hitem (run ++ (blank' ++ '}' :: (run' ++ last')))
    have hgap' := gap_behind hgap (spacing_opening_behind hspacing
      (run ++ (blank' ++ '}' :: (run' ++ last'))))
    obtain ⟨rest'', hrest''⟩ := exists_cons_of_splits hsplits
      (run ++ (blank' ++ '}' :: (run' ++ last')))
    rw [hrest''] at hitem' hgap'
    refine ⟨blank ++ (scanned ++ '{' :: (run ++ (blank' ++ '}' :: run'))), ?_, ?_⟩
    · rw [← gap_splits _ _ _ _ hgap, hsplits]
      simp
    · have htext : blank ++ (scanned ++ '{' :: (run ++ (blank' ++ '}' :: run'))) ++ last' =
          blank ++ c :: rest'' := by
        rw [← hrest'']
        simp
      rw [htext]
      exact .block hgap' hbrace hsemicolon hitem' hbody (gap_behind hclose rfl) hrest

/-- Inside of a block, a run of text that was read as nodes is read as them in every place. -/
theorem Passage.elsewhere {place stop : Nat} {text last : List Char} {nodes : List Node}
    (h : Passage true place text nodes stop last) (hlast : last ≠ []) :
    ∃ run, text = run ++ last ∧ stop = place + utf8Width run ∧
      ∀ (m n place' : Nat) (last' : List Char), m + place' = n + place →
        last'.head? = last.head? → ∃ nodes',
          Passage true place' (run ++ last') nodes' (place' + utf8Width run) last' ∧
          Node.shiftAll m nodes' = Node.shiftAll n nodes := by
  obtain ⟨run, rfl, rfl⟩ := h.exists_text
  refine ⟨run, rfl, rfl, ?_⟩
  intro m n place' last' hplace hhead
  obtain ⟨run', hrun, hbehind⟩ := h.behind rfl hlast hhead
  obtain rfl := List.append_cancel_right hrun
  obtain ⟨nodes', stop', hpassage, hnodes, hstop⟩ := hbehind.move place' hplace
  obtain rfl : stop' = place' + utf8Width run := by omega
  exact ⟨nodes', hpassage, hnodes⟩

end WebFonts.Css
