import WebFonts.Proofs.Css.Stopping

/-! # Where items stop

An item without a block depends on its own text and on what stops it, and an item that opens a block
on its own text alone. -/

namespace WebFonts.Css

open Text

/-- What a rule takes in front of its stretch belongs to a stretch that starts with it. -/
theorem stretch_eq_after_ruleStart (text : List Char) :
    stretch [] text = (stretch [] (ruleStart text).rest).after (ruleStart text).front := by
  unfold ruleStart
  split
  · rename_i behind
    have hat : stretch [] ('@' :: behind) = (stretch [] behind).after ['@'] :=
      stretch_cons_of_ordinary (by decide) (by simp) behind
    split
    · exact hat
    · rename_i word rest hword
      rw [hat, stretch_eq_after_name behind, name_of_identifier? hword, Scan.after_after]
      rfl
  · exact (Scan.after_nil _).symm

/-- Where a text opens a block, it starts with no declaration. -/
theorem declaration?_of_opening {text written last : List Char}
    (h : stretch [] text = .ok (written, '{' :: last)) : declaration? text = .ok none := by
  cases hword : identifier? text with
  | none => exact declaration?_of_no_word hword
  | some both =>
    obtain ⟨word, rest⟩ := both
    rw [stretch_eq_after_name, name_of_identifier? hword] at h
    obtain ⟨written', hrest, -⟩ := Scan.after_eq_ok_iff.mp h
    obtain ⟨blank, behind, hgap⟩ := exists_gap_of_stretch hrest
    rw [stretch_eq_after_gap hgap] at hrest
    obtain ⟨written'', hbehind, -⟩ := Scan.after_eq_ok_iff.mp hrest
    by_cases hcolon : behind.head? = some ':'
    · obtain ⟨behind, rfl⟩ := List.head?_eq_some_iff.mp hcolon
      rw [stretch_cons_of_ordinary (by decide) (by simp)] at hbehind
      obtain ⟨value, hvalue, -⟩ := Scan.after_eq_ok_iff.mp hbehind
      exact declaration?_of_block hword hgap hvalue
    · exact declaration?_of_no_colon hword hgap hcolon

theorem identifier?_stretch_behind {text run rest written last last' : List Char}
    (h : identifier? text = some (run, rest)) (hstretch : stretch [] rest = .ok (written, last))
    (hstops : StopsAlike written last last') :
    identifier? (run ++ (written ++ last')) = some (run, written ++ last') := by
  have hname := name_stretch_behind (name_of_identifier? h) hstretch hstops
  rw [identifier?, name_of_identifier? h] at h
  rw [identifier?, hname]
  simp_all

theorem identifier?_none_stretch_behind {text written last last' : List Char}
    (h : identifier? text = none) (hstretch : stretch [] text = .ok (written, last))
    (hstops : StopsAlike written last last') : identifier? (written ++ last') = none := by
  rw [stretch_eq_after_name] at hstretch
  obtain ⟨written', hrest, rfl⟩ := Scan.after_eq_ok_iff.mp hstretch
  have hname := @name_stretch_behind _ (name text).1 _ _ _ _ rfl hrest hstops.of_append
  rw [List.append_assoc, identifier?, hname]
  rw [identifier?] at h
  simp_all

/-- A text that starts with no declaration still does if something else stops its stretch alike. -/
theorem declaration?_none_behind {text written last last' : List Char}
    (h : declaration? text = .ok none) (hstretch : stretch [] text = .ok (written, last))
    (hstops : StopsAlike written last last') : declaration? (written ++ last') = .ok none := by
  by_cases hblock : last.head? = some '{'
  · have hhead : last'.head? = some '{' := by
      rcases hstops with ⟨-, he⟩ | ⟨rfl, -⟩
      · rw [he, hblock]
      · contradiction
    obtain ⟨rest, rfl⟩ := List.head?_eq_some_iff.mp hhead
    exact declaration?_of_opening (stretch_behind hstretch hstops)
  · cases hword : identifier? text with
    | none => exact declaration?_of_no_word (identifier?_none_stretch_behind hword hstretch hstops)
    | some both =>
      obtain ⟨word, rest⟩ := both
      rw [stretch_eq_after_name, name_of_identifier? hword] at hstretch
      obtain ⟨written, hrest, rfl⟩ := Scan.after_eq_ok_iff.mp hstretch
      have hword' := identifier?_stretch_behind hword hrest hstops.of_append
      obtain ⟨blank, behind, hgap⟩ := exists_gap_of_stretch hrest
      rw [stretch_eq_after_gap hgap] at hrest
      obtain ⟨written, hbehind, rfl⟩ := Scan.after_eq_ok_iff.mp hrest
      have hstops : StopsAlike written last last' := hstops.of_append.of_append
      have hspacing := spacing_stretch_behind (spacing_of_gap hgap) hbehind hstops
      have hcolon : behind.head? ≠ some ':' := by
        intro hcolon
        obtain ⟨behind, rfl⟩ := List.head?_eq_some_iff.mp hcolon
        rw [stretch_cons_of_ordinary (by decide) (by simp)] at hbehind
        obtain ⟨value, hvalue, -⟩ := Scan.after_eq_ok_iff.mp hbehind
        simp [declaration?_of_colon hword hgap hvalue hblock] at h
      rw [List.append_assoc] at hword' ⊢
      rw [List.append_assoc]
      apply declaration?_of_no_colon hword' (gap_behind hgap hspacing)
      intro hhead
      have hfirst := hstops.head?_eq (by decide) hhead
      rw [stretch_splits [] behind _ _ hbehind] at hfirst
      exact hcolon hfirst

/-- An item is what a stretch of text holds, and stays so if something else stops it alike. -/
def Item.Reading.Stops (reading : Item.Reading) (text : List Char)
    (Reads : List Char → Item.Reading → Prop) : Prop :=
  ∃ leaf head written last, stretch [] text = .ok (written, last) ∧
    reading = Item.ending leaf head written last ∧
    ∀ last', StopsAlike written last last' →
      Reads (written ++ last') (Item.ending leaf head written last')

theorem ruleStart_of_ne {text : List Char} (h : text.head? ≠ some '@') :
    ruleStart text = ⟨[], text, fun _ => none,
      fun written => some (.qualified (String.ofList (trim written)))⟩ := by
  unfold ruleStart
  split
  · exact (h rfl).elim
  · rfl

theorem ruleStart_behind {text written last last' : List Char}
    (hstretch : stretch [] (ruleStart text).rest = .ok (written, last))
    (hstops : StopsAlike written last last') :
    ruleStart ((ruleStart text).front ++ (written ++ last')) =
      { ruleStart text with rest := written ++ last' } := by
  by_cases hat : text.head? = some '@'
  · obtain ⟨behind, rfl⟩ := List.head?_eq_some_iff.mp hat
    cases hword : identifier? behind with
    | none =>
      simp only [ruleStart, hword] at hstretch ⊢
      have hword' := identifier?_none_stretch_behind hword hstretch hstops
      simp [hword']
    | some both =>
      obtain ⟨word, rest⟩ := both
      simp only [ruleStart, hword] at hstretch ⊢
      have hword' := identifier?_stretch_behind hword hstretch hstops
      simp [hword']
  · rw [ruleStart_of_ne hat] at hstretch ⊢
    rw [List.nil_append, ruleStart_of_ne]
    intro hhead
    have hfirst := hstops.head?_eq (by decide) hhead
    rw [stretch_splits [] text _ _ hstretch] at hfirst
    exact hat hfirst

theorem rule_stops {text : List Char} {reading : Item.Reading} (h : rule text = .ok reading) :
    reading.Stops text (rule · = .ok ·) := by
  rw [rule_eq] at h
  cases hstretch : stretch [] (ruleStart text).rest with
  | error fault => simp [hstretch] at h
  | ok both =>
    obtain ⟨written, last⟩ := both
    simp only [hstretch, Except.ok.injEq] at h
    refine ⟨_, _, _, last, ?_, h.symm, ?_⟩
    · rw [stretch_eq_after_ruleStart, hstretch]
      rfl
    · intro last' hstops
      rw [rule_eq, List.append_assoc, ruleStart_behind hstretch hstops.of_append]
      simp only [stretch_behind hstretch hstops.of_append]

theorem declaration?_stops {text : List Char} {reading : Item.Reading}
    (h : declaration? text = .ok (some reading)) :
    reading.Stops text fun text' reading' => declaration? text' = .ok (some reading') := by
  obtain ⟨word, rest, blank, behind, written, last, hword, hgap, hstretch, hblock, rfl⟩ :=
    exists_colon_of_declaration? h
  have hcolon : stretch [] (':' :: behind) = .ok (':' :: written, last) := by
    rw [stretch_cons_of_ordinary (by decide) (by simp), hstretch]
    rfl
  have hrest : stretch [] rest = .ok (blank ++ ':' :: written, last) := by
    rw [stretch_eq_after_gap hgap, hcolon]
    rfl
  refine ⟨_, _, _, last, ?_, rfl, ?_⟩
  · rw [stretch_eq_after_name, name_of_identifier? hword, hrest, List.append_assoc]
    rfl
  · intro last' hstops
    rw [List.append_assoc] at hstops
    have hword' := identifier?_stretch_behind hword hrest hstops.of_append
    have hspacing : spacing false (':' :: (written ++ last')) = none :=
      spacing_of_ne rfl (by decide) false _
    have hgap' := gap_behind hgap hspacing
    have hvalue : StopsAlike written last last' :=
      @StopsAlike.of_append [':'] _ _ _ hstops.of_append.of_append
    have hblock' : last'.head? ≠ some '{' := by
      intro hhead
      rcases hvalue with ⟨-, he⟩ | ⟨-, -, hbrace⟩
      · exact hblock (he ▸ hhead)
      · simp [hbrace] at hhead
    rw [List.append_assoc, List.cons_append] at hword'
    rw [List.append_assoc, List.append_assoc, List.cons_append,
      declaration?_of_colon hword' hgap' (stretch_behind hstretch hvalue) hblock',
      List.append_assoc]

theorem Item.read_stops {inBlock : Bool} {text : List Char} {reading : Item.Reading}
    (h : Item.read inBlock text = .ok reading) :
    reading.Stops text (Item.read inBlock · = .ok ·) := by
  cases inBlock with
  | false => exact rule_stops h
  | true =>
    simp only [Item.read, ↓reduceIte] at h
    cases hdeclaration : declaration? text with
    | error fault => simp [hdeclaration] at h
    | ok found =>
      cases found with
      | some found =>
        simp only [hdeclaration, Except.ok.injEq] at h
        subst h
        obtain ⟨leaf, head, written, last, hstretch, he, hread⟩ := declaration?_stops hdeclaration
        refine ⟨leaf, head, written, last, hstretch, he, ?_⟩
        intro last' hstops
        simp only [Item.read, ↓reduceIte, hread last' hstops]
      | none =>
        simp only [hdeclaration] at h
        obtain ⟨leaf, head, written, last, hstretch, he, hread⟩ := rule_stops h
        refine ⟨leaf, head, written, last, hstretch, he, ?_⟩
        intro last' hstops
        simp only [Item.read, ↓reduceIte, declaration?_none_behind hdeclaration hstretch hstops,
          hread last' hstops]

theorem Item.ending_of_brace (leaf : Option Leaf) (head : Option Head) (scanned : List Char)
    {text : List Char} (h : text.head? = some '}') :
    Item.ending leaf head scanned text = ⟨.whole leaf, scanned, text⟩ :=
  Item.ending_of_ne leaf head scanned (by simp [h]) (by simp [h])

/-- An item without a block stays what it is if it is followed by something that starts alike, or
by a brace that it does not escape. -/
theorem Item.whole_behind {inBlock : Bool} {text scanned behind behind' : List Char}
    {leaf : Option Leaf} (h : Item.read inBlock text = .ok ⟨.whole leaf, scanned, behind⟩)
    (hbehind : StopsAlike scanned behind behind' ∨ behind ≠ [] ∧ behind'.head? = some '}') :
    Item.read inBlock (scanned ++ behind') = .ok ⟨.whole leaf, scanned, behind'⟩ := by
  obtain ⟨leaf', head, written, last, hstretch, he, hread⟩ := Item.read_stops h
  rcases stretch_stops_at hstretch with hnil | hopen | hclose | hsemicolon
  · obtain rfl := List.head?_eq_none_iff.mp hnil
    obtain ⟨hitem, rfl, rfl⟩ := Item.Reading.mk.inj he
    obtain rfl := Item.whole.inj hitem
    have hstops := hbehind.resolve_right (fun h => h.1 rfl)
    rcases hstops with ⟨hne, -⟩ | ⟨-, hslash, hbrace⟩
    · contradiction
    · rw [hread _ (.inr ⟨rfl, hslash, hbrace⟩), Item.ending_of_brace _ _ _ hbrace]
  · obtain ⟨rest, rfl⟩ := List.head?_eq_some_iff.mp hopen
    cases he
  · rw [Item.ending_of_brace _ _ _ hclose] at he
    obtain ⟨hitem, rfl, rfl⟩ := Item.Reading.mk.inj he
    obtain rfl := Item.whole.inj hitem
    have hne : behind ≠ [] := by
      rintro rfl
      contradiction
    have hbrace : behind'.head? = some '}' := by
      rcases hbehind with (⟨-, hhead⟩ | ⟨hnil, -⟩) | ⟨-, hbrace⟩
      · rw [hhead, hclose]
      · contradiction
      · exact hbrace
    rw [hread _ (.inl ⟨hne, hbrace.trans hclose.symm⟩), Item.ending_of_brace _ _ _ hbrace]
  · obtain ⟨rest, rfl⟩ := List.head?_eq_some_iff.mp hsemicolon
    obtain ⟨hitem, rfl, rfl⟩ := Item.Reading.mk.inj he
    obtain rfl := Item.whole.inj hitem
    have hmore := hread (';' :: behind') (.inl ⟨by simp, rfl⟩)
    rwa [List.append_cons] at hmore

/-- What opens a block stays so whatever the block holds. -/
theorem Item.opening_behind {inBlock : Bool} {text scanned behind : List Char}
    {head : Option Head} (h : Item.read inBlock text = .ok ⟨.opening head, scanned, behind⟩)
    (behind' : List Char) :
    Item.read inBlock (scanned ++ '{' :: behind') = .ok ⟨.opening head, scanned, behind'⟩ := by
  obtain ⟨leaf, head', written, last, hstretch, he, hread⟩ := Item.read_stops h
  rcases stretch_stops_at hstretch with hnil | hopen | hclose | hsemicolon
  · obtain rfl := List.head?_eq_none_iff.mp hnil
    cases he
  · obtain ⟨rest, rfl⟩ := List.head?_eq_some_iff.mp hopen
    obtain ⟨hitem, rfl, rfl⟩ := Item.Reading.mk.inj he
    obtain rfl := Item.opening.inj hitem
    exact hread ('{' :: behind') (.inl ⟨by simp, rfl⟩)
  · rw [Item.ending_of_brace _ _ _ hclose] at he
    cases he
  · obtain ⟨rest, rfl⟩ := List.head?_eq_some_iff.mp hsemicolon
    cases he

/-- What is kept between the rules of a sheet is the same inside of a block. -/
theorem Item.read_inBlock {text : List Char} {reading : Item.Reading} (inBlock : Bool)
    (h : Item.read false text = .ok reading) (hkept : reading.item ≠ .whole none) :
    Item.read inBlock text = .ok reading := by
  cases inBlock with
  | false => exact h
  | true =>
    have hdeclaration : declaration? text = .ok none := by
      by_cases hat : text.head? = some '@'
      · obtain ⟨behind, rfl⟩ := List.head?_eq_some_iff.mp hat
        exact declaration?_of_no_word rfl
      · have hrule : rule text = .ok reading := h
        rw [rule_eq, ruleStart_of_ne hat] at hrule
        cases hstretch : stretch [] text with
        | error fault => simp [hstretch] at hrule
        | ok both =>
          obtain ⟨written, last⟩ := both
          simp only [hstretch, Except.ok.injEq] at hrule
          subst hrule
          rcases stretch_stops_at hstretch with hnil | hopen | hclose | hsemicolon
          · obtain rfl := List.head?_eq_none_iff.mp hnil
            exact (hkept rfl).elim
          · obtain ⟨rest, rfl⟩ := List.head?_eq_some_iff.mp hopen
            exact declaration?_of_opening hstretch
          · rw [Item.ending_of_brace _ _ _ hclose] at hkept
            exact (hkept rfl).elim
          · obtain ⟨rest, rfl⟩ := List.head?_eq_some_iff.mp hsemicolon
            exact (hkept rfl).elim
    have hrule : rule text = .ok reading := h
    simp only [Item.read, ↓reduceIte, hdeclaration, hrule]

end WebFonts.Css
