import WebFonts.Face.Render
import WebFonts.Proofs.Css.Composition
import WebFonts.Proofs.Css.Passing

/-! # Rules for faces read back

A rule whose values a stretch of text passes over is read as one block, with a declaration for each
of its lines. -/

namespace WebFonts

open Css Text

namespace Face

/-! ## Descriptors -/

/-- An optional descriptor, left out if the value is not set or empty. -/
def optional (property : String) : Option String → List (String × List Char)
  | none => []
  | some value => if value.isEmpty then [] else [(property, value.toList)]

/-- The descriptors in the rule for a face besides its family, with the text of their values. -/
def details (face : Face) : List (String × List Char) :=
  [("src", Source.renderAll (face.src.toList.map Entry.toSource)),
    ("font-display", (face.display.getD .swap).keyword.toList)] ++
  optional "unicode-range" face.unicodeRange ++
  optional "font-weight" face.weight ++
  optional "font-style" face.style ++
  optional "font-feature-settings" face.featureSettings ++
  optional "font-variation-settings" face.variationSettings

def descriptors (family : String) (face : Face) : List (String × List Char) :=
  ("font-family", '\'' :: (family.toList ++ ['\''])) :: face.details

/-- Descriptors on lines of their own. -/
def body (found : List (String × List Char)) : List Char :=
  found.flatMap fun descriptor => '\n' :: descriptorLine descriptor.1 descriptor.2

def header : List Char := "@font-face \x7b".toList

/-- A rule with its descriptors. -/
def block (found : List (String × List Char)) : List Char :=
  header ++ body found ++ ['\n'] ++ ['}']

theorem intercalate_cons {α : Type} (separator first : List α) (rest : List (List α)) :
    List.intercalate separator (first :: rest) =
      first ++ rest.flatMap fun line => separator ++ line := by
  induction rest generalizing first with
  | nil => simp
  | cons second rest ih =>
    rw [List.intercalate_cons_cons, ih, List.flatMap_cons, List.append_assoc, List.append_assoc]

theorem optionalLine_eq (property : String) (value : Option String) :
    optionalLine property value =
      (optional property value).map fun descriptor => descriptorLine descriptor.1 descriptor.2 := by
  cases value with
  | none => rfl
  | some value => by_cases h : value.isEmpty <;> simp [optionalLine, optional, h]

theorem lines_eq (family : String) (face : Face) :
    face.lines family =
      header :: ((face.descriptors family).map fun descriptor =>
        descriptorLine descriptor.1 descriptor.2) ++ [['}']] := by
  simp only [lines, descriptors, details, List.map_cons, List.map_append, ← optionalLine_eq]
  rfl

theorem toList_render (family : String) (face : Face) :
    (face.render family).toList = block (face.descriptors family) := by
  rw [render, String.toList_ofList, lines_eq, List.cons_append, intercalate_cons,
    List.flatMap_append, List.flatMap_map, block, body]
  simp

theorem closed_block (found : List (String × List Char)) : Closed (block found) := by
  refine ⟨header ++ body found ++ ['\n'], rfl, ?_⟩
  rw [List.getLast?_append]
  simp

/-! ## One descriptor -/

/-- A name that starts with a letter and needs no escapes. -/
def isWord (word : List Char) : Bool := word.all isNameCharacter && word.head?.any Char.isAlpha

theorem name_append_of_forall {word rest : List Char} (hword : ∀ c ∈ word, isNameCharacter c = true)
    (hrest : name rest = ([], rest)) : name (word ++ rest) = (word, rest) := by
  induction word with
  | nil => exact hrest
  | cons c word ih =>
    have hc := hword c List.mem_cons_self
    have hslash : c ≠ '\\' := by
      rintro rfl
      contradiction
    rw [List.cons_append, name, if_pos hc, ih fun d hd => hword d (List.mem_cons_of_mem _ hd)]
    exact fun d text h => absurd h hslash

theorem isDigit_of_isAlpha {c : Char} (h : c.isAlpha = true) : c.isDigit = false := by
  change (decide (c.val ≥ 65 ∧ c.val ≤ 90) || decide (c.val ≥ 97) && decide (c.val ≤ 122)) =
    true at h
  simp only [Bool.or_eq_true, Bool.and_eq_true, decide_eq_true_eq, ge_iff_le] at h
  simp only [Char.isDigit, Bool.and_eq_false_iff, decide_eq_false_iff_not, ge_iff_le]
  rw [UInt32.not_le, UInt32.not_le]
  rcases h with h | h
  · exact .inr (UInt32.lt_of_lt_of_le (by decide) h.1)
  · exact .inr (UInt32.lt_of_lt_of_le (by decide) h.1)

theorem identifier?_of_isWord {word rest : List Char} (hword : isWord word = true)
    (hrest : name rest = ([], rest)) : identifier? (word ++ rest) = some (word, rest) := by
  simp only [isWord, Bool.and_eq_true, List.all_eq_true] at hword
  have hname := name_append_of_forall hword.1 hrest
  cases word with
  | nil => simp at hword
  | cons c word =>
    have halpha : c.isAlpha = true := by simpa using hword.2
    have hnumber : startsLikeNumber (c :: word) = false := by
      unfold startsLikeNumber
      split
      · rename_i he
        rcases List.cons.inj he with ⟨rfl, -⟩
        contradiction
      · rename_i he
        rcases List.cons.inj he with ⟨rfl, -⟩
        contradiction
      · rename_i d text _ _ he
        rcases List.cons.inj he with ⟨rfl, -⟩
        exact isDigit_of_isAlpha halpha
      · contradiction
    rw [identifier?, hname]
    simp [hnumber]

theorem declaration?_of_descriptor {word value rest : List Char} (hword : isWord word = true)
    (hvalue : stretch [] (' ' :: (value ++ ';' :: rest)) = .ok (' ' :: value, ';' :: rest)) :
    declaration? (word ++ ':' :: ' ' :: (value ++ ';' :: rest)) =
      .ok (some ⟨.whole (some (Leaf.ofWritten word (' ' :: value))),
        word ++ ':' :: ' ' :: value ++ [';'], rest⟩) := by
  have hname : name (':' :: ' ' :: (value ++ ';' :: rest)) =
      ([], ':' :: ' ' :: (value ++ ';' :: rest)) := rfl
  rw [declaration?_of_colon (identifier?_of_isWord hword hname) (gap_of_none rfl) hvalue (by simp)]
  simp [Item.ending]

theorem gap_append_of_forall {blank : List Char} (h : ∀ c ∈ blank, isSpace c = true)
    (between : Bool) (text : List Char) :
    gap between (blank ++ text) = (gap between text).after blank := by
  induction blank with
  | nil => exact (Scan.after_nil _).symm
  | cons c blank ih =>
    have hc := spacing_of_isSpace (h c List.mem_cons_self) between (blank ++ text)
    rw [List.cons_append, gap_of_some hc, ih fun d hd => h d (List.mem_cons_of_mem _ hd),
      Scan.after_after]
    rfl

theorem toList_descriptorLine (property : String) (value rest : List Char) :
    '\n' :: descriptorLine property value ++ rest =
      ['\n', ' ', ' '] ++ (property.toList ++ ':' :: ' ' :: (value ++ ';' :: rest)) := by
  simp [descriptorLine]

/-- The declaration in a line that starts in this place. -/
def declarationAt (place : Nat) (descriptor : String × List Char) : Declaration :=
  let written := ' ' :: descriptor.2
  { property := descriptor.1
    value := Value.read descriptor.1.toList (cutImportant written).1
    important := (cutImportant written).2
    span := ⟨place + 3, place + utf8Width ('\n' :: descriptorLine descriptor.1 descriptor.2)⟩ }

theorem backslash_not_mem_of_isWord {word : List Char} (h : isWord word = true) :
    '\\' ∉ word := by
  intro hmem
  simp only [isWord, Bool.and_eq_true, List.all_eq_true] at h
  have hname := h.1 _ hmem
  contradiction

theorem ofWritten_eq {descriptor : String × List Char}
    (hword : isWord descriptor.1.toList = true) (place : Nat) :
    (Leaf.ofWritten descriptor.1.toList (' ' :: descriptor.2)).toNode
        (declarationAt place descriptor).span =
      .declaration (declarationAt place descriptor) := by
  rw [Leaf.ofWritten, unescape_of_not_mem (backslash_not_mem_of_isWord hword),
    String.ofList_toList]
  rfl

theorem exists_cons_of_isWord {word : List Char} (h : isWord word = true) :
    ∃ c rest, word = c :: rest ∧ c.isAlpha = true := by
  cases word with
  | nil => simp [isWord] at h
  | cons c rest =>
    simp only [isWord, Bool.and_eq_true] at h
    exact ⟨c, rest, rfl, by simpa using h.2⟩

theorem spacing_of_isAlpha {c : Char} (h : c.isAlpha = true) (between : Bool)
    (rest : List Char) : spacing between (c :: rest) = none := by
  refine spacing_of_ne ?_ ?_ between rest
  · rw [Bool.eq_false_iff]
    intro hspace
    simp only [isSpace, Bool.or_eq_true, beq_iff_eq] at hspace
    rcases hspace with ((rfl | rfl) | rfl) | rfl <;> contradiction
  · intro hmem
    simp only [List.mem_cons, List.not_mem_nil, or_false] at hmem
    rcases hmem with rfl | rfl | rfl <;> contradiction

/-- A descriptor whose name is a word and whose value a stretch passes over. -/
def Readable (descriptor : String × List Char) : Prop :=
  isWord descriptor.1.toList = true ∧ Passes [] descriptor.2

theorem read_descriptor {descriptor : String × List Char} (h : Readable descriptor)
    (brace : Nat) (outer : List Nat) (place : Nat) (rest : List Char) :
    Event.read (brace :: outer) place
        ('\n' :: descriptorLine descriptor.1 descriptor.2 ++ rest) =
      (Event.read (brace :: outer)
        (place + utf8Width ('\n' :: descriptorLine descriptor.1 descriptor.2)) rest).map
        (.leaf (Leaf.ofWritten descriptor.1.toList (' ' :: descriptor.2))
          (declarationAt place descriptor).span :: ·) := by
  obtain ⟨hword, hpasses⟩ := h
  have hvalue : stretch [] (' ' :: (descriptor.2 ++ ';' :: rest)) =
      .ok (' ' :: descriptor.2, ';' :: rest) := by
    rw [stretch_cons_of_ordinary (by decide) (by simp), hpasses _ (by simp), stretch_of_ends rfl,
      Scan.after_after]
    simp [Scan.after]
  have hread := declaration?_of_descriptor hword hvalue
  rw [toList_descriptorLine, Event.read_of_blank _ (gap_append_of_forall (by simp [isSpace]) _ _)]
  rcases exists_cons_of_isWord hword with ⟨c, word, hc, halpha⟩
  rw [hc] at hread ⊢
  have hgap := gap_of_none (spacing_of_isAlpha halpha false
    (word ++ ':' :: ' ' :: (descriptor.2 ++ ';' :: rest)))
  have hbrace : c ≠ '}' := by
    rintro rfl
    contradiction
  have hsemicolon : c ≠ ';' := by
    rintro rfl
    contradiction
  have hitem : Item.read true (c :: word ++ ':' :: ' ' :: (descriptor.2 ++ ';' :: rest)) =
      .ok ⟨.whole (some (Leaf.ofWritten (c :: word) (' ' :: descriptor.2))),
        c :: word ++ ':' :: ' ' :: descriptor.2 ++ [';'], rest⟩ := by
    rw [Item.read, if_pos rfl, hread]
  refine (@Event.read_of_item (brace :: outer) _ _ _ _ _ hgap hbrace hsemicolon hitem _).trans ?_
  have hwidth : utf8Width ('\n' :: descriptorLine descriptor.1 descriptor.2) =
      3 + utf8Width (c :: word ++ ':' :: ' ' :: descriptor.2 ++ [';']) := by
    have hline := toList_descriptorLine descriptor.1 descriptor.2 []
    rw [List.append_nil, hc] at hline
    rw [hline, utf8Width_append, show utf8Width ['\n', ' ', ' '] = 3 from rfl]
    simp
  have hspan : (declarationAt place descriptor).span =
      ⟨place + 3, place + (3 + utf8Width (c :: word ++ ':' :: ' ' :: descriptor.2 ++ [';']))⟩ := by
    rw [declarationAt, hwidth]
  rw [hwidth, hspan, ← Nat.add_assoc]
  rfl

/-! ## The whole rule -/

/-- The events of lines that start in this place. -/
def leavesFrom (place : Nat) : List (String × List Char) → List Event
  | [] => []
  | descriptor :: found =>
    .leaf (Leaf.ofWritten descriptor.1.toList (' ' :: descriptor.2))
        (declarationAt place descriptor).span ::
      leavesFrom (place + utf8Width ('\n' :: descriptorLine descriptor.1 descriptor.2)) found

/-- The declarations in lines that start in this place. -/
def declarationsFrom (place : Nat) : List (String × List Char) → List Declaration
  | [] => []
  | descriptor :: found =>
    declarationAt place descriptor ::
      declarationsFrom (place + utf8Width ('\n' :: descriptorLine descriptor.1 descriptor.2)) found

theorem body_cons (descriptor : String × List Char) (found : List (String × List Char)) :
    body (descriptor :: found) =
      '\n' :: descriptorLine descriptor.1 descriptor.2 ++ body found := rfl

theorem read_body {found : List (String × List Char)} (h : ∀ d ∈ found, Readable d)
    (brace : Nat) (outer : List Nat) (place : Nat) (rest : List Char) :
    Event.read (brace :: outer) place (body found ++ rest) =
      (Event.read (brace :: outer) (place + utf8Width (body found)) rest).map
        (leavesFrom place found ++ ·) := by
  induction found generalizing place with
  | nil =>
    have hmap : ∀ read : Except Fault (List Event), read = read.map ([] ++ ·) := by
      intro read
      cases read <;> rfl
    exact hmap _
  | cons descriptor found ih =>
    have hfirst := read_descriptor (h descriptor List.mem_cons_self) brace outer place
      (body found ++ rest)
    rw [body_cons, List.append_assoc, hfirst, ih fun d hd => h d (List.mem_cons_of_mem _ hd),
      map_map, utf8Width_append, ← Nat.add_assoc]
    rfl

theorem foldr_leavesFrom {found : List (String × List Char)} (h : ∀ d ∈ found, Readable d)
    (place : Nat) (following : Following) :
    (leavesFrom place found).foldr Event.before following =
      { following with
        siblings := (declarationsFrom place found).map .declaration ++ following.siblings } := by
  induction found generalizing place with
  | nil => rfl
  | cons descriptor found ih =>
    have hword := (h descriptor List.mem_cons_self).1
    rw [leavesFrom, List.foldr_cons, ih fun d hd => h d (List.mem_cons_of_mem _ hd), Event.before,
      ofWritten_eq hword, declarationsFrom]
    rfl

/-- The node that the rule with these descriptors is read as. -/
def blockNode (found : List (String × List Char)) : Node :=
  .block (.atRule "font-face" "") ((declarationsFrom 12 found).map .declaration)
    ⟨0, utf8Width (block found)⟩

theorem read_header (rest : List Char) :
    Event.read [] 0 (header ++ rest) =
      (Event.read [11] 12 rest).map (.opens (some (.atRule "font-face" "")) 0 :: ·) := by
  have hfound : identifier? ("font-face".toList ++ ' ' :: '{' :: rest) =
      some ("font-face".toList, ' ' :: '{' :: rest) :=
    identifier?_of_isWord (by decide) rfl
  have hstretch : stretch [] (' ' :: '{' :: rest) = .ok ([' '], '{' :: rest) := by
    rw [stretch_cons_of_ordinary (by decide) (by simp), stretch_of_ends rfl]
    rfl
  have hstart : ruleStart ('@' :: ("font-face".toList ++ ' ' :: '{' :: rest)) =
      ⟨'@' :: "font-face".toList, ' ' :: '{' :: rest,
        fun written => some (.statement "font-face" (String.ofList (trim written))),
        fun written => some (.atRule "font-face" (String.ofList (trim written)))⟩ := by
    have hword : unescape "font-face".toList = "font-face".toList :=
      unescape_of_not_mem (by decide)
    simp only [ruleStart, hfound, hword, String.ofList_toList]
  have hitem : Item.read false ('@' :: ("font-face".toList ++ ' ' :: '{' :: rest)) =
      .ok ⟨.opening (some (.atRule "font-face" "")), "@font-face ".toList, rest⟩ := by
    rw [Item.read, if_neg (by simp), rule_eq, hstart]
    simp only [hstretch]
    rfl
  have hgap : gap true ('@' :: ("font-face".toList ++ ' ' :: '{' :: rest)) =
      .ok ([], '@' :: ("font-face".toList ++ ' ' :: '{' :: rest)) :=
    gap_of_none rfl
  refine (@Event.read_of_item [] _ _ _ _ _ hgap (by decide) (by decide) hitem 0).trans ?_
  rfl

theorem read_block {found : List (String × List Char)} (h : ∀ d ∈ found, Readable d) :
    Event.read [] 0 (block found) =
      .ok (.opens (some (.atRule "font-face" "")) 0 ::
        (leavesFrom 12 found ++ [.closes (utf8Width (block found))])) := by
  have hend : Event.read [11] (12 + utf8Width (body found)) ['\n', '}'] =
      .ok [.closes (12 + utf8Width (body found) + 2)] := by
    have hgap : gap false ['\n', '}'] = .ok (['\n'], ['}']) := by
      rw [gap_of_some (spacing_of_isSpace rfl false ['}']), gap_of_none rfl]
      rfl
    rw [Event.read_of_closing hgap, Event.read_of_end (gap_nil true)]
    rfl
  have hwidth : utf8Width (block found) = 12 + utf8Width (body found) + 2 := by
    simp only [block, utf8Width_append, Nat.add_assoc]
    rfl
  rw [hwidth, block, List.append_assoc, List.append_assoc, read_header, read_body h,
    List.singleton_append, hend]
  rfl

/-- A rule whose values a stretch passes over is one block with its descriptors. -/
theorem parse_block {found : List (String × List Char)} (h : ∀ d ∈ found, Readable d) :
    Stylesheet.parse (block found) = .ok ⟨[blockNode found]⟩ := by
  rw [Stylesheet.parse, read_block h]
  simp only [Event.assemble, List.foldr_cons, List.foldr_append, List.foldr_nil,
    foldr_leavesFrom h]
  simp [Event.before, blockNode]

end Face

end WebFonts
