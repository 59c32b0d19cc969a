import WebFonts.Css.Node

/-!
# Items

An item is what the reader of a stylesheet takes in one step: a declaration, a statement, the
head of a block with the brace that opens it, or text that fits none of these and is dropped.
-/

namespace WebFonts.Css

open Text

/-- An item without a block. -/
inductive Leaf where
  | declaration (property : String) (value : Value) (important : Bool)
  | statement (name prelude : String)
  deriving DecidableEq, Repr

/-- A step of the reader. `none` marks what is dropped. -/
inductive Item where
  | whole (leaf : Option Leaf)
  | opening (head : Option Head)
  deriving DecidableEq, Repr

/-- An item with the text it was read from and the text behind it. The brace that opens a block
belongs to neither. -/
structure Item.Reading where
  item : Item
  scanned : List Char
  rest : List Char
  deriving DecidableEq, Repr

/-- Ends an item where its stretch of text ends: a brace opens the block of `head`, and a
semicolon is the last character of `leaf`. -/
def Item.ending (leaf : Option Leaf) (head : Option Head) (scanned : List Char) :
    List Char → Item.Reading
  | '{' :: rest => ⟨.opening head, scanned, rest⟩
  | ';' :: rest => ⟨.whole leaf, scanned ++ [';'], rest⟩
  | rest => ⟨.whole leaf, scanned, rest⟩

/-- The declaration a text starts with. There is none if the value would be followed by a
block. -/
def declaration? (text : List Char) : Except Fault (Option Item.Reading) :=
  match identifier? text with
  | none => .ok none
  | some (name, rest) =>
    match (gap false rest).after name with
    | .error fault => .error fault
    | .ok (scanned, ':' :: rest) =>
      match stretch [] rest with
      | .error fault => .error (fault.shift (utf8Width scanned + 1))
      | .ok (_, '{' :: _) => .ok none
      | .ok (written, rest) =>
        let (kept, important) := cutImportant written
        let leaf := .declaration (String.ofList (unescape name))
          (Value.read (unescape name) kept) important
        .ok (some (Item.ending (some leaf) none (scanned ++ ':' :: written) rest))
    | .ok _ => .ok none

/-- The rule a text starts with. A rule without a block is dropped, unless it is an at-rule; so
is an at-rule without a name. -/
def rule (text : List Char) : Except Fault Item.Reading :=
  match text with
  | '@' :: behind =>
    match identifier? behind with
    | none =>
      match (stretch [] behind).after ['@'] with
      | .error fault => .error fault
      | .ok (scanned, rest) => .ok (Item.ending none none scanned rest)
    | some (name, behind) =>
      match stretch [] behind with
      | .error fault => .error (fault.shift (1 + utf8Width name))
      | .ok (written, rest) =>
        let name' := String.ofList (unescape name)
        let prelude := String.ofList (trim written)
        .ok (Item.ending (some (.statement name' prelude)) (some (.atRule name' prelude))
          ('@' :: name ++ written) rest)
  | _ =>
    match stretch [] text with
    | .error fault => .error fault
    | .ok (written, rest) =>
      .ok (Item.ending none (some (.qualified (String.ofList (trim written)))) written rest)

/-- The item a text starts with. Declarations are found only inside of blocks. -/
def Item.read (inBlock : Bool) (text : List Char) : Except Fault Item.Reading :=
  if inBlock then
    match declaration? text with
    | .error fault => .error fault
    | .ok (some reading) => .ok reading
    | .ok none => rule text
  else rule text

/-! ## An item takes something of the text -/

theorem Item.length_ending_le (leaf : Option Leaf) (head : Option Head) (scanned text : List Char) :
    (Item.ending leaf head scanned text).rest.length ≤ text.length := by
  unfold Item.ending
  split <;> simp

theorem declaration?_shorter {text : List Char} {reading : Item.Reading}
    (h : declaration? text = .ok (some reading)) : reading.rest.length < text.length := by
  unfold declaration? at h
  split at h
  · simp at h
  · next name rest eq =>
    split at h
    · simp at h
    · next scanned rest' eq' =>
      split at h
      · simp at h
      · simp at h
      · next written rest'' _ eq'' =>
        simp only [Except.ok.injEq, Option.some.injEq] at h
        subst h
        refine Nat.lt_of_le_of_lt (Item.length_ending_le _ _ _ _) ?_
        have := congrArg List.length (identifier?_split eq).1
        have := congrArg List.length ((gap_splits false rest).after name _ _ eq')
        have := congrArg List.length (stretch_splits [] rest' _ _ eq'')
        simp only [List.length_append, List.length_cons] at *
        omega
    · simp at h

/-- Only at a brace that closes a block does a rule take nothing. -/
theorem rule_shorter {c : Char} {text : List Char} {reading : Item.Reading}
    (h : rule (c :: text) = .ok reading) (hc : c ≠ '}') :
    reading.rest.length < (c :: text).length := by
  unfold rule at h
  split at h
  · next behind eq =>
    obtain ⟨rfl, rfl⟩ := List.cons.inj eq
    split at h
    · split at h
      · simp at h
      · next scanned rest eq =>
        obtain rfl := Except.ok.inj h
        refine Nat.lt_of_le_of_lt (Item.length_ending_le _ _ _ _) ?_
        have := (stretch_splits [] text).after ['@']
        refine this.shorter eq ?_
        rintro rfl
        cases eq' : stretch [] text <;> simp [eq', Scan.after] at eq
    · next name rest eq =>
      split at h
      · simp at h
      · next written rest' eq' =>
        obtain rfl := Except.ok.inj h
        refine Nat.lt_of_le_of_lt (Item.length_ending_le _ _ _ _) ?_
        have := congrArg List.length (identifier?_split eq).1
        have := congrArg List.length (stretch_splits [] rest written rest' eq')
        simp only [List.length_append, List.length_cons] at *
        omega
  · split at h
    · simp at h
    · next written rest eq =>
      obtain rfl := Except.ok.inj h
      cases ends : endsStretch [] c with
      | false =>
        refine Nat.lt_of_le_of_lt (Item.length_ending_le _ _ _ _) ?_
        exact (stretch_splits [] (c :: text)).shorter eq (stretch_ne_nil eq ends)
      | true =>
        rw [stretch] at eq
        simp only [ends, ↓reduceIte, Except.ok.injEq, Prod.mk.injEq] at eq
        obtain ⟨rfl, rfl⟩ := eq
        simp only [endsStretch, Bool.or_eq_true, beq_iff_eq, hc, or_false,
          List.isEmpty_nil, Bool.and_true] at ends
        rcases ends with rfl | rfl <;> simp [Item.ending]

/-- Where no block is closed, an item takes at least one character. -/
theorem Item.read_shorter {inBlock : Bool} {c : Char} {text : List Char}
    {reading : Item.Reading} (h : Item.read inBlock (c :: text) = .ok reading) (hc : c ≠ '}') :
    reading.rest.length < (c :: text).length := by
  unfold Item.read at h
  split at h
  · split at h
    · simp at h
    · next eq =>
      obtain rfl := Except.ok.inj h
      exact declaration?_shorter eq
    · exact rule_shorter h hc
  · exact rule_shorter h hc

end WebFonts.Css
