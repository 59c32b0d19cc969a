import WebFonts.Css.Item

/-!
# Events

A stylesheet is read as a sequence of events in the order of its text, and its tree is put
together from these.
-/

namespace WebFonts.Css

open Text

/-- What the reader of a stylesheet meets, with its place in bytes. -/
inductive Event where
  | leaf (leaf : Leaf) (span : Span)
  /-- A block begins; `none` is the head of one that is dropped with all it holds. -/
  | opens (head : Option Head) (start : Nat)
  /-- The innermost block has ended in front of this place. -/
  | closes (stop : Nat)
  deriving DecidableEq, Repr

/-- The events of the text that starts at a place of a stylesheet. `opened` are the places of
the braces of all blocks around that place, innermost first. -/
def Event.read (opened : List Nat) (place : Nat) (text : List Char) :
    Except Fault (List Event) :=
  match _h : gap opened.isEmpty text with
  | .error fault => .error (fault.shift place)
  | .ok (blank, []) =>
    match opened with
    | [] => .ok []
    | brace :: _ => .error ⟨.unterminatedBlock, brace⟩
  | .ok (blank, c :: rest) =>
    let start := place + utf8Width blank
    if _hc : c = '}' then
      match opened with
      | [] => .error ⟨.strayBrace, start⟩
      | _ :: outer => (Event.read outer (start + 1) rest).map (.closes (start + 1) :: ·)
    else if c = ';' then Event.read opened (start + 1) rest
    else
      match _h' : Item.read (!opened.isEmpty) (c :: rest) with
      | .error fault => .error (fault.shift start)
      | .ok ⟨.whole none, scanned, behind⟩ =>
        Event.read opened (start + utf8Width scanned) behind
      | .ok ⟨.whole (some found), scanned, behind⟩ =>
        let stop := start + utf8Width scanned
        (Event.read opened stop behind).map (.leaf found ⟨start, stop⟩ :: ·)
      | .ok ⟨.opening head, scanned, behind⟩ =>
        let brace := start + utf8Width scanned
        (Event.read (brace :: opened) (brace + 1) behind).map (.opens head start :: ·)
termination_by text.length
decreasing_by
  all_goals have := congrArg List.length (gap_splits _ _ _ _ _h)
  all_goals simp only [List.length_append, List.length_cons] at this
  · omega
  · omega
  all_goals
    have := Item.read_shorter _h' _hc
    simp only [List.length_cons] at this
    omega

/-- The nodes that follow a place: its later siblings and, for each block around it, where that
block ends and the later siblings of the block. -/
structure Following where
  siblings : List Node
  outer : List (Nat × List Node)

/-- A leaf with its place. -/
def Leaf.toNode (leaf : Leaf) (span : Span) : Node :=
  match leaf with
  | .declaration property value important => .declaration ⟨property, value, important, span⟩
  | .statement name prelude => .statement name prelude span

/-- Puts an event in front of what follows it. -/
def Event.before (event : Event) (following : Following) : Following :=
  match event with
  | .leaf found span => { following with siblings := found.toNode span :: following.siblings }
  | .closes stop => ⟨[], (stop, following.siblings) :: following.outer⟩
  | .opens head start =>
    match head, following.outer with
    | some head, (stop, siblings) :: outer =>
      ⟨.block head following.siblings ⟨start, stop⟩ :: siblings, outer⟩
    | none, (_, siblings) :: outer => ⟨siblings, outer⟩
    | _, [] => following

/-- The nodes at the outermost level of a sequence of events. -/
def Event.assemble (events : List Event) : List Node :=
  (events.foldr Event.before ⟨[], []⟩).siblings

/-- The stylesheet that a text holds, or its first fault. -/
def Stylesheet.parse (source : List Char) : Except SyntaxError Stylesheet :=
  match Event.read [] 0 source with
  | .ok events => .ok ⟨Event.assemble events⟩
  | .error fault => .error (fault.locate source)

end WebFonts.Css
