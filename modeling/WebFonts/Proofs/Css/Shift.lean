import WebFonts.Css.Visit
import WebFonts.Proofs.Css.Equations

/-! # Stylesheets further down a text

Reading starts anywhere in a text, and only the places in what is read depend on where. -/

namespace WebFonts.Css

open Text

/-! ## Moved spans -/

def Span.shift (n : Nat) (span : Span) : Span := ⟨n + span.start, n + span.stop⟩

def Declaration.shift (n : Nat) (declaration : Declaration) : Declaration :=
  { declaration with span := declaration.span.shift n }

mutual

/-- A node with its spans, and those of all nodes in it, moved by a number of bytes. -/
def Node.shift (n : Nat) : Node → Node
  | .declaration found => .declaration (found.shift n)
  | .statement name prelude span => .statement name prelude (span.shift n)
  | .block head body span => .block head (shiftAll n body) (span.shift n)

/-- Moves the spans of nodes. -/
def Node.shiftAll (n : Nat) : List Node → List Node
  | [] => []
  | node :: nodes => node.shift n :: shiftAll n nodes

end

theorem Node.shiftAll_append (n : Nat) (nodes more : List Node) :
    shiftAll n (nodes ++ more) = shiftAll n nodes ++ shiftAll n more := by
  induction nodes with
  | nil => rfl
  | cons node nodes ih => simp [shiftAll, ih]

mutual

theorem Node.shift_zero (node : Node) : node.shift 0 = node := by
  cases node with
  | declaration found => simp [shift, Declaration.shift, Span.shift]
  | statement name prelude span => simp [shift, Span.shift]
  | block head body span => simp [shift, Span.shift, Node.shiftAll_zero body]

theorem Node.shiftAll_zero (nodes : List Node) : shiftAll 0 nodes = nodes := by
  cases nodes with
  | nil => rfl
  | cons node nodes => rw [shiftAll, Node.shift_zero node, Node.shiftAll_zero nodes]

end

mutual

theorem Node.shift_shift (m n : Nat) (node : Node) :
    (node.shift n).shift m = node.shift (m + n) := by
  cases node with
  | declaration found => simp [shift, Declaration.shift, Span.shift, Nat.add_assoc]
  | statement name prelude span => simp [shift, Span.shift, Nat.add_assoc]
  | block head body span =>
    simp [shift, Span.shift, Node.shiftAll_shiftAll m n body, Nat.add_assoc]

theorem Node.shiftAll_shiftAll (m n : Nat) (nodes : List Node) :
    shiftAll m (shiftAll n nodes) = shiftAll (m + n) nodes := by
  cases nodes with
  | nil => rfl
  | cons node nodes =>
    rw [shiftAll, shiftAll, Node.shift_shift m n node, Node.shiftAll_shiftAll m n nodes, shiftAll]

end

/-! ## Events -/

def Event.shift (n : Nat) : Event → Event
  | .leaf found span => .leaf found (span.shift n)
  | .opens head start => .opens head (n + start)
  | .closes stop => .closes (n + stop)

/-- The events that are read `n` bytes further down, or the fault there. -/
def Event.shiftRead (n : Nat) : Except Fault (List Event) → Except Fault (List Event)
  | .ok events => .ok (events.map (Event.shift n))
  | .error fault => .error (fault.shift n)

theorem Event.shiftRead_map_cons (n : Nat) (event : Event) (read : Except Fault (List Event)) :
    shiftRead n (read.map (event :: ·)) = (shiftRead n read).map (event.shift n :: ·) := by
  cases read <;> rfl

theorem Event.read_shift (n : Nat) (opened : List Nat) (place : Nat) (text : List Char) :
    Event.read (opened.map (n + ·)) (n + place) text =
      shiftRead n (Event.read opened place text) := by
  fun_induction Event.read opened place text with
  | case1 opened place text fault hgap =>
    rw [Event.read_of_error (by simpa using hgap)]
    simp [shiftRead]
  | case2 place text blank _ hgap => exact Event.read_of_end hgap _
  | case3 place text blank brace outer _ hgap => exact Event.read_of_unclosed hgap _
  | case4 place text blank rest start _ hgap =>
    refine (Event.read_of_stray hgap _).trans ?_
    simp [shiftRead, Fault.shift, start, Nat.add_assoc]
  | case5 place text blank rest start brace outer _ hgap ih =>
    refine (Event.read_of_closing hgap _).trans ?_
    rw [shiftRead_map_cons, ← ih]
    simp [Event.shift, start, Nat.add_assoc]
  | case6 opened place text blank rest start hgap _ ih =>
    rw [Event.read_of_semicolon (by simpa using hgap), ← ih]
    simp [start, Nat.add_assoc]
  | case7 opened place text blank c rest hgap start hbrace hsemicolon fault hitem =>
    rw [Event.read_of_item_error (by simpa using hgap) hbrace hsemicolon (by simpa using hitem)]
    simp [shiftRead, start, Nat.add_assoc]
  | case8 opened place text blank c rest hgap start hbrace hsemicolon scanned behind hitem ih =>
    rw [Event.read_of_item (by simpa using hgap) hbrace hsemicolon (by simpa using hitem), ← ih]
    simp [Event.behind, start, Nat.add_assoc]
  | case9 opened place text blank c rest hgap start hbrace hsemicolon found scanned behind hitem
      stop ih =>
    rw [Event.read_of_item (by simpa using hgap) hbrace hsemicolon (by simpa using hitem),
      shiftRead_map_cons, ← ih]
    simp [Event.behind, Event.shift, Span.shift, stop, start, Nat.add_assoc]
  | case10 opened place text blank c rest hgap start hbrace hsemicolon head scanned behind hitem
      brace ih =>
    rw [Event.read_of_item (by simpa using hgap) hbrace hsemicolon (by simpa using hitem),
      shiftRead_map_cons, ← ih]
    simp [Event.behind, Event.shift, brace, start, Nat.add_assoc]

/-! ## Trees -/

def Following.shift (n : Nat) (following : Following) : Following :=
  ⟨Node.shiftAll n following.siblings,
    following.outer.map fun level => (n + level.1, Node.shiftAll n level.2)⟩

theorem Event.before_shift (n : Nat) (event : Event) (following : Following) :
    (event.shift n).before (following.shift n) = (event.before following).shift n := by
  obtain ⟨siblings, outer⟩ := following
  cases event with
  | leaf found span => cases found <;> rfl
  | closes stop => rfl
  | opens head start =>
    cases head <;> cases outer <;> rfl

theorem Event.assemble_shift (n : Nat) (events : List Event) :
    assemble (events.map (Event.shift n)) = Node.shiftAll n (assemble events) := by
  have hfold : (events.map (Event.shift n)).foldr Event.before ⟨[], []⟩ =
      (events.foldr Event.before ⟨[], []⟩).shift n := by
    induction events with
    | nil => rfl
    | cons event events ih =>
      rw [List.map_cons, List.foldr_cons, ih, before_shift, List.foldr_cons]
  rw [assemble, hfold]
  rfl

/-! ## Visits -/

def Visit.shift (n : Nat) (visit : Visit) : Visit :=
  { visit with declaration := visit.declaration.shift n }

mutual

theorem Node.visits_shift (n : Nat) (context : Context) (node : Node) :
    (node.shift n).visits context = (node.visits context).map (Visit.shift n) := by
  cases node with
  | declaration found => rfl
  | statement name prelude span => rfl
  | block head body span => exact Node.visitsAll_shift n (context.enter head) body

theorem Node.visitsAll_shift (n : Nat) (context : Context) (nodes : List Node) :
    visitsAll context (shiftAll n nodes) = (visitsAll context nodes).map (Visit.shift n) := by
  cases nodes with
  | nil => rfl
  | cons node nodes =>
    rw [shiftAll, visitsAll, visitsAll, List.map_append, Node.visits_shift n context node,
      Node.visitsAll_shift n context nodes]

end

end WebFonts.Css
