import WebFonts.Proofs.Css.Composition

/-! # Passages of a stylesheet

A passage goes from one place of a text to another, inside of one block or between the rules of the
sheet. Its nodes are what was read there, each block with a passage of its own. A stylesheet is a
passage to the end of its source. -/

namespace WebFonts.Css

open Text

/-- The node of an item without a block, unless it is dropped. -/
def leafNodes (leaf : Option Leaf) (span : Span) : List Node :=
  leaf.toList.map (·.toNode span)

/-- The node of a block, unless it is dropped. -/
def blockNodes (head : Option Head) (body : List Node) (span : Span) : List Node :=
  head.toList.map (.block · body span)

/-- Reading from a place on, with the text that follows it, gives nodes and comes to another place,
with the text that follows that. -/
inductive Passage : Bool → Nat → List Char → List Node → Nat → List Char → Prop where
  | nil (inBlock : Bool) (place : Nat) (text : List Char) :
      Passage inBlock place text [] place text
  | semicolon {inBlock : Bool} {place stop : Nat} {text blank rest last : List Char}
      {nodes : List Node} (hgap : gap (!inBlock) text = .ok (blank, ';' :: rest)) :
      Passage inBlock (place + utf8Width blank + 1) rest nodes stop last →
      Passage inBlock place text nodes stop last
  | whole {inBlock : Bool} {place stop : Nat} {text blank rest scanned behind last : List Char}
      {c : Char} {leaf : Option Leaf} {nodes : List Node}
      (hgap : gap (!inBlock) text = .ok (blank, c :: rest)) (hbrace : c ≠ '}')
      (hsemicolon : c ≠ ';')
      (hitem : Item.read inBlock (c :: rest) = .ok ⟨.whole leaf, scanned, behind⟩) :
      Passage inBlock (place + utf8Width blank + utf8Width scanned) behind nodes stop last →
      Passage inBlock place text
        (leafNodes leaf ⟨place + utf8Width blank,
          place + utf8Width blank + utf8Width scanned⟩ ++ nodes) stop last
  | block {inBlock : Bool} {place inner stop : Nat}
      {text blank rest scanned behind middle blank' rest' last : List Char} {c : Char}
      {head : Option Head} {body nodes : List Node}
      (hgap : gap (!inBlock) text = .ok (blank, c :: rest)) (hbrace : c ≠ '}')
      (hsemicolon : c ≠ ';')
      (hitem : Item.read inBlock (c :: rest) = .ok ⟨.opening head, scanned, behind⟩) :
      Passage true (place + utf8Width blank + utf8Width scanned + 1) behind body inner middle →
      gap false middle = .ok (blank', '}' :: rest') →
      Passage inBlock (inner + utf8Width blank' + 1) rest' nodes stop last →
      Passage inBlock place text
        (blockNodes head body ⟨place + utf8Width blank, inner + utf8Width blank' + 1⟩ ++ nodes)
        stop last

/-! ## From events to passages -/

/-- What follows a place was read in passages: one to the end of the innermost block around the
place, or of the text, and one behind each block that ends. -/
def Follows : List Nat → Nat → List Char → Following → Prop
  | [], place, text, following =>
    following.outer = [] ∧ ∃ stop last blank,
      Passage false place text following.siblings stop last ∧ gap true last = .ok (blank, [])
  | _ :: opened, place, text, following =>
    ∃ inner middle blank rest siblings outer,
      Passage true place text following.siblings inner middle ∧
      gap false middle = .ok (blank, '}' :: rest) ∧
      following.outer = (inner + utf8Width blank + 1, siblings) :: outer ∧
      Follows opened (inner + utf8Width blank + 1) rest ⟨siblings, outer⟩

/-- A step in front of a passage is a step in front of what follows. -/
theorem Follows.step {opened : List Nat} {place next : Nat} {text rest : List Char}
    {following : Following} (h : Follows opened next rest following) (front : List Node)
    (hstep : ∀ nodes stop last, Passage (!opened.isEmpty) next rest nodes stop last →
      Passage (!opened.isEmpty) place text (front ++ nodes) stop last) :
    Follows opened place text { following with siblings := front ++ following.siblings } := by
  cases opened with
  | nil =>
    obtain ⟨houter, stop, last, blank, hpassage, hgap⟩ := h
    exact ⟨houter, stop, last, blank, hstep _ _ _ hpassage, hgap⟩
  | cons brace opened =>
    obtain ⟨inner, middle, blank, rest, siblings, outer, hpassage, hgap, houter, hrest⟩ := h
    exact ⟨inner, middle, blank, rest, siblings, outer, hstep _ _ _ hpassage, hgap, houter, hrest⟩

theorem Derivation.follows {opened : List Nat} {place : Nat} {text : List Char}
    {events : List Event} (h : Derivation opened place text events) :
    Follows opened place text (Event.following events) := by
  induction h with
  | finish place hgap => exact ⟨rfl, place, _, _, .nil false place _, hgap⟩
  | closing place hgap _ ih =>
    exact ⟨place, _, _, _, _, _, .nil true place _, hgap, rfl, ih⟩
  | semicolon place hgap _ ih =>
    apply ih.step []
    intro nodes stop last hrest
    exact .semicolon (by simpa using hgap) hrest
  | dropped place hgap hbrace hsemicolon hitem _ ih =>
    apply ih.step []
    intro nodes stop last hrest
    exact .whole (by simpa using hgap) hbrace hsemicolon hitem hrest
  | @leaf place opened text blank rest scanned behind c found events hgap hbrace hsemicolon hitem
      _ ih =>
    apply ih.step [found.toNode _]
    intro nodes stop last hrest
    exact .whole (by simpa using hgap) hbrace hsemicolon hitem hrest
  | @opening place opened text blank rest scanned behind c head events hgap hbrace hsemicolon hitem
      _ ih =>
    obtain ⟨inner, middle, blank', rest', siblings, outer, hbody, hclose, houter, hrest⟩ := ih
    have hfollowing : Event.following (.opens head (place + utf8Width blank) :: events) =
        ⟨blockNodes head (Event.following events).siblings
          ⟨place + utf8Width blank, inner + utf8Width blank' + 1⟩ ++ siblings, outer⟩ := by
      rw [Event.following, List.foldr_cons, ← Event.following]
      cases head <;> simp [Event.before, houter, blockNodes]
    rw [hfollowing]
    apply hrest.step
    intro nodes stop last hlast
    exact .block (by simpa using hgap) hbrace hsemicolon hitem hbody hclose hlast

/-! ## From passages to events -/

/-- Events in front of others that add nodes to these. -/
def Adds (events : List Event) (nodes : List Node) : Prop :=
  ∀ following : Following, events.foldr Event.before following =
    { following with siblings := nodes ++ following.siblings }

theorem Adds.leaf {events : List Event} {nodes : List Node} (h : Adds events nodes)
    (found : Leaf) (span : Span) :
    Adds (.leaf found span :: events) (found.toNode span :: nodes) := by
  intro following
  rw [List.foldr_cons, h]
  rfl

theorem Adds.block {events events' : List Event} {body nodes : List Node} (h : Adds events body)
    (h' : Adds events' nodes) (head : Option Head) (start stop : Nat) :
    Adds (.opens head start :: (events ++ .closes stop :: events'))
      (blockNodes head body ⟨start, stop⟩ ++ nodes) := by
  intro following
  rw [List.foldr_cons, List.foldr_append, List.foldr_cons, h', h]
  cases head <;> simp [Event.before, blockNodes]

/-- A passage in front of a text that was read. -/
theorem Passage.derivation {inBlock : Bool} {place stop : Nat} {text last : List Char}
    {nodes : List Node} (h : Passage inBlock place text nodes stop last) :
    ∃ events, Adds events nodes ∧ ∀ opened : List Nat, opened.isEmpty = !inBlock →
      ∀ more, Derivation opened stop last more → Derivation opened place text (events ++ more) := by
  induction h with
  | nil inBlock place text => exact ⟨[], fun following => rfl, fun opened _ more hmore => hmore⟩
  | semicolon hgap _ ih =>
    obtain ⟨events, hadds, hread⟩ := ih
    refine ⟨events, hadds, ?_⟩
    intro opened hopened more hmore
    exact .semicolon _ (by rwa [hopened]) (hread opened hopened more hmore)
  | @whole inBlock place stop text blank rest scanned behind last c leaf nodes hgap hbrace
      hsemicolon hitem _ ih =>
    obtain ⟨events, hadds, hread⟩ := ih
    cases leaf with
    | none =>
      refine ⟨events, hadds, ?_⟩
      intro opened hopened more hmore
      exact .dropped _ (by rwa [hopened]) hbrace hsemicolon
        (by rwa [hopened, Bool.not_not]) (hread opened hopened more hmore)
    | some found =>
      refine ⟨_, hadds.leaf found _, ?_⟩
      intro opened hopened more hmore
      exact .leaf _ (by rwa [hopened]) hbrace hsemicolon
        (by rwa [hopened, Bool.not_not]) (hread opened hopened more hmore)
  | @block inBlock place inner stop text blank rest scanned behind middle blank' rest' last c head
      body nodes hgap hbrace hsemicolon hitem _ hclose _ ih ih' =>
    obtain ⟨events, hadds, hread⟩ := ih
    obtain ⟨events', hadds', hread'⟩ := ih'
    refine ⟨_, hadds.block hadds' head _ _, ?_⟩
    intro opened hopened more hmore
    have hclosing := hread ((place + utf8Width blank + utf8Width scanned) :: opened) rfl _
      (.closing inner hclose (hread' opened hopened more hmore))
    have hopening := Derivation.opening place (by rwa [hopened]) hbrace hsemicolon
      (by rwa [hopened, Bool.not_not]) hclosing
    simpa using hopening

/-- A stylesheet is a passage from the start of its source to the end. -/
theorem parse_iff_passage {source : List Char} {sheet : Stylesheet} :
    Stylesheet.parse source = .ok sheet ↔
      ∃ stop last blank, Passage false 0 source sheet.rules stop last ∧
        gap true last = .ok (blank, []) := by
  rw [parse_eq_ok_iff]
  constructor
  · rintro ⟨events, hevents, rfl⟩
    obtain ⟨-, hpassage⟩ := hevents.follows
    exact hpassage
  · rintro ⟨stop, last, blank, hpassage, hgap⟩
    obtain ⟨events, hadds, hread⟩ := hpassage.derivation
    have hevents := hread [] rfl [] (.finish stop hgap)
    rw [List.append_nil] at hevents
    refine ⟨events, hevents, ?_⟩
    rw [Event.assemble, hadds ⟨[], []⟩, List.append_nil]

/-! ## The text of a passage -/

/-- The text of a passage lies between its places. -/
theorem Passage.exists_text {inBlock : Bool} {place stop : Nat} {text last : List Char}
    {nodes : List Node} (h : Passage inBlock place text nodes stop last) :
    ∃ run, text = run ++ last ∧ stop = place + utf8Width run := by
  induction h with
  | nil => exact ⟨[], rfl, rfl⟩
  | @semicolon inBlock place stop text blank rest last nodes hgap _ ih =>
    obtain ⟨run, rfl, rfl⟩ := ih
    refine ⟨blank ++ ';' :: run, ?_, ?_⟩
    · simp [← gap_splits _ _ _ _ hgap]
    · simp only [utf8Width_append, utf8Width, utf8Size_marks]
      omega
  | @whole inBlock place stop text blank rest scanned behind last c leaf nodes hgap _ _ hitem _
      ih =>
    obtain ⟨run, rfl, rfl⟩ := ih
    have hsplits : c :: rest = scanned ++ (run ++ last) := Item.read_splits hitem
    refine ⟨blank ++ scanned ++ run, ?_, ?_⟩
    · simp [← gap_splits _ _ _ _ hgap, hsplits]
    · simp only [utf8Width_append]
      omega
  | @block inBlock place inner stop text blank rest scanned behind middle blank' rest' last c head
      body nodes hgap _ _ hitem _ hclose _ ih ih' =>
    obtain ⟨run, rfl, rfl⟩ := ih
    obtain ⟨run', rfl, rfl⟩ := ih'
    have hsplits : c :: rest = scanned ++ '{' :: (run ++ middle) := Item.read_splits hitem
    refine ⟨blank ++ scanned ++ '{' :: (run ++ blank' ++ '}' :: run'), ?_, ?_⟩
    · simp [← gap_splits _ _ _ _ hgap, hsplits, ← gap_splits _ _ _ _ hclose]
    · simp only [utf8Width_append, utf8Width, utf8Size_marks]
      omega

end WebFonts.Css
