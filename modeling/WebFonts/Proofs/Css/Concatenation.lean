import WebFonts.Proofs.Css.Composition

/-! # Stylesheets that end in a block

A block that ends where its source does is the last thing that was read. Whatever is put behind it,
stylesheet or not, is read as if it stood alone. -/

namespace WebFonts.Css

open Text

/-! ## The end of the last block -/

/-- The last rule of a stylesheet is a block that ends where the source does. -/
def Stylesheet.EndsInBlock (sheet : Stylesheet) (source : List Char) : Prop :=
  ∃ head body span, sheet.rules.getLast? = some (.block head body span) ∧
    span.stop = utf8Width source

/-- The ends of all blocks among nodes are told by events. -/
def EndsRead (events : List Event) (nodes : List Node) : Prop :=
  ∀ head body span, .block head body span ∈ nodes → .closes span.stop ∈ events

theorem EndsRead.mono {events more : List Event} {nodes : List Node} (h : EndsRead events nodes)
    (hsubset : events ⊆ more) : EndsRead more nodes :=
  fun head body span hmem => hsubset (h head body span hmem)

theorem EndsRead.cons_leaf {events : List Event} {nodes : List Node} (h : EndsRead events nodes)
    (found : Leaf) (span : Span) : EndsRead events (found.toNode span :: nodes) := by
  intro head body span' hmem
  rcases List.mem_cons.mp hmem with he | hmem
  · cases found <;> contradiction
  · exact h head body span' hmem

theorem EndsRead.cons_block {events : List Event} {nodes : List Node} (h : EndsRead events nodes)
    (head : Head) (body : List Node) {start stop : Nat} (hstop : .closes stop ∈ events) :
    EndsRead events (.block head body ⟨start, stop⟩ :: nodes) := by
  intro head' body' span' hmem
  rcases List.mem_cons.mp hmem with he | hmem
  · obtain ⟨-, -, rfl⟩ := Node.block.inj he
    exact hstop
  · exact h head' body' span' hmem

theorem endsRead_following (events : List Event) :
    EndsRead events (Event.following events).siblings ∧
      ∀ level ∈ (Event.following events).outer,
        .closes level.1 ∈ events ∧ EndsRead events level.2 := by
  induction events with
  | nil => simp [Event.following, EndsRead]
  | cons event events ih =>
    have hmore : events ⊆ event :: events := List.subset_cons_self event events
    have hsiblings := ih.1.mono hmore
    have houter : ∀ level ∈ (Event.following events).outer,
        .closes level.1 ∈ event :: events ∧ EndsRead (event :: events) level.2 := by
      intro level hlevel
      obtain ⟨hstop, hlevel⟩ := ih.2 level hlevel
      exact ⟨hmore hstop, hlevel.mono hmore⟩
    rw [Event.following, List.foldr_cons, ← Event.following]
    generalize Event.following events = following at hsiblings houter ⊢
    obtain ⟨siblings, outer⟩ := following
    cases event with
    | leaf found span => exact ⟨hsiblings.cons_leaf found span, houter⟩
    | closes stop =>
      refine ⟨by simp [Event.before, EndsRead], ?_⟩
      intro level hlevel
      rcases List.mem_cons.mp hlevel with rfl | hlevel
      · exact ⟨List.mem_cons_self, hsiblings⟩
      · exact houter level hlevel
    | opens head start =>
      cases outer with
      | nil => cases head <;> exact ⟨hsiblings, houter⟩
      | cons level outer =>
        obtain ⟨hstop, hlevel⟩ := houter level List.mem_cons_self
        have hrest := fun other hother => houter other (List.mem_cons_of_mem level hother)
        cases head with
        | none => exact ⟨hlevel, hrest⟩
        | some head => exact ⟨hlevel.cons_block head siblings hstop, hrest⟩

theorem EndsInBrace.append_left {text : List Char} (h : EndsInBrace text) (front : List Char) :
    EndsInBrace (front ++ text) := by
  rw [EndsInBrace, List.getLast?_append, h, Option.some_or]

/-- If a block ends where the text does, its end is the last event, and the text ends in a brace. -/
theorem Derivation.getLast?_of_mem {opened : List Nat} {place : Nat} {text : List Char}
    {events : List Event} (h : Derivation opened place text events)
    (hmem : .closes (place + utf8Width text) ∈ events) :
    events.getLast? = some (.closes (place + utf8Width text)) ∧ EndsInBrace text := by
  induction h with
  | finish => contradiction
  | @closing place brace outer text blank rest events hgap hrest ih =>
    have hsplits := gap_splits false text _ _ hgap
    rw [place_behind_sign hgap rfl] at hmem ⊢
    by_cases hnil : rest = []
    · subst hnil
      obtain ⟨rfl, rfl⟩ := hrest.of_nil
      refine ⟨rfl, ?_⟩
      rw [← hsplits, EndsInBrace, List.getLast?_append]
      rfl
    · have hwidth : utf8Width rest ≠ 0 := fun hzero => hnil (utf8Width_eq_zero_iff.mp hzero)
      have hlater : .closes (place + utf8Width blank + 1 + utf8Width rest) ∈ events := by
        rcases List.mem_cons.mp hmem with he | hmem
        · have hstop := Event.closes.inj he
          omega
        · exact hmem
      obtain ⟨hlast, hbrace⟩ := ih hlater
      constructor
      · rw [List.getLast?_cons, hlast, Option.getD_some]
      · rw [← hsplits, List.append_cons]
        exact hbrace.append_left _
  | @semicolon place opened text blank rest events hgap hrest ih =>
    rw [place_behind_sign hgap rfl] at hmem ⊢
    obtain ⟨hlast, hbrace⟩ := ih hmem
    refine ⟨hlast, ?_⟩
    rw [← gap_splits _ _ _ _ hgap, List.append_cons]
    exact hbrace.append_left _
  | @dropped place opened text blank rest scanned behind c events hgap hopen hsemicolon hitem
      hrest ih =>
    have hsplits : c :: rest = scanned ++ behind := Item.read_splits hitem
    rw [place_behind_whole hgap hitem] at hmem ⊢
    obtain ⟨hlast, hbrace⟩ := ih hmem
    refine ⟨hlast, ?_⟩
    rw [← gap_splits _ _ _ _ hgap, hsplits]
    exact (hbrace.append_left _).append_left _
  | @leaf place opened text blank rest scanned behind c found events hgap hopen hsemicolon hitem
      hrest ih =>
    have hsplits : c :: rest = scanned ++ behind := Item.read_splits hitem
    rw [place_behind_whole hgap hitem] at hmem ⊢
    obtain ⟨hlast, hbrace⟩ := ih (by simpa using hmem)
    constructor
    · rw [List.getLast?_cons, hlast, Option.getD_some]
    · rw [← gap_splits _ _ _ _ hgap, hsplits]
      exact (hbrace.append_left _).append_left _
  | @opening place opened text blank rest scanned behind c head events hgap hopen hsemicolon
      hitem hrest ih =>
    have hsplits : c :: rest = scanned ++ '{' :: behind := Item.read_splits hitem
    rw [place_behind_opening hgap hitem] at hmem ⊢
    obtain ⟨hlast, hbrace⟩ := ih (by simpa using hmem)
    constructor
    · rw [List.getLast?_cons, hlast, Option.getD_some]
    · rw [← gap_splits _ _ _ _ hgap, hsplits, List.append_cons]
      exact (hbrace.append_left _).append_left _

/-! ## What follows the last block -/

/-- Behind the last block of a text, reading starts over, with all places moved. -/
theorem read_append_of_endsInBlock {text : List Char} {events : List Event}
    (h : Derivation [] 0 text events)
    (hend : Stylesheet.EndsInBlock ⟨Event.assemble events⟩ text) (more : List Char) :
    Event.read [] 0 (text ++ more) =
      (Event.shiftRead (utf8Width text) (Event.read [] 0 more)).map (events ++ ·) := by
  obtain ⟨head, body, span, hlast, hstop⟩ := hend
  have hclose : .closes (0 + utf8Width text) ∈ events := by
    rw [Nat.zero_add, ← hstop]
    exact (endsRead_following events).1 head body span (List.mem_of_getLast? hlast)
  obtain ⟨hlast, hbrace⟩ := h.getLast?_of_mem hclose
  have hshift := Event.read_shift (utf8Width text) [] 0 more
  rw [h.read_append hbrace hlast more, ← hshift, Nat.zero_add]
  rfl

/-- Where a text ends in a block, what follows is read as if it stood alone: a stylesheet adds its
rules with their spans moved, and a text that is none gives the same fault further down. -/
theorem parse_append_of_endsInBlock {text : List Char} {sheet : Stylesheet}
    (h : Stylesheet.parse text = .ok sheet) (hend : sheet.EndsInBlock text) (more : List Char) :
    (∀ sheet', Stylesheet.parse more = .ok sheet' →
      Stylesheet.parse (text ++ more) =
        .ok ⟨sheet.rules ++ Node.shiftAll (utf8Width text) sheet'.rules⟩) ∧
    ∀ e, Stylesheet.parse more = .error e →
      ∃ e', Stylesheet.parse (text ++ more) = .error e' ∧ e'.cause = e.cause ∧
        e'.offset = utf8Width text + e.offset := by
  rcases parse_eq_ok_iff.mp h with ⟨events, hevents, rfl⟩
  have hread := read_append_of_endsInBlock hevents hend more
  constructor
  · intro sheet' hmore
    rcases parse_eq_ok_iff.mp hmore with ⟨events', hevents', rfl⟩
    rw [hevents'.execution] at hread
    simp only [Stylesheet.parse, hread, Event.shiftRead, Except.map,
      assemble_append hevents.balanced, Event.assemble_shift]
  · intro e hmore
    cases hfault : Event.read [] 0 more with
    | ok events' => simp [Stylesheet.parse, hfault] at hmore
    | error fault =>
      simp only [Stylesheet.parse, hfault, Except.error.injEq] at hmore
      subst hmore
      rw [hfault] at hread
      refine ⟨(fault.shift (utf8Width text)).locate (text ++ more), ?_, rfl, rfl⟩
      simp only [Stylesheet.parse, hread, Event.shiftRead, Except.map]

def closedText : List Char := "@media x\x7ba\x7bb:c;*d\\\x7d\x7d\x7d".toList

def closedSheet : Stylesheet :=
  ⟨[.block (.atRule "media" "x") [.block (.qualified "a")
      [.declaration ⟨"b", .tokens [.identifier "c"], false, ⟨11, 15⟩⟩] ⟨9, 20⟩] ⟨0, 21⟩]⟩

theorem parse_closedText : Stylesheet.parse closedText = .ok closedSheet :=
  parse_of_events (by decide +kernel : _ = some [.opens (some (.atRule "media" "x")) 0,
    .opens (some (.qualified "a")) 9,
    .leaf (.declaration "b" (.tokens [.identifier "c"]) false) ⟨11, 15⟩, .closes 20, .closes 21])

/-- Behind an escaped brace and two that close blocks, a rule is added or a fault moved. -/
theorem parse_append_closedText :
    Stylesheet.parse closedText = .ok closedSheet ∧ closedSheet.EndsInBlock closedText ∧
      Stylesheet.parse (closedText ++ "-->é\x7b\x7d".toList) =
        .ok ⟨closedSheet.rules ++ [.block (.qualified "é") [] ⟨24, 28⟩]⟩ ∧
      ∃ e, Stylesheet.parse (closedText ++ " é'".toList) = .error e ∧
        e.cause = .unterminatedString ∧ e.offset = 25 := by
  have hend : closedSheet.EndsInBlock closedText := ⟨_, _, _, rfl, by decide⟩
  have hrule : Stylesheet.parse "-->é\x7b\x7d".toList = .ok ⟨[.block (.qualified "é") [] ⟨3, 7⟩]⟩ :=
    parse_of_events (by decide +kernel : _ = some [.opens (some (.qualified "é")) 3, .closes 7])
  have hfault : Stylesheet.parse " é'".toList =
      .error (Fault.locate " é'".toList ⟨.unterminatedString, 4⟩) :=
    parse_of_fault (by decide +kernel)
  have hmore := parse_append_of_endsInBlock parse_closedText hend
  refine ⟨parse_closedText, hend, (hmore _).1 _ hrule, ?_⟩
  obtain ⟨e, hparse, hcause, hoffset⟩ := (hmore _).2 _ hfault
  exact ⟨e, hparse, hcause, hoffset⟩

end WebFonts.Css
