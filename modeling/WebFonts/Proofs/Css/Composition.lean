import WebFonts.Proofs.Css.Derivation
import WebFonts.Proofs.Css.Shift

/-! # Stylesheets one after another

Where the last block of a text ends at its last character, reading starts over: the rules of what
follows are read as if they stood alone. -/

namespace WebFonts.Css

open Text

/-! ## Balanced events -/

/-- Sequences of events that close a number of blocks which they do not open. -/
inductive Balanced : Nat → List Event → Prop where
  | nil : Balanced 0 []
  | leaf {depth : Nat} {events : List Event} (found : Leaf) (span : Span) :
      Balanced depth events → Balanced depth (.leaf found span :: events)
  | opens {depth : Nat} {events : List Event} (head : Option Head) (start : Nat) :
      Balanced (depth + 1) events → Balanced depth (.opens head start :: events)
  | closes {depth : Nat} {events : List Event} (stop : Nat) :
      Balanced depth events → Balanced (depth + 1) (.closes stop :: events)

theorem Derivation.balanced {opened : List Nat} {place : Nat} {text : List Char}
    {events : List Event} (h : Derivation opened place text events) :
    Balanced opened.length events := by
  induction h with
  | finish => exact .nil
  | closing _ _ _ ih => exact .closes _ ih
  | semicolon _ _ _ ih => exact ih
  | dropped _ _ _ _ _ _ ih => exact ih
  | leaf _ _ _ _ _ _ ih => exact .leaf _ _ ih
  | opening _ _ _ _ _ _ ih => exact .opens _ _ ih

/-- The nodes that follow the start of a sequence of events. -/
def Event.following (events : List Event) : Following := events.foldr Event.before ⟨[], []⟩

theorem Balanced.length_outer {depth : Nat} {events : List Event} (h : Balanced depth events) :
    (Event.following events).outer.length = depth := by
  induction h with
  | nil => rfl
  | leaf found span _ ih => exact ih
  | closes stop _ ih => exact congrArg (· + 1) ih
  | @opens depth events head start _ ih =>
    rw [Event.following, List.foldr_cons, ← Event.following]
    cases houter : (Event.following events).outer with
    | nil => simp [houter] at ih
    | cons level outer =>
      rw [houter, List.length_cons, Nat.add_right_cancel_iff] at ih
      cases head <;> simp [Event.before, houter, ih]

/-- Of the blocks around a place, the outermost is followed by the nodes that follow another
place, and by what follows that. -/
def appendOuter (more : Following) : List (Nat × List Node) → List (Nat × List Node)
  | [] => more.outer
  | [(stop, siblings)] => (stop, siblings ++ more.siblings) :: more.outer
  | level :: outer => level :: appendOuter more outer

/-- Nodes that are followed by other nodes behind all their blocks. -/
def Following.append (following more : Following) : Following :=
  match following.outer with
  | [] => ⟨following.siblings ++ more.siblings, more.outer⟩
  | outer => ⟨following.siblings, appendOuter more outer⟩

/-- Where no block is opened that does not end, an event belongs to the nodes in front. -/
theorem Following.before_append {event : Event} {following : Following}
    (h : ∀ head start, event = .opens head start → following.outer ≠ []) (more : Following) :
    event.before (following.append more) = (event.before following).append more := by
  obtain ⟨siblings, outer⟩ := following
  cases event with
  | leaf found span => cases outer <;> rfl
  | closes stop => cases outer <;> rfl
  | opens head start =>
    cases outer with
    | nil => exact (h head start rfl rfl).elim
    | cons level outer =>
      obtain ⟨stop, nodes⟩ := level
      cases head <;> cases outer <;> rfl

theorem Balanced.foldr_before {depth : Nat} {events : List Event} (h : Balanced depth events)
    (more : Following) :
    events.foldr Event.before more = (Event.following events).append more := by
  induction h with
  | nil => rfl
  | leaf found span _ ih =>
    rw [List.foldr_cons, ih, Following.before_append (by simp)]
    rfl
  | closes stop _ ih =>
    rw [List.foldr_cons, ih, Following.before_append (by simp)]
    rfl
  | @opens depth events head start hevents ih =>
    have houter : ∀ head' start', Event.opens head start = .opens head' start' →
        (Event.following events).outer ≠ [] := by
      intro _ _ _ hnil
      have hlength := hevents.length_outer
      simp [hnil] at hlength
    rw [List.foldr_cons, ih, Following.before_append houter]
    rfl

theorem assemble_append {events : List Event} (h : Balanced 0 events) (more : List Event) :
    Event.assemble (events ++ more) = Event.assemble events ++ Event.assemble more := by
  have houter : (Event.following events).outer = [] :=
    List.length_eq_zero_iff.mp h.length_outer
  rw [Event.assemble, List.foldr_append, h.foldr_before, Following.append, houter]
  rfl

/-! ## Reading on -/

theorem Derivation.of_nil {opened : List Nat} {place : Nat} {events : List Event}
    (h : Derivation opened place [] events) : opened = [] ∧ events = [] := by
  cases h with
  | finish => exact ⟨rfl, rfl⟩
  | closing place he => simp at he
  | semicolon place he => simp at he
  | dropped place he => simp at he
  | leaf place he => simp at he
  | opening place he => simp at he

theorem Derivation.ne_nil {opened : List Nat} {place : Nat} {text : List Char}
    {events : List Event} (h : Derivation opened place text events) (hevents : events ≠ []) :
    text ≠ [] := by
  rintro rfl
  exact hevents h.of_nil.2

theorem utf8Width_eq_zero_iff {text : List Char} : utf8Width text = 0 ↔ text = [] := by
  cases text with
  | nil => simp [utf8Width]
  | cons c text =>
    have hpos := c.utf8Size_pos
    simp only [utf8Width, Nat.add_eq_zero_iff, reduceCtorEq, iff_false, not_and]
    omega

theorem EndsInBrace.of_item {between inBlock : Bool} {text blank rest : List Char} {c : Char}
    {reading : Item.Reading} (hbrace : EndsInBrace text)
    (hgap : gap between text = .ok (blank, c :: rest))
    (hitem : Item.read inBlock (c :: rest) = .ok reading) (hrest : reading.rest ≠ []) :
    EndsInBrace reading.rest := by
  have hsplits := Item.read_splits hitem
  have hbehind := hbrace.of_gap hgap
  obtain ⟨item, scanned, behind⟩ := reading
  cases item with
  | whole leaf =>
    have hsplits : c :: rest = scanned ++ behind := hsplits
    rw [hsplits] at hbehind
    exact hbehind.of_append hrest
  | opening head =>
    have hsplits : c :: rest = scanned ++ '{' :: behind := hsplits
    rw [hsplits] at hbehind
    exact (hbehind.of_append (by simp)).of_cons hrest

theorem map_map {ε α β γ : Type} (f : α → β) (g : β → γ) (read : Except ε α) :
    (read.map f).map g = read.map (g ∘ f) := by
  cases read <;> rfl

/-- An item that leaves something of a text is the same in front of more text. -/
theorem Event.read_item_append {opened : List Nat} {text blank rest : List Char} {c : Char}
    {reading : Item.Reading} (hbrace : EndsInBrace text)
    (hgap : gap opened.isEmpty text = .ok (blank, c :: rest)) (hopen : c ≠ '}')
    (hsemicolon : c ≠ ';') (hitem : Item.read (!opened.isEmpty) (c :: rest) = .ok reading)
    (hrest : reading.rest ≠ []) (place : Nat) (more : List Char) :
    Event.read opened place (text ++ more) =
      Event.behind opened (place + utf8Width blank) (reading.extend more) :=
  Event.read_of_item (gap_append hbrace hgap (by simp) more) hopen hsemicolon
    (Item.read_append (hbrace.of_gap hgap) hitem hrest more) place

theorem place_behind_sign {between : Bool} {text blank rest : List Char} {c : Char}
    (hgap : gap between text = .ok (blank, c :: rest)) (hc : c.utf8Size = 1) (place : Nat) :
    place + utf8Width text = place + utf8Width blank + 1 + utf8Width rest := by
  rw [← gap_splits between text _ _ hgap, utf8Width_append, utf8Width, hc]
  omega

theorem place_behind_whole {between inBlock : Bool} {text blank rest scanned behind : List Char}
    {c : Char} {leaf : Option Leaf} (hgap : gap between text = .ok (blank, c :: rest))
    (hitem : Item.read inBlock (c :: rest) = .ok ⟨.whole leaf, scanned, behind⟩) (place : Nat) :
    place + utf8Width text =
      place + utf8Width blank + utf8Width scanned + utf8Width behind := by
  have hsplits : c :: rest = scanned ++ behind := Item.read_splits hitem
  rw [← gap_splits between text _ _ hgap, utf8Width_append, hsplits, utf8Width_append]
  omega

/-- The characters that open, close and separate take one byte each. -/
theorem utf8Size_marks :
    ('{' : Char).utf8Size = 1 ∧ ('}' : Char).utf8Size = 1 ∧ (';' : Char).utf8Size = 1 :=
  ⟨rfl, rfl, rfl⟩

theorem place_behind_opening {between inBlock : Bool}
    {text blank rest scanned behind : List Char} {c : Char} {head : Option Head}
    (hgap : gap between text = .ok (blank, c :: rest))
    (hitem : Item.read inBlock (c :: rest) = .ok ⟨.opening head, scanned, behind⟩) (place : Nat) :
    place + utf8Width text =
      place + utf8Width blank + utf8Width scanned + 1 + utf8Width behind := by
  have hsplits : c :: rest = scanned ++ '{' :: behind := Item.read_splits hitem
  rw [← gap_splits between text _ _ hgap, utf8Width_append, hsplits, utf8Width_append, utf8Width,
    utf8Size_marks.1]
  omega

/-- Behind a text whose last block ends at its last character, reading starts over. -/
theorem Derivation.read_append {opened : List Nat} {place : Nat} {text : List Char}
    {events : List Event} (h : Derivation opened place text events) (hbrace : EndsInBrace text)
    (hlast : events.getLast? = some (.closes (place + utf8Width text))) (more : List Char) :
    Event.read opened place (text ++ more) =
      (Event.read [] (place + utf8Width text) more).map (events ++ ·) := by
  induction h with
  | finish => contradiction
  | @closing place brace outer text blank rest events hgap hrest ih =>
    rw [place_behind_sign hgap rfl] at hlast ⊢
    rw [Event.read_of_closing (gap_append hbrace hgap (by simp) more)]
    by_cases hevents : events = []
    · subst hevents
      have hplace := Event.closes.inj (Option.some.inj hlast)
      have hnil : rest = [] := utf8Width_eq_zero_iff.mp (by omega)
      subst hnil
      obtain ⟨rfl, -⟩ := hrest.of_nil
      rfl
    · rw [List.getLast?_cons_of_ne_nil hevents] at hlast
      have hbehind := (hbrace.of_gap hgap).of_cons (hrest.ne_nil hevents)
      have hread := ih hbehind hlast
      exact (congrArg _ hread).trans (map_map _ _ _)
  | @semicolon place opened text blank rest events hgap hrest ih =>
    rw [place_behind_sign hgap rfl] at hlast ⊢
    have hevents : events ≠ [] := by
      rintro rfl
      contradiction
    have hbehind := (hbrace.of_gap hgap).of_cons (hrest.ne_nil hevents)
    rw [Event.read_of_semicolon (gap_append hbrace hgap (by simp) more)]
    exact ih hbehind hlast
  | @dropped place opened text blank rest scanned behind c events hgap hopen hsemicolon hitem
      hrest ih =>
    rw [place_behind_whole hgap hitem] at hlast ⊢
    have hevents : events ≠ [] := by
      rintro rfl
      contradiction
    have hbehind := hrest.ne_nil hevents
    rw [Event.read_item_append hbrace hgap hopen hsemicolon hitem hbehind]
    exact ih (hbrace.of_item hgap hitem hbehind) hlast
  | @leaf place opened text blank rest scanned behind c found events hgap hopen hsemicolon hitem
      hrest ih =>
    rw [place_behind_whole hgap hitem] at hlast ⊢
    have hevents : events ≠ [] := by
      rintro rfl
      simp at hlast
    rw [List.getLast?_cons_of_ne_nil hevents] at hlast
    have hbehind := hrest.ne_nil hevents
    rw [Event.read_item_append hbrace hgap hopen hsemicolon hitem hbehind]
    have hread := ih (hbrace.of_item hgap hitem hbehind) hlast
    exact (congrArg _ hread).trans (map_map _ _ _)
  | @opening place opened text blank rest scanned behind c head events hgap hopen hsemicolon
      hitem hrest ih =>
    rw [place_behind_opening hgap hitem] at hlast ⊢
    have hevents : events ≠ [] := by
      rintro rfl
      simp at hlast
    rw [List.getLast?_cons_of_ne_nil hevents] at hlast
    have hbehind := hrest.ne_nil hevents
    rw [Event.read_item_append hbrace hgap hopen hsemicolon hitem hbehind]
    have hread := ih (hbrace.of_item hgap hitem hbehind) hlast
    exact (congrArg _ hread).trans (map_map _ _ _)

/-! ## Closed texts -/

/-- A text that ends in a brace which no backslash escapes. -/
def Closed (text : List Char) : Prop :=
  ∃ front, text = front ++ ['}'] ∧ front.getLast? ≠ some '\\'

theorem Closed.endsInBrace {text : List Char} (h : Closed text) : EndsInBrace text := by
  obtain ⟨front, rfl, -⟩ := h
  simp [EndsInBrace]

theorem Closed.of_append {front rest : List Char} (h : Closed (front ++ rest))
    (hrest : rest ≠ []) : Closed rest := by
  obtain ⟨before, he, hslash⟩ := h
  rcases List.eq_nil_or_concat rest |>.resolve_left hrest with ⟨last, c, rfl⟩
  rw [List.concat_eq_append, ← List.append_assoc] at he
  rcases List.append_inj' he rfl with ⟨rfl, hc⟩
  refine ⟨last, by rw [List.concat_eq_append, hc], ?_⟩
  intro hlast
  rw [List.getLast?_append, hlast] at hslash
  exact hslash rfl

theorem Closed.of_cons {c : Char} {rest : List Char} (h : Closed (c :: rest))
    (hrest : rest ≠ []) : Closed rest :=
  @Closed.of_append [c] rest h hrest

theorem getLast?_of_closeString {quote : Char} {text scanned rest : List Char}
    (h : closeString quote text = .ok (scanned, rest)) : scanned.getLast? = some quote := by
  fun_induction closeString quote text generalizing scanned with
  | case1 => contradiction
  | case2 => contradiction
  | case3 c text ih =>
    rcases Scan.after_eq_ok_iff.mp h with ⟨last, hlast, rfl⟩
    rw [List.getLast?_append, ih hlast]
    rfl
  | case4 =>
    rcases Prod.mk.inj (Except.ok.inj h) with ⟨rfl, -⟩
    rfl
  | case5 => contradiction
  | case6 c text _ _ _ _ ih =>
    rcases Scan.after_eq_ok_iff.mp h with ⟨last, hlast, rfl⟩
    rw [List.getLast?_append, ih hlast]
    rfl

theorem Closed.ne_nil_of_unit {c : Char} {text scanned rest : List Char}
    (hclosed : Closed (c :: text)) (hbrace : c ≠ '}') (h : unit c text = .ok (scanned, rest)) :
    rest ≠ [] := by
  rintro rfl
  have hsplit := unit_splits c text _ _ h
  rw [List.append_nil] at hsplit
  unfold unit at h
  by_cases hquote : isQuote c = true
  · rw [if_pos hquote] at h
    rcases Scan.after_eq_ok_iff.mp h with ⟨last, hlast, rfl⟩
    have hend := hclosed.endsInBrace
    rw [← hsplit, EndsInBrace, List.getLast?_append, getLast?_of_closeString hlast] at hend
    exact hbrace (Option.some.inj hend)
  · rw [if_neg hquote] at h
    by_cases hc : c = '\\'
    · rw [if_pos hc] at h
      rcases Prod.mk.inj (Except.ok.inj h) with ⟨-, hdrop⟩
      have hend := hclosed.endsInBrace
      obtain ⟨front, he, hslash⟩ := hclosed
      cases text with
      | nil => exact hbrace (Option.some.inj hend)
      | cons d text =>
        obtain rfl : text = [] := by simpa using hdrop
        rcases List.append_inj' (show [c] ++ [d] = _ from he) rfl with ⟨rfl, -⟩
        exact hslash (congrArg some hc)
    · rw [if_neg hc] at h
      rcases Prod.mk.inj (Except.ok.inj h) with ⟨-, rfl⟩
      have hend := hclosed.endsInBrace
      exact hbrace (Option.some.inj hend)

theorem Closed.ne_nil_of_piece {c : Char} {text scanned rest : List Char}
    (hclosed : Closed (c :: text)) (hbrace : c ≠ '}') (h : piece c text = .ok (scanned, rest)) :
    rest ≠ [] := by
  unfold piece at h
  split at h
  · rename_i body
    rintro rfl
    have hsplit := comment_splits body _ _ h
    have hend := hclosed.endsInBrace
    rw [List.append_nil] at hsplit
    rw [← hsplit, EndsInBrace, getLast?_of_comment h] at hend
    contradiction
  · exact hclosed.ne_nil_of_unit hbrace h

theorem Closed.of_stretch {closers text scanned rest : List Char} (hclosed : Closed text)
    (h : stretch closers text = .ok (scanned, rest)) : Closed rest := by
  fun_induction stretch closers text generalizing scanned with
  | case1 =>
    rcases Prod.mk.inj (Except.ok.inj h) with ⟨-, rfl⟩
    exact hclosed
  | case2 =>
    rcases Prod.mk.inj (Except.ok.inj h) with ⟨-, rfl⟩
    exact hclosed
  | case3 => contradiction
  | case4 closers c text hends front behind hpiece ih =>
    rcases Scan.after_eq_ok_iff.mp h with ⟨last, hlast, -⟩
    simp only [endsStretch, Bool.or_eq_true, beq_iff_eq, not_or] at hends
    have hbehind := hclosed.ne_nil_of_piece hends.1.2 hpiece
    rw [← piece_splits c text _ _ hpiece] at hclosed
    exact ih (hclosed.of_append hbehind) hlast

theorem Closed.ne_nil_of_ending {last : List Char} (h : Closed last) (leaf : Option Leaf)
    (head : Option Head) (scanned : List Char) :
    (Item.ending leaf head scanned last).rest ≠ [] := by
  have hend := h.endsInBrace
  by_cases hbrace : last.head? = some '{'
  · rcases List.head?_eq_some_iff.mp hbrace with ⟨rest, rfl⟩
    rintro rfl
    simp [EndsInBrace] at hend
  · by_cases hsemicolon : last.head? = some ';'
    · rcases List.head?_eq_some_iff.mp hsemicolon with ⟨rest, rfl⟩
      rintro rfl
      simp [EndsInBrace] at hend
    · rw [Item.ending_of_ne leaf head scanned hbrace hsemicolon]
      exact hend.ne_nil

theorem Closed.ne_nil_of_declaration? {text : List Char} {reading : Item.Reading}
    (hclosed : Closed text) (h : declaration? text = .ok (some reading)) :
    reading.rest ≠ [] := by
  obtain ⟨word, rest, blank, behind, written, last, hword, hgap, hstretch, -, rfl⟩ :=
    exists_colon_of_declaration? h
  have htext : text = (word ++ blank ++ [':']) ++ behind := by
    rw [← (identifier?_split hword).1, ← gap_splits false rest _ _ hgap]
    simp
  rw [htext] at hclosed
  have hbehind : behind ≠ [] := by
    rintro rfl
    have hend := hclosed.endsInBrace
    simp [EndsInBrace] at hend
  exact ((hclosed.of_append hbehind).of_stretch hstretch).ne_nil_of_ending _ _ _

theorem Closed.ne_nil_of_name {text : List Char} (hclosed : Closed text) :
    (name text).2 ≠ [] := by
  fun_induction name text with
  | case1 c text ih =>
    have htext : text ≠ [] := by
      rintro rfl
      obtain ⟨front, he, hslash⟩ := hclosed
      rcases List.append_inj' (show ['\\'] ++ [c] = _ from he) rfl with ⟨rfl, -⟩
      exact hslash rfl
    exact ih ((hclosed.of_cons (by simp)).of_cons htext)
  | case2 c text _ hc ih =>
    have htext : text ≠ [] := by
      rintro rfl
      obtain rfl := Option.some.inj hclosed.endsInBrace
      contradiction
    exact ih (hclosed.of_cons htext)
  | case3 => simp
  | case4 => exact (hclosed.endsInBrace.ne_nil rfl).elim

theorem Closed.ne_nil_of_ruleStart {text : List Char} (hclosed : Closed text) :
    (ruleStart text).rest ≠ [] := by
  unfold ruleStart
  split
  · rename_i behind
    have hbehind : behind ≠ [] := by
      rintro rfl
      have hend := hclosed.endsInBrace
      simp [EndsInBrace] at hend
    have hname := (hclosed.of_cons hbehind).ne_nil_of_name
    split
    · exact hbehind
    · rename_i word rest hword
      rwa [name_of_identifier? hword] at hname
  · exact hclosed.endsInBrace.ne_nil

theorem Closed.ne_nil_of_rule {text : List Char} {reading : Item.Reading}
    (hclosed : Closed text) (h : rule text = .ok reading) : reading.rest ≠ [] := by
  rw [rule_eq] at h
  cases hstretch : stretch [] (ruleStart text).rest with
  | error fault => simp [hstretch] at h
  | ok both =>
    obtain ⟨written, last⟩ := both
    simp only [hstretch, Except.ok.injEq] at h
    subst h
    have hrest := hclosed.ne_nil_of_ruleStart
    rw [← ruleStart_splits text] at hclosed
    exact ((hclosed.of_append hrest).of_stretch hstretch).ne_nil_of_ending _ _ _

theorem Closed.ne_nil_of_item {inBlock : Bool} {text : List Char} {reading : Item.Reading}
    (hclosed : Closed text) (h : Item.read inBlock text = .ok reading) : reading.rest ≠ [] := by
  unfold Item.read at h
  split at h
  · split at h
    · contradiction
    · rename_i found hfound
      obtain rfl := Except.ok.inj h
      exact hclosed.ne_nil_of_declaration? hfound
    · exact hclosed.ne_nil_of_rule h
  · exact hclosed.ne_nil_of_rule h

theorem Closed.of_gap {between : Bool} {text blank rest : List Char} (hclosed : Closed text)
    (h : gap between text = .ok (blank, rest)) : Closed rest := by
  have hrest := (hclosed.endsInBrace.of_gap h).ne_nil
  rw [← gap_splits between text _ _ h] at hclosed
  exact hclosed.of_append hrest

theorem Closed.of_item {inBlock : Bool} {text : List Char} {reading : Item.Reading}
    (hclosed : Closed text) (h : Item.read inBlock text = .ok reading) : Closed reading.rest := by
  have hrest := hclosed.ne_nil_of_item h
  have hsplits := Item.read_splits h
  obtain ⟨item, scanned, behind⟩ := reading
  cases item with
  | whole leaf =>
    have hsplits : text = scanned ++ behind := hsplits
    rw [hsplits] at hclosed
    exact hclosed.of_append hrest
  | opening head =>
    have hsplits : text = scanned ++ '{' :: behind := hsplits
    rw [hsplits, List.append_cons] at hclosed
    exact hclosed.of_append hrest

/-- The last thing that is read of a closed text is the end of a block. -/
theorem Derivation.getLast?_of_closed {opened : List Nat} {place : Nat} {text : List Char}
    {events : List Event} (h : Derivation opened place text events) (hclosed : Closed text) :
    events.getLast? = some (.closes (place + utf8Width text)) := by
  induction h with
  | finish place hgap =>
    have hend := hclosed.endsInBrace.of_gap hgap
    exact (hend.ne_nil rfl).elim
  | @closing place brace outer text blank rest events hgap hrest ih =>
    rw [place_behind_sign hgap rfl]
    by_cases hnil : rest = []
    · subst hnil
      obtain ⟨rfl, rfl⟩ := hrest.of_nil
      rfl
    · have hlast := ih ((hclosed.of_gap hgap).of_cons hnil)
      rw [List.getLast?_cons, hlast, Option.getD_some]
  | @semicolon place opened text blank rest events hgap hrest ih =>
    rw [place_behind_sign hgap rfl]
    have hnil : rest ≠ [] := by
      rintro rfl
      have hend := (hclosed.of_gap hgap).endsInBrace
      simp [EndsInBrace] at hend
    exact ih ((hclosed.of_gap hgap).of_cons hnil)
  | dropped place hgap hopen hsemicolon hitem hrest ih =>
    rw [place_behind_whole hgap hitem]
    exact ih ((hclosed.of_gap hgap).of_item hitem)
  | leaf place hgap hopen hsemicolon hitem hrest ih =>
    have hlast := ih ((hclosed.of_gap hgap).of_item hitem)
    rw [place_behind_whole hgap hitem, List.getLast?_cons, hlast, Option.getD_some]
  | opening place hgap hopen hsemicolon hitem hrest ih =>
    have hlast := ih ((hclosed.of_gap hgap).of_item hitem)
    rw [place_behind_opening hgap hitem, List.getLast?_cons, hlast, Option.getD_some]

/-! ## Parsing on -/

/-- White space in front of a text only moves it. -/
theorem Event.read_of_blank {opened : List Nat} (front : List Char) {text : List Char}
    (h : gap opened.isEmpty (front ++ text) = (gap opened.isEmpty text).after front)
    (place : Nat) :
    Event.read opened place (front ++ text) = Event.read opened (place + utf8Width front) text := by
  cases hgap : gap opened.isEmpty text with
  | error fault =>
    rw [hgap] at h
    rw [Event.read_of_error h, Event.read_of_error hgap, Fault.shift_shift]
  | ok both =>
    obtain ⟨blank, rest⟩ := both
    rw [hgap] at h
    have hplace : place + utf8Width (front ++ blank) =
        place + utf8Width front + utf8Width blank := by
      rw [utf8Width_append, Nat.add_assoc]
    cases rest with
    | nil =>
      cases opened with
      | nil => rw [Event.read_of_end h, Event.read_of_end hgap]
      | cons brace outer => rw [Event.read_of_unclosed h, Event.read_of_unclosed hgap]
    | cons c rest =>
      by_cases hbrace : c = '}'
      · subst hbrace
        cases opened with
        | nil => rw [Event.read_of_stray h, Event.read_of_stray hgap, hplace]
        | cons brace outer => rw [Event.read_of_closing h, Event.read_of_closing hgap, hplace]
      · by_cases hsemicolon : c = ';'
        · subst hsemicolon
          rw [Event.read_of_semicolon h, Event.read_of_semicolon hgap, hplace]
        · cases hitem : Item.read (!opened.isEmpty) (c :: rest) with
          | error fault =>
            rw [Event.read_of_item_error h hbrace hsemicolon hitem,
              Event.read_of_item_error hgap hbrace hsemicolon hitem, hplace]
          | ok reading =>
            rw [Event.read_of_item h hbrace hsemicolon hitem,
              Event.read_of_item hgap hbrace hsemicolon hitem, hplace]

theorem parse_eq_ok_iff {text : List Char} {sheet : Stylesheet} :
    Stylesheet.parse text = .ok sheet ↔
      ∃ events, Derivation [] 0 text events ∧ sheet = ⟨Event.assemble events⟩ := by
  constructor
  · intro h
    cases hread : Event.read [] 0 text with
    | error fault => simp [Stylesheet.parse, hread] at h
    | ok events =>
      refine ⟨events, derivation_iff.mpr hread, ?_⟩
      simp only [Stylesheet.parse, hread, Except.ok.injEq] at h
      exact h.symm
  · rintro ⟨events, hevents, rfl⟩
    simp [Stylesheet.parse, hevents.execution]

theorem eq_ok_of_toOption {ε α : Type} {read : Except ε α} {found : α}
    (h : read.toOption = some found) : read = .ok found := by
  cases read with
  | error fault => contradiction
  | ok value => exact congrArg Except.ok (Option.some.inj h)

/-- What was read of a fixed text is told by its events or by its fault. -/
theorem parse_of_events {text : List Char} {events : List Event}
    (h : (Event.read [] 0 text).toOption = some events) :
    Stylesheet.parse text = .ok ⟨Event.assemble events⟩ := by
  rw [Stylesheet.parse, eq_ok_of_toOption h]

theorem parse_of_fault {text : List Char} {fault : Fault}
    (h : (match Event.read [] 0 text with
      | .error found => some found
      | .ok _ => none) = some fault) :
    Stylesheet.parse text = .error (fault.locate text) := by
  cases hread : Event.read [] 0 text with
  | error found =>
    rw [hread] at h
    obtain rfl := Option.some.inj h
    rw [Stylesheet.parse, hread]
  | ok events => simp [hread] at h

/-- Behind a closed text and a line feed, a stylesheet is read as if it stood alone. -/
theorem parse_closed_append {text more : List Char} {sheet sheet' : Stylesheet}
    (hclosed : Closed text) (h : Stylesheet.parse text = .ok sheet)
    (h' : Stylesheet.parse more = .ok sheet') :
    Stylesheet.parse (text ++ '\n' :: more) =
      .ok ⟨sheet.rules ++ Node.shiftAll (utf8Width text + 1) sheet'.rules⟩ := by
  rcases parse_eq_ok_iff.mp h with ⟨events, hevents, rfl⟩
  rcases parse_eq_ok_iff.mp h' with ⟨events', hevents', rfl⟩
  have hlast := hevents.getLast?_of_closed hclosed
  have hmore : Event.read [] (0 + utf8Width text) ('\n' :: more) =
      .ok (events'.map (Event.shift (utf8Width text + 1))) := by
    have hblank := @Event.read_of_blank [] ['\n'] more (gap_of_some rfl) (0 + utf8Width text)
    have hshift := Event.read_shift (utf8Width text + 1) [] 0 more
    rw [hevents'.execution] at hshift
    rw [List.singleton_append] at hblank
    rw [hblank, Nat.zero_add]
    exact hshift
  have hread := hevents.read_append hclosed.endsInBrace hlast ('\n' :: more)
  rw [hmore] at hread
  simp only [Stylesheet.parse, hread, Except.map, assemble_append hevents.balanced,
    Event.assemble_shift]

end WebFonts.Css
