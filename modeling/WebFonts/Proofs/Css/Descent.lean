import WebFonts.Proofs.Css.Composition

/-! # Reading by recursive descent

A reader that calls itself for every block and goes on behind its end, in a given number of turns.
Each turn takes something of the text, so that a turn for every character is more than enough, and
what it reads is the stylesheet. -/

namespace WebFonts.Css

open Text

/-! ## The reader -/

/-- What a call of the reader comes to: there were not enough turns, the text is at fault, or events
were read up to a place, with the text from there on. -/
inductive Outcome where
  | exhausted
  | fault (fault : Fault)
  | read (events : List Event) (stop : Nat) (rest : List Char)
  deriving DecidableEq, Repr

namespace Outcome

/-- The outcome of a call with the events in front of it. -/
def after (first : List Event) : Outcome → Outcome
  | read events stop rest => read (first ++ events) stop rest
  | outcome => outcome

/-- Goes on where a call has come to. -/
def andThen (outcome : Outcome) (next : Nat → List Char → Outcome) : Outcome :=
  match outcome with
  | read events stop rest => (next stop rest).after events
  | outcome => outcome

/-- The stylesheet that a call was to read. -/
def sheet (source : List Char) : Outcome → Option (Except SyntaxError Stylesheet)
  | exhausted => none
  | fault found => some (.error (found.locate source))
  | read events _ _ => some (.ok ⟨Event.assemble events⟩)

end Outcome

/-- An item with its block, which is read from behind the brace that opens it. -/
def Item.through (block : Nat → Nat → List Char → Outcome) (start : Nat) :
    Except Fault Item.Reading → Outcome
  | .error fault => .fault (fault.shift start)
  | .ok ⟨.whole leaf, scanned, rest⟩ =>
    let stop := start + utf8Width scanned
    .read (leaf.toList.map (.leaf · ⟨start, stop⟩)) stop rest
  | .ok ⟨.opening head, scanned, rest⟩ =>
    let brace := start + utf8Width scanned
    (block brace (brace + 1) rest).after [.opens head start]

/-- Reads one item in every turn, through the end of the block that was opened at a brace or, if
there is none, to the end of the text. -/
def descend : Nat → Option Nat → Nat → List Char → Outcome
  | 0, _, _, _ => .exhausted
  | turns + 1, brace, place, text =>
    match gap brace.isNone text with
    | .error fault => .fault (fault.shift place)
    | .ok (blank, []) =>
      match brace with
      | none => .read [] (place + utf8Width blank) []
      | some brace => .fault ⟨.unterminatedBlock, brace⟩
    | .ok (blank, c :: rest) =>
      let start := place + utf8Width blank
      if c = '}' then
        match brace with
        | none => .fault ⟨.strayBrace, start⟩
        | some _ => .read [.closes (start + 1)] (start + 1) rest
      else if c = ';' then descend turns brace (start + 1) rest
      else
        (Item.through (fun inner => descend turns (some inner)) start
          (Item.read brace.isSome (c :: rest))).andThen (descend turns brace)

/-- What was read as an item, through the block that it opens. -/
def readThrough (turns start : Nat) (read : Except Fault Item.Reading) : Outcome :=
  Item.through (fun brace => descend turns (some brace)) start read

section

variable {brace : Option Nat} {text blank rest : List Char}

theorem descend_of_error {fault : Fault} (h : gap brace.isNone text = .error fault)
    (turns place : Nat) : descend (turns + 1) brace place text = .fault (fault.shift place) := by
  rw [descend, h]

theorem descend_of_end (h : gap true text = .ok (blank, [])) (turns place : Nat) :
    descend (turns + 1) none place text = .read [] (place + utf8Width blank) [] := by
  rw [descend, Option.isNone_none, h]

theorem descend_of_unclosed (h : gap false text = .ok (blank, [])) (turns brace place : Nat) :
    descend (turns + 1) (some brace) place text = .fault ⟨.unterminatedBlock, brace⟩ := by
  rw [descend, Option.isNone_some, h]

theorem descend_of_stray (h : gap true text = .ok (blank, '}' :: rest)) (turns place : Nat) :
    descend (turns + 1) none place text = .fault ⟨.strayBrace, place + utf8Width blank⟩ := by
  rw [descend, Option.isNone_none, h]
  rfl

theorem descend_of_closing (h : gap false text = .ok (blank, '}' :: rest))
    (turns brace place : Nat) :
    descend (turns + 1) (some brace) place text =
      .read [.closes (place + utf8Width blank + 1)] (place + utf8Width blank + 1) rest := by
  rw [descend, Option.isNone_some, h]
  rfl

theorem descend_of_semicolon (h : gap brace.isNone text = .ok (blank, ';' :: rest))
    (turns place : Nat) :
    descend (turns + 1) brace place text =
      descend turns brace (place + utf8Width blank + 1) rest := by
  rw [descend, h]
  rfl

theorem descend_of_item {c : Char} (h : gap brace.isNone text = .ok (blank, c :: rest))
    (hbrace : c ≠ '}') (hsemicolon : c ≠ ';') (turns place : Nat) :
    descend (turns + 1) brace place text =
      (readThrough turns (place + utf8Width blank) (Item.read brace.isSome (c :: rest))).andThen
        (descend turns brace) := by
  rw [descend, h]
  simp only [hbrace, hsemicolon, ↓reduceIte]
  rfl

end

/-- What the reader can meet in front of an item. -/
theorem gap_cases (between : Bool) (text : List Char) :
    (∃ fault, gap between text = .error fault) ∨
      (∃ blank, gap between text = .ok (blank, [])) ∨
      (∃ blank rest, gap between text = .ok (blank, '}' :: rest)) ∨
      (∃ blank rest, gap between text = .ok (blank, ';' :: rest)) ∨
      ∃ blank c rest, gap between text = .ok (blank, c :: rest) ∧ c ≠ '}' ∧ c ≠ ';' := by
  match gap between text with
  | .error fault => exact .inl ⟨fault, rfl⟩
  | .ok (blank, []) => exact .inr (.inl ⟨blank, rfl⟩)
  | .ok (blank, c :: rest) =>
    by_cases hbrace : c = '}'
    · exact .inr (.inr (.inl ⟨blank, rest, by rw [hbrace]⟩))
    · by_cases hsemicolon : c = ';'
      · exact .inr (.inr (.inr (.inl ⟨blank, rest, by rw [hsemicolon]⟩)))
      · exact .inr (.inr (.inr (.inr ⟨blank, c, rest, rfl, hbrace, hsemicolon⟩)))

/-! ## Outcomes of calls -/

namespace Outcome

variable {outcome : Outcome} {events first : List Event} {stop : Nat} {rest : List Char}

theorem exists_of_after (h : outcome.after first = .read events stop rest) :
    ∃ more, outcome = .read more stop rest := by
  cases outcome with
  | read more place behind =>
    obtain ⟨-, rfl, rfl⟩ := Outcome.read.inj h
    exact ⟨more, rfl⟩
  | exhausted => contradiction
  | fault => contradiction

theorem exists_of_andThen {next : Nat → List Char → Outcome}
    (h : outcome.andThen next = .read events stop rest) :
    ∃ earlier place behind more, outcome = .read earlier place behind ∧
      next place behind = .read more stop rest := by
  cases outcome with
  | read earlier place behind =>
    obtain ⟨more, hmore⟩ := exists_of_after h
    exact ⟨earlier, place, behind, more, rfl, hmore⟩
  | exhausted => contradiction
  | fault => contradiction

theorem after_ne_exhausted (h : outcome ≠ .exhausted) : outcome.after first ≠ .exhausted := by
  cases outcome with
  | exhausted => exact (h rfl).elim
  | fault => exact Outcome.noConfusion
  | read => exact Outcome.noConfusion

theorem andThen_ne_exhausted {next : Nat → List Char → Outcome} (h : outcome ≠ .exhausted)
    (hnext : ∀ earlier place behind, outcome = .read earlier place behind →
      next place behind ≠ .exhausted) : outcome.andThen next ≠ .exhausted := by
  cases outcome with
  | exhausted => exact (h rfl).elim
  | fault => exact Outcome.noConfusion
  | read earlier place behind => exact after_ne_exhausted (hnext earlier place behind rfl)

end Outcome

/-! ## Every turn takes something -/

/-- What follows some of a text. -/
def IsProperSuffix (rest text : List Char) : Prop := rest <:+ text ∧ rest ≠ text

theorem isProperSuffix_iff {rest text : List Char} :
    IsProperSuffix rest text ↔ rest <:+ text ∧ rest.length < text.length := by
  refine and_congr_right fun hsuffix => ⟨fun hne => ?_, ?_⟩
  · exact Nat.lt_of_le_of_ne hsuffix.length_le fun he => hne (hsuffix.eq_of_length he)
  · rintro hlt rfl
    exact Nat.lt_irrefl _ hlt

theorem IsProperSuffix.trans_suffix {rest behind text : List Char}
    (h : IsProperSuffix rest behind) (hbehind : behind <:+ text) : IsProperSuffix rest text := by
  rw [isProperSuffix_iff] at h ⊢
  exact ⟨h.1.trans hbehind, Nat.lt_of_lt_of_le h.2 hbehind.length_le⟩

theorem IsProperSuffix.of_suffix {rest behind text : List Char} (h : IsProperSuffix behind text)
    (hrest : rest <:+ behind) : IsProperSuffix rest text := by
  rw [isProperSuffix_iff] at h ⊢
  exact ⟨hrest.trans h.1, Nat.lt_of_le_of_lt hrest.length_le h.2⟩

theorem isProperSuffix_cons (c : Char) (rest : List Char) : IsProperSuffix rest (c :: rest) := by
  rw [isProperSuffix_iff]
  exact ⟨List.suffix_cons c rest, Nat.lt_succ_self _⟩

theorem suffix_of_gap {between : Bool} {text blank rest : List Char}
    (h : gap between text = .ok (blank, rest)) : rest <:+ text :=
  ⟨blank, gap_splits between text blank rest h⟩

theorem Item.Reading.Splits.suffix {reading : Item.Reading} {text : List Char}
    (h : reading.Splits text) : reading.rest <:+ text := by
  obtain ⟨item, scanned, rest⟩ := reading
  cases item with
  | whole leaf => exact ⟨scanned, h.symm⟩
  | opening head =>
    refine ⟨scanned ++ ['{'], ?_⟩
    rw [List.append_assoc]
    exact h.symm

theorem isProperSuffix_of_declaration? {text : List Char} {reading : Item.Reading}
    (h : declaration? text = .ok (some reading)) : IsProperSuffix reading.rest text :=
  isProperSuffix_iff.mpr ⟨(declaration?_splits h).suffix, declaration?_shorter h⟩

theorem isProperSuffix_of_rule {c : Char} {text : List Char} {reading : Item.Reading}
    (h : rule (c :: text) = .ok reading) (hc : c ≠ '}') :
    IsProperSuffix reading.rest (c :: text) :=
  isProperSuffix_iff.mpr ⟨(rule_splits h).suffix, rule_shorter h hc⟩

theorem isProperSuffix_of_item {inBlock : Bool} {c : Char} {text : List Char}
    {reading : Item.Reading} (h : Item.read inBlock (c :: text) = .ok reading) (hc : c ≠ '}') :
    IsProperSuffix reading.rest (c :: text) :=
  isProperSuffix_iff.mpr ⟨(Item.read_splits h).suffix, Item.read_shorter h hc⟩

/-- Behind an item and its block there is less than where the item starts. -/
theorem isProperSuffix_of_through {block : Nat → Nat → List Char → Outcome} {start stop : Nat}
    {text rest : List Char} {read : Except Fault Item.Reading} {events : List Event}
    (hread : ∀ reading, read = .ok reading → IsProperSuffix reading.rest text)
    (hblock : ∀ brace place text events stop rest, block brace place text = .read events stop rest →
      rest <:+ text)
    (h : Item.through block start read = .read events stop rest) : IsProperSuffix rest text := by
  cases read with
  | error fault => contradiction
  | ok reading =>
    have hitem := hread reading rfl
    obtain ⟨item, scanned, behind⟩ := reading
    cases item with
    | whole leaf =>
      obtain ⟨-, -, rfl⟩ := Outcome.read.inj h
      exact hitem
    | opening head =>
      obtain ⟨more, hmore⟩ := Outcome.exists_of_after h
      exact hitem.of_suffix (hblock _ _ _ _ _ _ hmore)

/-- A call for a block reads at least the brace that closes it. -/
theorem isProperSuffix_of_descend {turns brace place stop : Nat} {text rest : List Char}
    {events : List Event} (h : descend turns (some brace) place text = .read events stop rest) :
    IsProperSuffix rest text := by
  -- both the call for a block in the block and the one behind it have a turn less
  induction turns generalizing brace place stop text rest events with
  | zero => contradiction
  | succ turns ih =>
    rcases gap_cases (some brace).isNone text with ⟨fault, hgap⟩ | ⟨blank, hgap⟩ |
      ⟨blank, behind, hgap⟩ | ⟨blank, behind, hgap⟩ | ⟨blank, c, behind, hgap, hbrace, hsemicolon⟩
    · rw [descend_of_error hgap] at h
      contradiction
    · rw [descend_of_unclosed hgap] at h
      contradiction
    · rw [descend_of_closing hgap] at h
      obtain ⟨-, -, rfl⟩ := Outcome.read.inj h
      exact (isProperSuffix_cons _ _).trans_suffix (suffix_of_gap hgap)
    · rw [descend_of_semicolon hgap] at h
      exact ((isProperSuffix_cons _ _).of_suffix (ih h).1).trans_suffix (suffix_of_gap hgap)
    · rw [descend_of_item hgap hbrace hsemicolon] at h
      obtain ⟨earlier, place', behind', more, hitem, hmore⟩ := Outcome.exists_of_andThen h
      have hbehind : IsProperSuffix behind' (c :: behind) :=
        isProperSuffix_of_through (fun reading hread => isProperSuffix_of_item hread hbrace)
          (fun _ _ _ _ _ _ hblock => (ih hblock).1) hitem
      exact (hbehind.of_suffix (ih hmore).1).trans_suffix (suffix_of_gap hgap)

theorem isProperSuffix_of_readThrough {turns start stop : Nat} {text rest : List Char}
    {read : Except Fault Item.Reading} {events : List Event}
    (hread : ∀ reading, read = .ok reading → IsProperSuffix reading.rest text)
    (h : readThrough turns start read = .read events stop rest) : IsProperSuffix rest text :=
  isProperSuffix_of_through hread
    (fun _ _ _ _ _ _ hblock => (isProperSuffix_of_descend hblock).1) h

/-- Where the reader goes on after a turn, in the same block or in one that the turn enters. -/
inductive Turn (inBlock : Bool) (text : List Char) : Bool → List Char → Prop where
  | semicolon {blank rest : List Char} (hgap : gap (!inBlock) text = .ok (blank, ';' :: rest)) :
      Turn inBlock text inBlock rest
  | item {turns start stop : Nat} {blank rest behind : List Char} {c : Char} {events : List Event}
      (hgap : gap (!inBlock) text = .ok (blank, c :: rest)) (hbrace : c ≠ '}')
      (hsemicolon : c ≠ ';')
      (hitem : readThrough turns start (Item.read inBlock (c :: rest)) = .read events stop behind) :
      Turn inBlock text inBlock behind
  | block {blank rest scanned behind : List Char} {c : Char} {head : Option Head}
      (hgap : gap (!inBlock) text = .ok (blank, c :: rest)) (hbrace : c ≠ '}')
      (hsemicolon : c ≠ ';')
      (hitem : Item.read inBlock (c :: rest) = .ok ⟨.opening head, scanned, behind⟩) :
      Turn inBlock text true behind

theorem Turn.isProperSuffix {inBlock inBlock' : Bool} {text text' : List Char}
    (h : Turn inBlock text inBlock' text') : IsProperSuffix text' text := by
  cases h with
  | semicolon hgap => exact (isProperSuffix_cons _ _).trans_suffix (suffix_of_gap hgap)
  | item hgap hbrace _ hitem =>
    have hbehind := isProperSuffix_of_readThrough
      (fun _ hread => isProperSuffix_of_item hread hbrace) hitem
    exact hbehind.trans_suffix (suffix_of_gap hgap)
  | block hgap hbrace _ hitem =>
    exact (isProperSuffix_of_item hitem hbrace).trans_suffix (suffix_of_gap hgap)

/-- There is no endless run of turns. -/
theorem wellFounded_turn :
    WellFounded fun next state : Bool × List Char => Turn state.1 state.2 next.1 next.2 := by
  refine Subrelation.wf ?_ (measure fun state : Bool × List Char => state.2.length).wf
  intro next state h
  exact (isProperSuffix_iff.mp h.isProperSuffix).2

/-! ## As many turns as there are characters -/

theorem through_ne_exhausted {block : Nat → Nat → List Char → Outcome} {start : Nat}
    {read : Except Fault Item.Reading}
    (h : ∀ reading, read = .ok reading →
      ∀ brace place, block brace place reading.rest ≠ .exhausted) :
    Item.through block start read ≠ .exhausted := by
  cases read with
  | error fault => exact Outcome.noConfusion
  | ok reading =>
    have hblock := h reading rfl
    obtain ⟨item, scanned, rest⟩ := reading
    cases item with
    | whole leaf => exact Outcome.noConfusion
    | opening head => exact Outcome.after_ne_exhausted (hblock _ _)

theorem descend_ne_exhausted {turns : Nat} {brace : Option Nat} {place : Nat} {text : List Char}
    (h : text.length < turns) : descend turns brace place text ≠ .exhausted := by
  induction turns generalizing brace place text with
  | zero => contradiction
  | succ turns ih =>
    rcases gap_cases brace.isNone text with ⟨fault, hgap⟩ | ⟨blank, hgap⟩ | ⟨blank, rest, hgap⟩ |
      ⟨blank, rest, hgap⟩ | ⟨blank, c, rest, hgap, hbrace, hsemicolon⟩
    · rw [descend_of_error hgap]
      exact Outcome.noConfusion
    · cases brace with
      | none => rw [descend_of_end hgap]; exact Outcome.noConfusion
      | some brace => rw [descend_of_unclosed hgap]; exact Outcome.noConfusion
    · cases brace with
      | none => rw [descend_of_stray hgap]; exact Outcome.noConfusion
      | some brace => rw [descend_of_closing hgap]; exact Outcome.noConfusion
    · have hrest := (suffix_of_gap hgap).length_le
      rw [descend_of_semicolon hgap]
      exact ih (by rw [List.length_cons] at hrest; omega)
    · -- an item takes a character, so that there are turns enough for its block and behind it
      have hitem := (suffix_of_gap hgap).length_le
      rw [descend_of_item hgap hbrace hsemicolon]
      refine Outcome.andThen_ne_exhausted (through_ne_exhausted ?_) ?_
      · intro reading hread inner place
        have hlt := (isProperSuffix_iff.mp (isProperSuffix_of_item hread hbrace)).2
        exact ih (by omega)
      · intro earlier place behind hbehind
        have hlt := (isProperSuffix_iff.mp (isProperSuffix_of_readThrough
          (fun _ hread => isProperSuffix_of_item hread hbrace) hbehind)).2
        exact ih (by omega)

theorem readThrough_rule_ne_exhausted {turns start : Nat} {c : Char} {text : List Char}
    (hc : c ≠ '}') (h : text.length < turns) :
    readThrough turns start (rule (c :: text)) ≠ .exhausted := by
  refine through_ne_exhausted fun reading hread brace place => descend_ne_exhausted ?_
  have hlt := (isProperSuffix_iff.mp (isProperSuffix_of_rule hread hc)).2
  rw [List.length_cons] at hlt
  omega

/-! ## Agreement with the events of a stylesheet -/

/-- Whether events are read as a call has read them, the call being for the innermost of the blocks
that are open. -/
def Outcome.Agrees (opened : List Nat) (read : Except Fault (List Event)) : Outcome → Prop
  | exhausted => True
  | fault found => read = .error found
  | .read events stop rest =>
    match opened with
    | [] => read = .ok events
    | _ :: outer => read = (Event.read outer stop rest).map (events ++ ·)

theorem Outcome.Agrees.after {opened : List Nat} {read : Except Fault (List Event)}
    {outcome : Outcome} (h : outcome.Agrees opened read) (first : List Event) :
    (outcome.after first).Agrees opened (read.map (first ++ ·)) := by
  cases outcome with
  | exhausted => trivial
  | fault found =>
    obtain rfl : read = .error found := h
    exact rfl
  | read events stop rest =>
    cases opened with
    | nil =>
      obtain rfl : read = .ok events := h
      exact rfl
    | cons brace outer =>
      obtain rfl : read = (Event.read outer stop rest).map (events ++ ·) := h
      refine (map_map _ _ _).trans ?_
      congr 1
      funext more
      exact (List.append_assoc _ _ _).symm

/-- If all calls with less turns read the events of a text, so does one that starts with an item. -/
theorem readThrough_agrees {turns : Nat}
    (h : ∀ opened place text,
      (descend turns opened.head? place text).Agrees opened (Event.read opened place text))
    (opened : List Nat) (start : Nat) (reading : Item.Reading) :
    ((readThrough turns start (.ok reading)).andThen (descend turns opened.head?)).Agrees opened
      (Event.behind opened start reading) := by
  obtain ⟨item, scanned, rest⟩ := reading
  cases item with
  | whole leaf =>
    have hbehind := h opened (start + utf8Width scanned) rest
    cases leaf with
    | none =>
      have hread := hbehind.after []
      have hmap : (Event.read opened (start + utf8Width scanned) rest).map ([] ++ ·) =
          Event.read opened (start + utf8Width scanned) rest := by
        cases Event.read opened (start + utf8Width scanned) rest <;> rfl
      rw [hmap] at hread
      exact hread
    | some found => exact hbehind.after [.leaf found _]
  | opening head =>
    have hblock := h ((start + utf8Width scanned) :: opened) (start + utf8Width scanned + 1) rest
    rw [List.head?_cons] at hblock
    cases hcall : descend turns (some (start + utf8Width scanned)) (start + utf8Width scanned + 1)
        rest with
    | exhausted =>
      simp only [readThrough, Item.through, hcall]
      trivial
    | fault found =>
      rw [hcall] at hblock
      simp only [readThrough, Item.through, hcall]
      exact congrArg (Except.map _) hblock
    | read events stop behind =>
      -- the block has taken its closing event: what follows is read for the blocks around it
      rw [hcall] at hblock
      simp only [readThrough, Item.through, hcall]
      have hread := (h opened stop behind).after (.opens head start :: events)
      have hevents : Event.behind opened start ⟨.opening head, scanned, rest⟩ =
          (Event.read opened stop behind).map ((.opens head start :: events) ++ ·) :=
        (congrArg (Except.map _) hblock).trans (map_map _ _ _)
      rw [hevents]
      exact hread

theorem descend_agrees (turns place : Nat) (opened : List Nat) (text : List Char) :
    (descend turns opened.head? place text).Agrees opened (Event.read opened place text) := by
  induction turns generalizing opened place text with
  | zero => trivial
  | succ turns ih =>
    have hbetween : opened.head?.isNone = opened.isEmpty := by cases opened <;> rfl
    rcases gap_cases opened.head?.isNone text with ⟨fault, hgap⟩ | ⟨blank, hgap⟩ |
      ⟨blank, rest, hgap⟩ | ⟨blank, rest, hgap⟩ | ⟨blank, c, rest, hgap, hbrace, hsemicolon⟩
    · rw [descend_of_error hgap, Event.read_of_error (hbetween ▸ hgap)]
      exact rfl
    · cases opened with
      | nil =>
        rw [List.head?_nil, descend_of_end hgap, Event.read_of_end hgap]
        exact rfl
      | cons brace outer =>
        rw [List.head?_cons, descend_of_unclosed hgap, Event.read_of_unclosed hgap]
        exact rfl
    · cases opened with
      | nil =>
        rw [List.head?_nil, descend_of_stray hgap, Event.read_of_stray hgap]
        exact rfl
      | cons brace outer =>
        rw [List.head?_cons, descend_of_closing hgap, Event.read_of_closing hgap]
        exact rfl
    · rw [descend_of_semicolon hgap, Event.read_of_semicolon (hbetween ▸ hgap)]
      exact ih _ _ _
    · have hinside : opened.head?.isSome = !opened.isEmpty := by cases opened <;> rfl
      rw [descend_of_item hgap hbrace hsemicolon, hinside]
      cases hitem : Item.read (!opened.isEmpty) (c :: rest) with
      | error fault =>
        rw [Event.read_of_item_error (hbetween ▸ hgap) hbrace hsemicolon hitem]
        exact rfl
      | ok reading =>
        rw [Event.read_of_item (hbetween ▸ hgap) hbrace hsemicolon hitem]
        exact readThrough_agrees (fun opened place text => ih place opened text) opened _ reading

/-- With a turn for every character and one more, the descent reads the stylesheet or its fault. -/
theorem sheet_descend {turns : Nat} {source : List Char} (h : source.length < turns) :
    (descend turns none 0 source).sheet source = some (Stylesheet.parse source) := by
  have hagrees := descend_agrees turns 0 [] source
  rw [List.head?_nil] at hagrees
  cases hcall : descend turns none 0 source with
  | exhausted => exact (descend_ne_exhausted h hcall).elim
  | fault found =>
    rw [hcall] at hagrees
    have hread : Event.read [] 0 source = .error found := hagrees
    rw [Outcome.sheet, Stylesheet.parse, hread]
  | read events stop rest =>
    rw [hcall] at hagrees
    have hread : Event.read [] 0 source = .ok events := hagrees
    rw [Outcome.sheet, Stylesheet.parse, hread]

/-- Declarations and rules leave a proper suffix of the text that they are read from, and so do the
turns of the reader in a block and the calls for another one, so that there is no endless run of
these. On every text a turn for each character and one more are enough to read the stylesheet or to
find its fault. Of what a rule could start with only the brace that closes a block is ruled out. -/
theorem reading_advances :
    (∀ text reading, declaration? text = .ok (some reading) →
      IsProperSuffix reading.rest text) ∧
    (∀ turns start c text, c ≠ '}' →
      (text.length < turns → readThrough turns start (rule (c :: text)) ≠ .exhausted) ∧
      ∀ events stop rest, readThrough turns start (rule (c :: text)) = .read events stop rest →
        IsProperSuffix rest (c :: text)) ∧
    (∀ inBlock text inBlock' text', Turn inBlock text inBlock' text' →
      IsProperSuffix text' text) ∧
    (WellFounded fun next state : Bool × List Char => Turn state.1 state.2 next.1 next.2) ∧
    ∀ source turns, source.length < turns →
      (descend turns none 0 source).sheet source = some (Stylesheet.parse source) := by
  refine ⟨?_, ?_, ?_, wellFounded_turn, ?_⟩
  · intro text reading h
    exact isProperSuffix_of_declaration? h
  · intro turns start c text hc
    refine ⟨readThrough_rule_ne_exhausted hc, ?_⟩
    intro events stop rest h
    exact isProperSuffix_of_readThrough (fun _ hread => isProperSuffix_of_rule hread hc) h
  · intro inBlock text inBlock' text' h
    exact h.isProperSuffix
  · intro source turns h
    exact sheet_descend h

/-- An item that is no rule is dropped up to the brace that closes the block around it, a nameless
at-rule with the block behind it, and five turns find the fault of a block that does not end. -/
theorem reading_advances_dropped :
    (readThrough 2 0 (rule "d\x7d".toList) = .read [] 1 "\x7d".toList ∧
      IsProperSuffix "\x7d".toList "d\x7d".toList) ∧
    (readThrough 6 0 (rule "@1\x7be\x7d;".toList) =
        .read [.opens none 0, .closes 5] 5 ";".toList ∧
      IsProperSuffix ";".toList "@1\x7be\x7d;".toList) ∧
    Stylesheet.parse "@a\x7bb".toList = .error ⟨.unterminatedBlock, 2, 1, 3⟩ := by
  obtain ⟨-, hrule, -, -, hsheet⟩ := reading_advances
  have hdropped : readThrough 2 0 (rule "d\x7d".toList) = .read [] 1 "\x7d".toList := by
    decide +kernel
  have hnameless : readThrough 6 0 (rule "@1\x7be\x7d;".toList) =
      .read [.opens none 0, .closes 5] 5 ";".toList := by decide +kernel
  have hunclosed : descend 5 none 0 "@a\x7bb".toList = .fault ⟨.unterminatedBlock, 2⟩ := by
    decide +kernel
  have hparse := hsheet "@a\x7bb".toList 5 (by decide)
  rw [hunclosed] at hparse
  exact ⟨⟨hdropped, (hrule 2 0 'd' _ (by decide)).2 _ _ _ hdropped⟩,
    ⟨hnameless, (hrule 6 0 '@' _ (by decide)).2 _ _ _ hnameless⟩, (Option.some.inj hparse).symm⟩

end WebFonts.Css
