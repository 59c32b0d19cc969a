import WebFonts.Css.Event

/-! Computation rules for the readers of a stylesheet. -/

namespace WebFonts.Css

open Text

/-! ## Strings -/

theorem closeString_cons {c : Char} (hc : c ≠ '\\') (quote : Char) (rest : List Char) :
    closeString quote (c :: rest) =
      if c = quote then .ok ([c], rest)
      else if c = '\n' then .error ⟨.unterminatedString, 0⟩
      else (closeString quote rest).after [c] := by
  rw [closeString]
  · exact fun h => absurd h hc
  · exact fun d text h => absurd h hc

theorem piece_eq_unit {c : Char} {text : List Char} (h : ¬(c = '/' ∧ text.head? = some '*')) :
    piece c text = unit c text := by
  unfold piece
  split
  · exact (h ⟨rfl, rfl⟩).elim
  · rfl

/-! ## Escapes -/

theorem unescape_of_not_mem {text : List Char} (h : '\\' ∉ text) : unescape text = text := by
  induction text with
  | nil => rw [unescape]
  | cons c text ih =>
    have hc : c ≠ '\\' := fun hc => h (hc ▸ List.mem_cons_self)
    rw [unescape, ih fun hmem => h (List.mem_cons_of_mem _ hmem)]
    · exact fun he => absurd he hc
    · exact fun d rest he => absurd he hc

/-! ## White space -/

theorem spacing_of_ne {c : Char} (hspace : isSpace c = false) (h : c ∉ ['/', '<', '-'])
    (between : Bool) (rest : List Char) : spacing between (c :: rest) = none := by
  simp only [List.mem_cons, List.not_mem_nil, or_false, not_or] at h
  rw [spacing]
  · simp [hspace]
  · exact fun body hc => absurd hc h.1
  · exact fun body hc => absurd hc h.2.1
  · exact fun body hc => absurd hc h.2.2

theorem gap_of_none {between : Bool} {text : List Char} (h : spacing between text = none) :
    gap between text = .ok ([], text) := by
  rw [gap]
  split <;> simp_all

theorem gap_of_some {between : Bool} {text scanned rest : List Char}
    (h : spacing between text = some (.ok (scanned, rest))) :
    gap between text = (gap between rest).after scanned := by
  rw [gap]
  split <;> simp_all

@[simp] theorem gap_nil (between : Bool) : gap between [] = .ok ([], []) := gap_of_none rfl

/-! ## Stretches -/

@[simp] theorem stretch_nil (closers : List Char) : stretch closers [] = .ok ([], []) := by
  rw [stretch]

theorem stretch_of_ends {closers : List Char} {c : Char} {text : List Char}
    (h : endsStretch closers c = true) : stretch closers (c :: text) = .ok ([], c :: text) := by
  rw [stretch, if_pos h]

theorem stretch_of_piece {closers : List Char} {c : Char} {text scanned rest : List Char}
    (hc : endsStretch closers c = false) (h : piece c text = .ok (scanned, rest)) :
    stretch closers (c :: text) = (stretch (closersAfter closers c) rest).after scanned := by
  rw [stretch, if_neg (by simp [hc])]
  split <;> simp_all

/-! ## Values -/

theorem tokens?_of_error {text : List Char} {fault : Fault} (h : gap false text = .error fault) :
    tokens? text = none := by
  rw [tokens?]
  split <;> rename_i heq <;> cases h.symm.trans heq
  rfl

theorem tokens?_of_none {text blank rest : List Char} {c : Char}
    (hgap : gap false text = .ok (blank, c :: rest)) (htoken : token? (c :: rest) = none) :
    tokens? text = none := by
  rw [tokens?]
  split <;> rename_i heq <;> cases hgap.symm.trans heq
  split <;> simp_all

theorem tokens?_of_end {text blank : List Char} (h : gap false text = .ok (blank, [])) :
    tokens? text = some [] := by
  rw [tokens?]
  split <;> rename_i heq <;> cases h.symm.trans heq
  rfl

theorem tokens?_of_token {text blank rest behind : List Char} {c : Char} {token : Token}
    (hgap : gap false text = .ok (blank, c :: rest))
    (htoken : token? (c :: rest) = some (token, behind)) :
    tokens? text = (tokens? behind).map (token :: ·) := by
  rw [tokens?]
  split <;> rename_i heq <;> cases hgap.symm.trans heq
  split <;> simp_all

theorem tokens?_comma (rest : List Char) :
    tokens? (',' :: rest) = (tokens? rest).map (Token.operator ',' :: ·) := by
  have htoken : token? (',' :: rest) = some (.operator ',', rest) := rfl
  exact tokens?_of_token (gap_of_none rfl) htoken

theorem tokens?_mark (rest : List Char) :
    tokens? ('!' :: rest) = (tokens? rest).map (Token.delimiter '!' :: ·) := by
  have htoken : token? ('!' :: rest) = some (.delimiter '!', rest) := rfl
  exact tokens?_of_token (gap_of_none rfl) htoken

/-! ## Items -/

theorem Item.ending_of_ne (leaf : Option Leaf) (head : Option Head) (scanned : List Char)
    {text : List Char} (hbrace : text.head? ≠ some '{') (hsemicolon : text.head? ≠ some ';') :
    Item.ending leaf head scanned text = ⟨.whole leaf, scanned, text⟩ := by
  unfold Item.ending
  split
  · exact (hbrace rfl).elim
  · exact (hsemicolon rfl).elim
  · rfl

/-- The declaration of a property, spelled as a word, with the text of its value. -/
def Leaf.ofWritten (word written : List Char) : Leaf :=
  .declaration (String.ofList (unescape word))
    (Value.read (unescape word) (cutImportant written).1) (cutImportant written).2

theorem declaration?_of_colon {text word rest blank behind written last : List Char}
    (hword : identifier? text = some (word, rest))
    (hgap : gap false rest = .ok (blank, ':' :: behind))
    (hstretch : stretch [] behind = .ok (written, last)) (hblock : last.head? ≠ some '{') :
    declaration? text = .ok (some (Item.ending (some (Leaf.ofWritten word written)) none
      (word ++ blank ++ ':' :: written) last)) := by
  simp only [declaration?, hword, hgap, Scan.after, hstretch]
  split
  · contradiction
  · rename_i he
    rcases Prod.mk.inj (Except.ok.inj he) with ⟨-, rfl⟩
    exact (hblock rfl).elim
  · rename_i he
    rcases Prod.mk.inj (Except.ok.inj he) with ⟨rfl, rfl⟩
    rfl

theorem declaration?_of_block {text word rest blank behind written last : List Char}
    (hword : identifier? text = some (word, rest))
    (hgap : gap false rest = .ok (blank, ':' :: behind))
    (hstretch : stretch [] behind = .ok (written, '{' :: last)) :
    declaration? text = .ok none := by
  simp only [declaration?, hword, hgap, Scan.after, hstretch]

theorem declaration?_of_no_colon {text word rest blank behind : List Char}
    (hword : identifier? text = some (word, rest)) (hgap : gap false rest = .ok (blank, behind))
    (hcolon : behind.head? ≠ some ':') : declaration? text = .ok none := by
  simp only [declaration?, hword, hgap, Scan.after]
  split
  · contradiction
  · rename_i he
    rcases Prod.mk.inj (Except.ok.inj he) with ⟨-, rfl⟩
    exact (hcolon rfl).elim
  · rfl

theorem declaration?_of_no_word {text : List Char} (h : identifier? text = none) :
    declaration? text = .ok none := by
  simp only [declaration?, h]

/-- A text starts with a declaration only in one way. -/
theorem exists_colon_of_declaration? {text : List Char} {reading : Item.Reading}
    (h : declaration? text = .ok (some reading)) :
    ∃ word rest blank behind written last, identifier? text = some (word, rest) ∧
      gap false rest = .ok (blank, ':' :: behind) ∧ stretch [] behind = .ok (written, last) ∧
      last.head? ≠ some '{' ∧
      reading = Item.ending (some (Leaf.ofWritten word written)) none
        (word ++ blank ++ ':' :: written) last := by
  cases hword : identifier? text with
  | none => simp [declaration?_of_no_word hword] at h
  | some both =>
    obtain ⟨word, rest⟩ := both
    cases hgap : gap false rest with
    | error fault => simp [declaration?, hword, hgap, Scan.after] at h
    | ok both =>
      obtain ⟨blank, behind⟩ := both
      by_cases hcolon : behind.head? = some ':'
      · rcases List.head?_eq_some_iff.mp hcolon with ⟨behind, rfl⟩
        cases hstretch : stretch [] behind with
        | error fault => simp [declaration?, hword, hgap, Scan.after, hstretch] at h
        | ok both =>
          obtain ⟨written, last⟩ := both
          by_cases hblock : last.head? = some '{'
          · rcases List.head?_eq_some_iff.mp hblock with ⟨last, rfl⟩
            simp [declaration?_of_block hword hgap hstretch] at h
          · rw [declaration?_of_colon hword hgap hstretch hblock] at h
            exact ⟨word, rest, blank, behind, written, last, rfl, hgap, hstretch, hblock,
              (Option.some.inj (Except.ok.inj h)).symm⟩
      · simp [declaration?_of_no_colon hword hgap hcolon] at h

/-- What of a rule is known in front of its stretch of text: what was taken before, and what the
stretch makes of the rule if there is no block and if there is one. -/
structure Item.Start where
  front : List Char
  rest : List Char
  leaf : List Char → Option Leaf
  head : List Char → Option Head

def ruleStart (text : List Char) : Item.Start :=
  match text with
  | '@' :: behind =>
    match identifier? behind with
    | none => ⟨['@'], behind, fun _ => none, fun _ => none⟩
    | some (word, rest) =>
      let word' := String.ofList (unescape word)
      ⟨'@' :: word, rest, fun written => some (.statement word' (String.ofList (trim written))),
        fun written => some (.atRule word' (String.ofList (trim written)))⟩
  | _ => ⟨[], text, fun _ => none, fun written => some (.qualified (String.ofList (trim written)))⟩

theorem ruleStart_splits (text : List Char) :
    (ruleStart text).front ++ (ruleStart text).rest = text := by
  unfold ruleStart
  split
  · split
    · rfl
    · rename_i word rest h
      simp [← (identifier?_split h).1]
  · rfl

/-- All rules are read alike behind their start. -/
theorem rule_eq (text : List Char) :
    rule text =
      match stretch [] (ruleStart text).rest with
      | .error fault => .error (fault.shift (utf8Width (ruleStart text).front))
      | .ok (written, last) =>
        .ok (Item.ending ((ruleStart text).leaf written) ((ruleStart text).head written)
          ((ruleStart text).front ++ written) last) := by
  by_cases hat : text.head? = some '@'
  · rcases List.head?_eq_some_iff.mp hat with ⟨behind, rfl⟩
    cases hfound : identifier? behind with
    | none =>
      simp only [rule, ruleStart, hfound]
      cases stretch [] behind <;> rfl
    | some both =>
      simp only [rule, ruleStart, hfound]
      rfl
  · have hqualified : ∀ behind, text ≠ '@' :: behind := by
      rintro behind rfl
      exact hat rfl
    simp only [rule, ruleStart]
    cases stretch [] text <;> simp [utf8Width]

/-! ## Events -/

theorem Event.read_of_error {opened : List Nat} {text : List Char} {fault : Fault}
    (h : gap opened.isEmpty text = .error fault) (place : Nat) :
    Event.read opened place text = .error (fault.shift place) := by
  rw [Event.read]
  split <;> simp_all

theorem Event.read_of_end {text blank : List Char} (h : gap true text = .ok (blank, []))
    (place : Nat) : Event.read [] place text = .ok [] := by
  rw [Event.read]
  split <;> rename_i heq <;> cases h.symm.trans heq
  rfl

theorem Event.read_of_unclosed {brace : Nat} {outer : List Nat} {text blank : List Char}
    (h : gap false text = .ok (blank, [])) (place : Nat) :
    Event.read (brace :: outer) place text = .error ⟨.unterminatedBlock, brace⟩ := by
  rw [Event.read]
  split <;> rename_i heq <;> cases h.symm.trans heq
  rfl

theorem Event.read_of_stray {text blank rest : List Char}
    (h : gap true text = .ok (blank, '}' :: rest)) (place : Nat) :
    Event.read [] place text = .error ⟨.strayBrace, place + utf8Width blank⟩ := by
  rw [Event.read]
  split <;> rename_i heq <;> cases h.symm.trans heq
  simp

theorem Event.read_of_closing {brace : Nat} {outer : List Nat} {text blank rest : List Char}
    (h : gap false text = .ok (blank, '}' :: rest)) (place : Nat) :
    Event.read (brace :: outer) place text =
      (Event.read outer (place + utf8Width blank + 1) rest).map
        (.closes (place + utf8Width blank + 1) :: ·) := by
  rw [Event.read]
  split <;> rename_i heq <;> cases h.symm.trans heq
  simp

theorem Event.read_of_semicolon {opened : List Nat} {text blank rest : List Char}
    (h : gap opened.isEmpty text = .ok (blank, ';' :: rest)) (place : Nat) :
    Event.read opened place text = Event.read opened (place + utf8Width blank + 1) rest := by
  rw [Event.read]
  split <;> simp_all

/-- What follows an item that was read. -/
def Event.behind (opened : List Nat) (start : Nat) (reading : Item.Reading) :
    Except Fault (List Event) :=
  let stop := start + utf8Width reading.scanned
  match reading.item with
  | .whole none => Event.read opened stop reading.rest
  | .whole (some found) =>
    (Event.read opened stop reading.rest).map (.leaf found ⟨start, stop⟩ :: ·)
  | .opening head =>
    (Event.read (stop :: opened) (stop + 1) reading.rest).map (.opens head start :: ·)

theorem Event.read_of_item {opened : List Nat} {text blank rest : List Char} {c : Char}
    {reading : Item.Reading} (h : gap opened.isEmpty text = .ok (blank, c :: rest))
    (hbrace : c ≠ '}') (hsemicolon : c ≠ ';')
    (hitem : Item.read (!opened.isEmpty) (c :: rest) = .ok reading) (place : Nat) :
    Event.read opened place text = Event.behind opened (place + utf8Width blank) reading := by
  rw [Event.read, Event.behind]
  obtain ⟨item, scanned, behind⟩ := reading
  split <;> simp_all
  split <;> simp_all

theorem Event.read_of_item_error {opened : List Nat} {text blank rest : List Char} {c : Char}
    {fault : Fault} (h : gap opened.isEmpty text = .ok (blank, c :: rest))
    (hbrace : c ≠ '}') (hsemicolon : c ≠ ';')
    (hitem : Item.read (!opened.isEmpty) (c :: rest) = .error fault) (place : Nat) :
    Event.read opened place text = .error (fault.shift (place + utf8Width blank)) := by
  rw [Event.read]
  split <;> simp_all
  split <;> simp_all

end WebFonts.Css
