import WebFonts.Proofs.Css.Extension

/-! # How a stylesheet is read

The steps of a reader that comes to the end of its text, one rule for each. -/

namespace WebFonts.Css

open Text

theorem map_eq_ok_iff {ε α β : Type} {f : α → β} {read : Except ε α} {b : β} :
    read.map f = .ok b ↔ ∃ a, read = .ok a ∧ f a = b := by
  cases read <;> simp [Except.map]

/-- The events of a text, without the reader. Each step takes white space and what follows it. -/
inductive Derivation : List Nat → Nat → List Char → List Event → Prop where
  | finish (place : Nat) {text blank : List Char} (hgap : gap true text = .ok (blank, [])) :
      Derivation [] place text []
  | closing (place : Nat) {brace : Nat} {outer : List Nat} {text blank rest : List Char}
      {events : List Event} (hgap : gap false text = .ok (blank, '}' :: rest)) :
      Derivation outer (place + utf8Width blank + 1) rest events →
      Derivation (brace :: outer) place text (.closes (place + utf8Width blank + 1) :: events)
  | semicolon (place : Nat) {opened : List Nat} {text blank rest : List Char}
      {events : List Event} (hgap : gap opened.isEmpty text = .ok (blank, ';' :: rest)) :
      Derivation opened (place + utf8Width blank + 1) rest events →
      Derivation opened place text events
  | dropped (place : Nat) {opened : List Nat} {text blank rest scanned behind : List Char}
      {c : Char} {events : List Event} (hgap : gap opened.isEmpty text = .ok (blank, c :: rest))
      (hbrace : c ≠ '}') (hsemicolon : c ≠ ';')
      (hitem : Item.read (!opened.isEmpty) (c :: rest) = .ok ⟨.whole none, scanned, behind⟩) :
      Derivation opened (place + utf8Width blank + utf8Width scanned) behind events →
      Derivation opened place text events
  | leaf (place : Nat) {opened : List Nat} {text blank rest scanned behind : List Char}
      {c : Char} {found : Leaf} {events : List Event}
      (hgap : gap opened.isEmpty text = .ok (blank, c :: rest))
      (hbrace : c ≠ '}') (hsemicolon : c ≠ ';')
      (hitem : Item.read (!opened.isEmpty) (c :: rest) =
        .ok ⟨.whole (some found), scanned, behind⟩) :
      Derivation opened (place + utf8Width blank + utf8Width scanned) behind events →
      Derivation opened place text
        (.leaf found ⟨place + utf8Width blank, place + utf8Width blank + utf8Width scanned⟩ ::
          events)
  | opening (place : Nat) {opened : List Nat} {text blank rest scanned behind : List Char}
      {c : Char} {head : Option Head} {events : List Event}
      (hgap : gap opened.isEmpty text = .ok (blank, c :: rest))
      (hbrace : c ≠ '}') (hsemicolon : c ≠ ';')
      (hitem : Item.read (!opened.isEmpty) (c :: rest) = .ok ⟨.opening head, scanned, behind⟩) :
      Derivation ((place + utf8Width blank + utf8Width scanned) :: opened)
        (place + utf8Width blank + utf8Width scanned + 1) behind events →
      Derivation opened place text (.opens head (place + utf8Width blank) :: events)

theorem Derivation.execution {opened : List Nat} {place : Nat} {text : List Char}
    {events : List Event} (h : Derivation opened place text events) :
    Event.read opened place text = .ok events := by
  induction h with
  | finish place hgap => exact Event.read_of_end hgap place
  | closing place hgap _ ih => rw [Event.read_of_closing hgap, ih]; rfl
  | semicolon place hgap _ ih => rw [Event.read_of_semicolon hgap, ih]
  | dropped place hgap hbrace hsemicolon hitem _ ih =>
    rw [Event.read_of_item hgap hbrace hsemicolon hitem]
    exact ih
  | leaf place hgap hbrace hsemicolon hitem _ ih =>
    rw [Event.read_of_item hgap hbrace hsemicolon hitem]
    simp [Event.behind, ih, Except.map]
  | opening place hgap hbrace hsemicolon hitem _ ih =>
    rw [Event.read_of_item hgap hbrace hsemicolon hitem]
    simp [Event.behind, ih, Except.map]

theorem derivation_of_read (opened : List Nat) (place : Nat) (text : List Char) :
    ∀ events, Event.read opened place text = .ok events →
      Derivation opened place text events := by
  fun_induction Event.read opened place text with
  | case1 => intro events h; contradiction
  | case2 place text blank _ hgap =>
    intro events h
    obtain rfl := Except.ok.inj h
    exact .finish place hgap
  | case3 => intro events h; contradiction
  | case4 => intro events h; contradiction
  | case5 place text blank rest start brace outer _ hgap ih =>
    intro events h
    rcases map_eq_ok_iff.mp h with ⟨last, hlast, rfl⟩
    exact .closing place hgap (ih last hlast)
  | case6 opened place text blank rest start hgap _ ih =>
    intro events h
    exact .semicolon place hgap (ih events h)
  | case7 => intro events h; contradiction
  | case8 opened place text blank c rest hgap start hbrace hsemicolon scanned behind hitem ih =>
    intro events h
    exact .dropped place hgap hbrace hsemicolon hitem (ih events h)
  | case9 opened place text blank c rest hgap start hbrace hsemicolon found scanned behind hitem
      stop ih =>
    intro events h
    rcases map_eq_ok_iff.mp h with ⟨last, hlast, rfl⟩
    exact .leaf place hgap hbrace hsemicolon hitem (ih last hlast)
  | case10 opened place text blank c rest hgap start hbrace hsemicolon head scanned behind hitem
      brace ih =>
    intro events h
    rcases map_eq_ok_iff.mp h with ⟨last, hlast, rfl⟩
    exact .opening place hgap hbrace hsemicolon hitem (ih last hlast)

theorem derivation_iff {opened : List Nat} {place : Nat} {text : List Char}
    {events : List Event} :
    Derivation opened place text events ↔ Event.read opened place text = .ok events :=
  ⟨Derivation.execution, derivation_of_read opened place text events⟩

end WebFonts.Css
