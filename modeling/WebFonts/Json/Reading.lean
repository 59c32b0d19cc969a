import WebFonts.Json.Lexeme

/-!
# Readings

A text is read from left to right as far as it is JSON. What is found on the way, including the
place where it stops, is a tree: who looks for a value of some kind walks it in the same order, and
so meets the first problem of the text, whether it lies in the text or in the kind of a value.
-/

namespace WebFonts.Json

/-- What is found where a value should stand. A string or numeral may be one that cannot be
read, although the text goes on behind it. An array or object that is not closed has a problem at
which it stops. -/
inductive Reading where
  /-- The text ends here. -/
  | absent
  /-- There is something else than a value. -/
  | broken (problem : Problem)
  | null
  | bool (b : Bool)
  | number (numeral : Except Problem Numeral)
  | string (contents : Except Problem String)
  | array (items : List Reading) (stop : Option Problem)
  | object (entries : List (Except Problem String × Reading)) (stop : Option Problem)

namespace Reading

/-- The problem of a reader who asks for a value of another kind. -/
def misfit : Reading → Problem
  | absent => .cutShort
  | broken problem => problem
  | number (.error problem) => problem
  | string (.error problem) => problem
  | _ => .unsuitable

/-! ## Reading a text -/

/-- A numeral counts only if it is within the range of doubles. -/
def inRange (numeral : Numeral) : Except Problem Numeral :=
  if numeral.toDouble?.isSome then .ok numeral else .error .malformed

/-- A literal, given the text it starts with. -/
def literal (reading : Reading) : List Char → List Char → Reading × Except Problem (List Char)
  | [], text => (reading, .ok text)
  | _ :: _, [] => (.broken .cutShort, .error .cutShort)
  | c :: word, d :: text =>
    if c = d then literal reading word text else (.broken .malformed, .error .malformed)

/-- The contents of a string and the text behind it, given the text behind its first quote. -/
def contents (text : List Char) : Except Problem String × Except Problem (List Char) :=
  match readString text with
  | .ok (contents, rest) => (.ok (String.ofList contents), .ok rest)
  | .error problem => (.error problem, skipString text)

mutual

/-- What stands at the start of a text, with the text behind it or the problem that keeps a
reader from getting there. Calls nest at most twice as deep as the text is long; `fuel` allows for
that, and more of it changes nothing (`value_of_le`). -/
def value (fuel : Nat) (text : List Char) : Reading × Except Problem (List Char) :=
  match fuel with
  | 0 => (.absent, .error .cutShort)
  | fuel + 1 =>
    match skipSpace text with
    | [] => (.absent, .error .cutShort)
    | '"' :: rest =>
      let found := contents rest
      (.string found.1, found.2)
    | '[' :: rest =>
      match skipSpace rest with
      | ']' :: behind => (.array [] none, .ok behind)
      | behind =>
        match items fuel behind with
        | (found, .ok last) => (.array found none, .ok last)
        | (found, .error problem) => (.array found (some problem), .error problem)
    | '{' :: rest =>
      match skipSpace rest with
      | '}' :: behind => (.object [] none, .ok behind)
      | '"' :: behind =>
        match entries fuel behind with
        | (found, .ok last) => (.object found none, .ok last)
        | (found, .error problem) => (.object found (some problem), .error problem)
      | [] => (.object [] (some .cutShort), .error .cutShort)
      | _ => (.object [] (some .malformed), .error .malformed)
    | 'n' :: rest => literal .null "ull".toList rest
    | 't' :: rest => literal (.bool true) "rue".toList rest
    | 'f' :: rest => literal (.bool false) "alse".toList rest
    | c :: rest =>
      if c = '-' ∨ c.isDigit then
        match readNumeral (c :: rest) with
        | .ok (numeral, behind) => (.number (inRange numeral), .ok behind)
        | .error problem => (.number (.error problem), .error .malformed)
      else (.broken .malformed, .error .malformed)

/-- The items of an array from one of them on. -/
def items (fuel : Nat) (text : List Char) : List Reading × Except Problem (List Char) :=
  match fuel with
  | 0 => ([], .error .cutShort)
  | fuel + 1 =>
    match value fuel text with
    | (item, .error problem) => ([item], .error problem)
    | (item, .ok rest) =>
      match skipSpace rest with
      | ',' :: behind =>
        let (others, next) := items fuel behind
        (item :: others, next)
      | ']' :: behind => ([item], .ok behind)
      | [] => ([item], .error .cutShort)
      | _ => ([item], .error .malformed)

/-- The entries of an object from one of them on, given the text behind the first quote of its
key. Behind a comma another entry is expected, if only one that is not there. -/
def entries (fuel : Nat) (text : List Char) :
    List (Except Problem String × Reading) × Except Problem (List Char) :=
  match fuel with
  | 0 => ([], .error .cutShort)
  | fuel + 1 =>
    match contents text with
    | (key, .error problem) => ([(key, .broken problem)], .error problem)
    | (key, .ok rest) =>
      match skipSpace rest with
      | ':' :: rest =>
        match value fuel rest with
        | (found, .error problem) => ([(key, found)], .error problem)
        | (found, .ok rest) =>
          match skipSpace rest with
          | ',' :: rest =>
            match skipSpace rest with
            | '"' :: rest =>
              let (others, next) := entries fuel rest
              ((key, found) :: others, next)
            | [] => ([(key, found), (.error .cutShort, .absent)], .error .cutShort)
            | _ => ([(key, found), (.error .malformed, .broken .malformed)], .error .malformed)
          | '}' :: rest => ([(key, found)], .ok rest)
          | [] => ([(key, found)], .error .cutShort)
          | _ => ([(key, found)], .error .malformed)
      | [] => ([(key, .absent)], .error .cutShort)
      | _ => ([(key, .broken .malformed)], .error .malformed)

end

/-! ## The fuel suffices -/

theorem literal_le {reading : Reading} {word text rest : List Char}
    (h : (literal reading word text).2 = .ok rest) : rest.length ≤ text.length := by
  fun_induction literal reading word text with
  | case1 => exact Nat.le_of_eq (congrArg List.length (Except.ok.inj h).symm)
  | case2 => simp at h
  | case3 _ _ _ ih => exact Nat.le_succ_of_le (ih h)
  | case4 => simp at h

theorem contents_shorter {text rest : List Char} (h : (contents text).2 = .ok rest) :
    rest.length < text.length := by
  unfold contents at h
  split at h
  · next eq =>
    obtain rfl := Except.ok.inj h
    exact readString_shorter eq
  · exact skipString_shorter h

/-- A value ends with a string, with the last of a literal or numeral, or with the bracket that
closes an array or object. -/
theorem value_cases {fuel : Nat} {text rest : List Char}
    (h : (value (fuel + 1) text).2 = .ok rest) :
    (∃ behind, skipSpace text = '"' :: behind ∧ (contents behind).2 = .ok rest) ∨
    (∃ behind, skipSpace text = '[' :: behind ∧
      (skipSpace behind = ']' :: rest ∨ (items fuel (skipSpace behind)).2 = .ok rest)) ∨
    (∃ behind, skipSpace text = '{' :: behind ∧
      (skipSpace behind = '}' :: rest ∨
        ∃ first, skipSpace behind = '"' :: first ∧ (entries fuel first).2 = .ok rest)) ∨
    (∃ c behind reading word, skipSpace text = c :: behind ∧
      (literal reading word behind).2 = .ok rest) ∨
    ∃ numeral, readNumeral (skipSpace text) = .ok (numeral, rest) := by
  rw [value] at h
  split at h
  · contradiction
  · next behind hstart => exact .inl ⟨behind, hstart, h⟩
  · next behind hstart =>
    refine .inr (.inl ⟨behind, hstart, ?_⟩)
    split at h
    · next last hclosed =>
      obtain rfl := Except.ok.inj h
      exact .inl hclosed
    · split at h
      · next found last hitems =>
        obtain rfl := Except.ok.inj h
        exact .inr (congrArg Prod.snd hitems)
      · contradiction
  · next behind hstart =>
    refine .inr (.inr (.inl ⟨behind, hstart, ?_⟩))
    split at h
    · next last hclosed =>
      obtain rfl := Except.ok.inj h
      exact .inl hclosed
    · next first hquote =>
      split at h
      · next found last hentries =>
        obtain rfl := Except.ok.inj h
        exact .inr ⟨first, hquote, congrArg Prod.snd hentries⟩
      · contradiction
    · contradiction
    · contradiction
  · next behind hstart => exact .inr (.inr (.inr (.inl ⟨_, behind, _, _, hstart, h⟩)))
  · next behind hstart => exact .inr (.inr (.inr (.inl ⟨_, behind, _, _, hstart, h⟩)))
  · next behind hstart => exact .inr (.inr (.inr (.inl ⟨_, behind, _, _, hstart, h⟩)))
  · next c behind _ _ _ _ _ _ hstart =>
    split at h
    · split at h
      · next numeral last hnumeral =>
        obtain rfl := Except.ok.inj h
        exact .inr (.inr (.inr (.inr ⟨numeral, hstart ▸ hnumeral⟩)))
      · contradiction
    · contradiction

/-- Items end with the bracket behind the last of them. -/
theorem items_cases {fuel : Nat} {text rest : List Char}
    (h : (items (fuel + 1) text).2 = .ok rest) :
    ∃ behind, (value fuel text).2 = .ok behind ∧
      (skipSpace behind = ']' :: rest ∨
        ∃ next, skipSpace behind = ',' :: next ∧ (items fuel next).2 = .ok rest) := by
  rw [items] at h
  split at h
  · contradiction
  · next item behind hvalue =>
    refine ⟨behind, congrArg Prod.snd hvalue, ?_⟩
    split at h
    · next following hcomma => exact .inr ⟨following, hcomma, h⟩
    · next last hclosed =>
      obtain rfl := Except.ok.inj h
      exact .inl hclosed
    · contradiction
    · contradiction

/-- Entries end with the brace behind the last value. -/
theorem entries_cases {fuel : Nat} {text rest : List Char}
    (h : (entries (fuel + 1) text).2 = .ok rest) :
    ∃ keyed written behind, (contents text).2 = .ok keyed ∧ skipSpace keyed = ':' :: written ∧
      (value fuel written).2 = .ok behind ∧
      (skipSpace behind = '}' :: rest ∨
        ∃ following first, skipSpace behind = ',' :: following ∧
          skipSpace following = '"' :: first ∧ (entries fuel first).2 = .ok rest) := by
  rw [entries] at h
  split at h
  · contradiction
  · next key keyed hkey =>
    split at h
    · next written hcolon =>
      split at h
      · contradiction
      · next found behind hvalue =>
        refine ⟨keyed, written, behind, congrArg Prod.snd hkey, hcolon,
          congrArg Prod.snd hvalue, ?_⟩
        split at h
        · next following hcomma =>
          split at h
          · next first hquote => exact .inr ⟨following, first, hcomma, hquote, h⟩
          · contradiction
          · contradiction
        · next last hclosed =>
          obtain rfl := Except.ok.inj h
          exact .inl hclosed
        · contradiction
        · contradiction
    · contradiction
    · contradiction

/-- A reader leaves no more text than it is given. -/
def Shrinks {α : Type} (read : List Char → α × Except Problem (List Char)) : Prop :=
  ∀ text rest, (read text).2 = .ok rest → rest.length ≤ text.length

theorem shrinks_value {fuel : Nat} (hitems : Shrinks (items fuel))
    (hentries : Shrinks (entries fuel)) : Shrinks (value (fuel + 1)) := by
  intro text rest h
  rcases value_cases h with ⟨behind, hstart, h⟩ | ⟨behind, hstart, h⟩ | ⟨behind, hstart, h⟩ |
    ⟨c, behind, reading, word, hstart, h⟩ | ⟨numeral, h⟩
  · have hbehind := skipSpace_shorter hstart
    have hrest := contents_shorter h
    omega
  · have hbehind := skipSpace_shorter hstart
    rcases h with hclosed | h
    · have hrest := skipSpace_shorter hclosed
      omega
    · have hrest := Nat.le_trans (hitems _ _ h) (length_skipSpace_le behind)
      omega
  · have hbehind := skipSpace_shorter hstart
    rcases h with hclosed | ⟨first, hquote, h⟩
    · have hrest := skipSpace_shorter hclosed
      omega
    · have hfirst := skipSpace_shorter hquote
      have hrest := hentries _ _ h
      omega
  · have hbehind := skipSpace_shorter hstart
    have hrest := literal_le h
    omega
  · exact Nat.le_trans (readNumeral_le h) (length_skipSpace_le text)

theorem shrinks_items {fuel : Nat} (hvalue : Shrinks (value fuel)) (hitems : Shrinks (items fuel)) :
    Shrinks (items (fuel + 1)) := by
  intro text rest h
  obtain ⟨behind, h, hafter⟩ := items_cases h
  have hbehind := hvalue _ _ h
  rcases hafter with hclosed | ⟨following, hcomma, h⟩
  · have hrest := skipSpace_shorter hclosed
    omega
  · have hfollowing := skipSpace_shorter hcomma
    have hrest := hitems _ _ h
    omega

theorem shrinks_entries {fuel : Nat} (hvalue : Shrinks (value fuel))
    (hentries : Shrinks (entries fuel)) : Shrinks (entries (fuel + 1)) := by
  intro text rest h
  obtain ⟨keyed, written, behind, hkey, hcolon, h, hafter⟩ := entries_cases h
  have hkeyed := contents_shorter hkey
  have hwritten := skipSpace_shorter hcolon
  have hbehind := hvalue _ _ h
  rcases hafter with hclosed | ⟨following, first, hcomma, hquote, h⟩
  · have hrest := skipSpace_shorter hclosed
    omega
  · have hfollowing := skipSpace_shorter hcomma
    have hfirst := skipSpace_shorter hquote
    have hrest := hentries _ _ h
    omega

/-- What is left behind a value is no longer than the text it was read from. -/
theorem shrinks (fuel : Nat) :
    Shrinks (value fuel) ∧ Shrinks (items fuel) ∧ Shrinks (entries fuel) := by
  induction fuel with
  | zero => simp [Shrinks, value, items, entries]
  | succ fuel ih =>
    obtain ⟨hvalue, hitems, hentries⟩ := ih
    exact ⟨shrinks_value hitems hentries, shrinks_items hvalue hitems,
      shrinks_entries hvalue hentries⟩

section

variable {m n : Nat} {text : List Char}

theorem value_congr (hitems : ∀ inner, inner.length < text.length → items m inner = items n inner)
    (hentries : ∀ inner, inner.length < text.length → entries m inner = entries n inner) :
    value (m + 1) text = value (n + 1) text := by
  rw [value, value]
  split
  · rfl
  · rfl
  · next behind hstart =>
    have hbehind := skipSpace_shorter hstart
    split
    · rfl
    · rw [hitems _ (Nat.lt_of_le_of_lt (length_skipSpace_le behind) hbehind)]
  · next behind hstart =>
    have hbehind := skipSpace_shorter hstart
    split
    · rfl
    · next first hquote => rw [hentries first (Nat.lt_trans (skipSpace_shorter hquote) hbehind)]
    · rfl
    · rfl
  · rfl
  · rfl
  · rfl
  · rfl

theorem items_congr (hvalue : value m text = value n text)
    (hitems : ∀ inner, inner.length < text.length → items m inner = items n inner) :
    items (m + 1) text = items (n + 1) text := by
  rw [items, items, hvalue]
  split
  · rfl
  · next item behind heq =>
    have hbehind := (shrinks n).1 _ _ (congrArg Prod.snd heq)
    split
    · next following hcomma =>
      rw [hitems following (Nat.lt_of_lt_of_le (skipSpace_shorter hcomma) hbehind)]
    · rfl
    · rfl
    · rfl

theorem entries_congr
    (hvalue : ∀ inner, inner.length < text.length → value m inner = value n inner)
    (hentries : ∀ inner, inner.length < text.length → entries m inner = entries n inner) :
    entries (m + 1) text = entries (n + 1) text := by
  rw [entries, entries]
  split
  · rfl
  · next key keyed hkey =>
    have hkeyed := contents_shorter (congrArg Prod.snd hkey)
    split
    · next written hcolon =>
      have hwritten := Nat.lt_trans (skipSpace_shorter hcolon) hkeyed
      rw [hvalue written hwritten]
      split
      · rfl
      · next found behind heq =>
        have hbehind := (shrinks n).1 _ _ (congrArg Prod.snd heq)
        split
        · next following hcomma =>
          have hfollowing := skipSpace_shorter hcomma
          split
          · next first hquote =>
            have hfirst := skipSpace_shorter hquote
            rw [hentries first (by omega)]
          · rfl
          · rfl
        · rfl
        · rfl
        · rfl
    · rfl
    · rfl

end

/-- Fuel for every character of a text suffices: more of it changes nothing. -/
theorem succ_fuel (fuel : Nat) :
    (∀ text, 2 * text.length < fuel → value (fuel + 1) text = value fuel text) ∧
    (∀ text, 2 * text.length + 1 < fuel → items (fuel + 1) text = items fuel text) ∧
    (∀ text, 2 * text.length + 1 < fuel → entries (fuel + 1) text = entries fuel text) := by
  induction fuel with
  | zero => simp
  | succ fuel ih =>
    obtain ⟨hvalue, hitems, hentries⟩ := ih
    refine ⟨?_, ?_, ?_⟩
    · intro text h
      exact value_congr (fun inner hinner => hitems inner (by omega))
        fun inner hinner => hentries inner (by omega)
    · intro text h
      exact items_congr (hvalue text (by omega)) fun inner hinner => hitems inner (by omega)
    · intro text h
      exact entries_congr (fun inner hinner => hvalue inner (by omega))
        fun inner hinner => hentries inner (by omega)

/-- A text is read the same with any fuel that is enough for it. -/
theorem value_of_le {text : List Char} {m n : Nat} (h : 2 * text.length < m) (le : m ≤ n) :
    value n text = value m text := by
  induction le with
  | refl => rfl
  | step le ih => exact ((succ_fuel _).1 text (Nat.lt_of_lt_of_le h le)).trans ih

/-! ## Reading a whole text -/

/-- Reads the whole of a text with a reader of values. Nothing but white space may follow the
value. -/
def run {α : Type} (read : Reading → Except Problem α) (text : String) : Except Problem α := do
  let (found, next) := value (2 * text.length + 1) text.toList
  let a ← read found
  let rest ← next
  if (skipSpace rest).isEmpty then return a else throw .malformed

/-! ## Values of any kind -/

mutual

/-- A whole value, with at most `room` containers around each other. -/
def toJson (room : Nat) : Reading → Except Problem Json
  | null => .ok .null
  | bool b => .ok (.bool b)
  | number (.ok numeral) => .ok (.number numeral)
  | string (.ok contents) => .ok (.string contents)
  | array items stop =>
    if room = 0 then .error .malformed
    else
      match itemsToJson (room - 1) items with
      | .error problem => .error problem
      | .ok found =>
        match stop with
        | none => .ok (.array found)
        | some problem => .error problem
  | object entries stop =>
    if room = 0 then .error .malformed
    else
      match entriesToJson (room - 1) entries with
      | .error problem => .error problem
      | .ok found =>
        match stop with
        | none => .ok (.object found)
        | some problem => .error problem
  | reading => .error reading.misfit

/-- The items of an array as whole values. -/
def itemsToJson (room : Nat) : List Reading → Except Problem (List Json)
  | [] => .ok []
  | item :: items =>
    match item.toJson room with
    | .error problem => .error problem
    | .ok value =>
      match itemsToJson room items with
      | .error problem => .error problem
      | .ok values => .ok (value :: values)

/-- The entries of an object as fields with whole values. -/
def entriesToJson (room : Nat) :
    List (Except Problem String × Reading) → Except Problem (List (String × Json))
  | [] => .ok []
  | (.error problem, _) :: _ => .error problem
  | (.ok key, item) :: entries =>
    match item.toJson room with
    | .error problem => .error problem
    | .ok value =>
      match entriesToJson room entries with
      | .error problem => .error problem
      | .ok fields => .ok ((key, value) :: fields)

end

end Reading

/-- The number of containers that may stand around each other. -/
def maxDepth : Nat := 127

/-- The value that a text holds. -/
def parse (text : String) : Except Problem Json := Reading.run (Reading.toJson maxDepth) text

end WebFonts.Json
