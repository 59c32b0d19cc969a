import Mathlib.Data.List.Basic
import Mathlib.Data.Nat.Digits.Defs
import WebFonts.Json.Record

/-! # Values as they are written

The text of a value is read as that value, whatever follows it. -/

namespace WebFonts.Json

open Text

/-! ## Strings -/

theorem readString_quote (rest : List Char) : readString ('"' :: rest) = .ok ([], rest) := by
  rw [readString, if_pos rfl]

/-- A reader of strings goes on behind a character. -/
theorem readString_of_ordinary {c : Char} (hquote : c ≠ '"') (hslash : c ≠ '\\')
    (hcontrol : ¬c.toNat < 0x20) {rest contents last : List Char}
    (hrest : readString rest = .ok (contents, last)) :
    readString (c :: rest) = .ok (c :: contents, last) := by
  rw [readString, if_neg hquote, if_neg hslash, if_neg hcontrol, hrest]

theorem readString_of_escape {e : Char} {text behind contents last : List Char}
    (hescape : readEscape text = .ok (e, behind))
    (hbehind : readString behind = .ok (contents, last)) :
    readString ('\\' :: text) = .ok (e :: contents, last) := by
  rw [readString, if_neg (by decide), if_pos rfl]
  split
  · simp_all
  · simp_all

theorem hexValue?_digitChar : ∀ n < 16, hexValue? (Nat.digitChar n) = some n := by decide

theorem length_le_utf8Width (text : List Char) : text.length ≤ utf8Width text := by
  induction text with
  | nil => exact Nat.le_refl 0
  | cons c text ih =>
    have := c.utf8Size_pos
    simp only [List.length_cons, utf8Width]
    omega

/-- The escape of a control character. -/
theorem readEscape_control {c : Char} (h : c.toNat < 0x20) (text : List Char) :
    readEscape ('u' :: '0' :: '0' :: Nat.digitChar (c.toNat / 16) ::
      Nat.digitChar (c.toNat % 16) :: text) = .ok (c, text) := by
  have hhigh := hexValue?_digitChar (c.toNat / 16) (by omega)
  have hlow := hexValue?_digitChar (c.toNat % 16) (by omega)
  have hzero : hexValue? '0' = some 0 := rfl
  have hvalue : ((0 * 16 + 0) * 16 + c.toNat / 16) * 16 + c.toNat % 16 = c.toNat := by omega
  have hhex : readHex ('0' :: '0' :: Nat.digitChar (c.toNat / 16) ::
      Nat.digitChar (c.toNat % 16) :: text) = .ok (c.toNat, text) := by
    have hwidth : 4 ≤ utf8Width (('0' :: '0' :: Nat.digitChar (c.toNat / 16) ::
        Nat.digitChar (c.toNat % 16) :: text).take 4) := length_le_utf8Width (_ :: _ :: _ :: [_])
    rw [readHex, if_neg (Nat.not_lt.mpr hwidth)]
    simp only [hzero, hhigh, hlow, hvalue]
  rw [readEscape, readUnicode, hhex]
  simp only
  rw [if_neg (by omega), if_neg (by omega), Char.ofNat_toNat]

/-- A character is read from its spelling. -/
theorem readString_escape_append (c : Char) {text contents rest : List Char}
    (h : readString text = .ok (contents, rest)) :
    readString (escape c ++ text) = .ok (c :: contents, rest) := by
  unfold escape
  split_ifs with hquote hslash hb ht hn hf hr hcontrol
  · subst hquote
    exact readString_of_escape rfl h
  · subst hslash
    exact readString_of_escape rfl h
  · subst hb
    exact readString_of_escape rfl h
  · subst ht
    exact readString_of_escape rfl h
  · subst hn
    exact readString_of_escape rfl h
  · subst hf
    exact readString_of_escape rfl h
  · subst hr
    exact readString_of_escape rfl h
  · exact readString_of_escape (readEscape_control hcontrol text) h
  · exact readString_of_ordinary hquote hslash hcontrol h

theorem readString_quote_append (chars rest : List Char) :
    readString (chars.flatMap escape ++ '"' :: rest) = .ok (chars, rest) := by
  induction chars with
  | nil => exact readString_quote rest
  | cons c chars ih =>
    rw [List.flatMap_cons, List.append_assoc]
    exact readString_escape_append c ih

theorem contents_quote_append (s : String) (rest : List Char) :
    Reading.contents (s.toList.flatMap escape ++ '"' :: rest) = (.ok s, .ok rest) := by
  rw [Reading.contents, readString_quote_append]
  simp

/-! ## What values are read as -/

/-- What may follow a value: the end of the text, or a mark behind an item. -/
def EndsItem (rest : List Char) : Prop := ∀ c ∈ rest.head?, c ∈ [',', ']', '}']

/-- A numeral is read as it is written. -/
structure IsReadable (numeral : Numeral) : Prop where
  readNumeral_append : ∀ rest, EndsItem rest →
    readNumeral (numeral.toChars ++ rest) = .ok (numeral, rest)
  inRange : Reading.inRange numeral = .ok numeral

mutual

/-- All numerals in a value are read as they are written. -/
def Readable : Json → Prop
  | .number numeral => IsReadable numeral
  | .array items => ItemsReadable items
  | .object fields => FieldsReadable fields
  | _ => True

def ItemsReadable : List Json → Prop
  | [] => True
  | item :: items => item.Readable ∧ ItemsReadable items

def FieldsReadable : List (String × Json) → Prop
  | [] => True
  | (_, value) :: fields => value.Readable ∧ FieldsReadable fields

end

mutual

/-- What is found where a value stands. -/
def toReading : Json → Reading
  | .null => .null
  | .bool b => .bool b
  | .number numeral => .number (.ok numeral)
  | .string s => .string (.ok s)
  | .array items => .array (itemsToReadings items) none
  | .object fields => .object (fieldsToEntries fields) none

def itemsToReadings : List Json → List Reading
  | [] => []
  | item :: items => item.toReading :: itemsToReadings items

def fieldsToEntries : List (String × Json) → List (Except Problem String × Reading)
  | [] => []
  | (key, value) :: fields => (.ok key, value.toReading) :: fieldsToEntries fields

end

/-! ## The start of a value -/

theorem skipSpace_of_ne {c : Char} (h : isSpace c = false) (rest : List Char) :
    skipSpace (c :: rest) = c :: rest := by
  rw [skipSpace, List.dropWhile_cons_of_neg (by simp [h])]

/-- A numeral starts with a sign or a digit. -/
theorem isDigit_of_readNumeral {c : Char} {text rest : List Char} {numeral : Numeral}
    (h : readNumeral (c :: text) = .ok (numeral, rest)) : c = '-' ∨ c.isDigit = true := by
  by_cases hmark : c = '-'
  · exact .inl hmark
  · by_cases hdigit : c.isDigit = true
    · exact .inr hdigit
    · have hwhole : readWhole (c :: text) = .error .malformed := by
        have hzero : c ≠ '0' := by
          rintro rfl
          exact hdigit rfl
        rw [readWhole, readDigits, if_neg hdigit]
        exact fun d rest he => hzero (List.cons.inj he).1
      simp [readNumeral, hmark, hwhole, bind, Except.bind] at h

theorem ne_of_startsNumeral {c d : Char} (h : c = '-' ∨ c.isDigit = true) (hmark : d ≠ '-')
    (hdigit : d.isDigit = false) : c ≠ d := by
  rintro rfl
  simp [hmark, hdigit] at h

/-- The characters that a value can start with. -/
def StartsValue (c : Char) : Prop := c ∈ ['n', 't', 'f', '"', '[', '\x7b', '-'] ∨ c.isDigit = true

theorem StartsValue.isSpace_eq {c : Char} (h : StartsValue c) : isSpace c = false ∧ c ≠ ']' := by
  rcases h with h | h
  · simp only [List.mem_cons, List.not_mem_nil, or_false] at h
    rcases h with rfl | rfl | rfl | rfl | rfl | rfl | rfl <;> decide
  · have hne : ∀ d : Char, d ≠ '-' → d.isDigit = false → c ≠ d := fun d =>
      ne_of_startsNumeral (.inr h)
    simp [isSpace, hne ' ', hne '\t', hne '\n', hne '\r', hne ']']

theorem Readable.exists_cons {json : Json} (h : json.Readable) :
    ∃ c text, json.toChars = c :: text ∧ StartsValue c := by
  cases json with
  | null => exact ⟨'n', "ull".toList, rfl, .inl (by decide)⟩
  | bool b =>
    cases b with
    | true => exact ⟨'t', "rue".toList, rfl, .inl (by decide)⟩
    | false => exact ⟨'f', "alse".toList, rfl, .inl (by decide)⟩
  | number numeral =>
    have hread := (h : IsReadable numeral).readNumeral_append [] (by simp [EndsItem])
    rw [List.append_nil] at hread
    rw [toChars]
    cases htext : numeral.toChars with
    | nil =>
      rw [htext] at hread
      simp [readNumeral, readWhole, readDigits, bind, Except.bind] at hread
    | cons c text =>
      rw [htext] at hread
      refine ⟨c, text, rfl, ?_⟩
      rcases isDigit_of_readNumeral hread with rfl | hdigit
      · exact .inl (by decide)
      · exact .inr hdigit
  | string s => exact ⟨'"', _, rfl, .inl (by decide)⟩
  | array items => exact ⟨'[', _, rfl, .inl (by decide)⟩
  | object fields => exact ⟨'\x7b', _, rfl, .inl (by decide)⟩

theorem itemsToChars_cons (item : Json) (items : List Json) :
    ∃ rest, itemsToChars (item :: items) = item.toChars ++ rest := by
  cases items with
  | nil => exact ⟨[], (List.append_nil _).symm⟩
  | cons next items => exact ⟨_, rfl⟩

theorem itemsToChars_exists_cons {item : Json} (h : item.Readable) (items : List Json) :
    ∃ c text, itemsToChars (item :: items) = c :: text ∧ StartsValue c := by
  obtain ⟨c, text, htext, hstart⟩ := h.exists_cons
  obtain ⟨rest, hrest⟩ := itemsToChars_cons item items
  exact ⟨c, text ++ rest, by rw [hrest, htext]; rfl, hstart⟩

/-! ## Reading one value -/

namespace Reading

theorem value_string (fuel : Nat) (text : List Char) :
    value (fuel + 1) ('"' :: text) = (.string (contents text).1, (contents text).2) := by
  rw [value, skipSpace_of_ne rfl]
  rfl

theorem value_of_numeral {fuel : Nat} {text rest : List Char} {numeral : Numeral}
    (h : readNumeral text = .ok (numeral, rest)) :
    value (fuel + 1) text = (.number (inRange numeral), .ok rest) := by
  cases text with
  | nil => simp [readNumeral, readWhole, readDigits, bind, Except.bind] at h
  | cons c text =>
    have hstart := isDigit_of_readNumeral h
    have hne : ∀ d : Char, d ≠ '-' → d.isDigit = false → c ≠ d := fun d =>
      ne_of_startsNumeral hstart
    have hspace : isSpace c = false := by
      simp [isSpace, hne ' ', hne '\t', hne '\n', hne '\r']
    rw [value, skipSpace_of_ne hspace]
    split
    · contradiction
    · rename_i he
      exact (hne '"' (by decide) rfl (List.cons.inj he).1).elim
    · rename_i he
      exact (hne '[' (by decide) rfl (List.cons.inj he).1).elim
    · rename_i he
      exact (hne '\x7b' (by decide) rfl (List.cons.inj he).1).elim
    · rename_i he
      exact (hne 'n' (by decide) rfl (List.cons.inj he).1).elim
    · rename_i he
      exact (hne 't' (by decide) rfl (List.cons.inj he).1).elim
    · rename_i he
      exact (hne 'f' (by decide) rfl (List.cons.inj he).1).elim
    · rename_i he
      obtain ⟨rfl, rfl⟩ := List.cons.inj he
      rw [if_pos hstart, h]

theorem value_array {fuel : Nat} {c : Char} {text rest : List Char} {found : List Reading}
    (hspace : isSpace c = false) (hc : c ≠ ']')
    (h : items fuel (c :: text) = (found, .ok rest)) :
    value (fuel + 1) ('[' :: c :: text) = (.array found none, .ok rest) := by
  rw [value, skipSpace_of_ne rfl]
  simp only [skipSpace_of_ne hspace]
  split
  · rename_i he
    exact (hc (List.cons.inj he).1).elim
  · rw [h]

theorem value_object {fuel : Nat} {text rest : List Char}
    {found : List (Except Problem String × Reading)}
    (h : entries fuel text = (found, .ok rest)) :
    value (fuel + 1) ('\x7b' :: '"' :: text) = (.object found none, .ok rest) := by
  rw [value, skipSpace_of_ne rfl]
  simp only [skipSpace_of_ne (show isSpace '"' = false from rfl), h]

theorem items_last {fuel : Nat} {text rest : List Char} {item : Reading}
    (h : value fuel text = (item, .ok (']' :: rest))) :
    items (fuel + 1) text = ([item], .ok rest) := by
  rw [items, h]
  simp only [skipSpace_of_ne (show isSpace ']' = false from rfl)]

theorem items_cons {fuel : Nat} {text behind rest : List Char} {item : Reading}
    {others : List Reading} (h : value fuel text = (item, .ok (',' :: behind)))
    (h' : items fuel behind = (others, .ok rest)) :
    items (fuel + 1) text = (item :: others, .ok rest) := by
  rw [items, h]
  simp only [skipSpace_of_ne (show isSpace ',' = false from rfl), h']

theorem entries_last {fuel : Nat} {text behind rest : List Char} {key : Except Problem String}
    {found : Reading} (hkey : contents text = (key, .ok (':' :: behind)))
    (h : value fuel behind = (found, .ok ('\x7d' :: rest))) :
    entries (fuel + 1) text = ([(key, found)], .ok rest) := by
  rw [entries, hkey]
  simp only [skipSpace_of_ne (show isSpace ':' = false from rfl), h,
    skipSpace_of_ne (show isSpace '\x7d' = false from rfl)]

theorem entries_cons {fuel : Nat} {text behind more rest : List Char} {key : Except Problem String}
    {found : Reading} {others : List (Except Problem String × Reading)}
    (hkey : contents text = (key, .ok (':' :: behind)))
    (h : value fuel behind = (found, .ok (',' :: '"' :: more)))
    (h' : entries fuel more = (others, .ok rest)) :
    entries (fuel + 1) text = ((key, found) :: others, .ok rest) := by
  rw [entries, hkey]
  simp only [skipSpace_of_ne (show isSpace ':' = false from rfl), h,
    skipSpace_of_ne (show isSpace ',' = false from rfl),
    skipSpace_of_ne (show isSpace '"' = false from rfl), h']

end Reading

/-! ## Reading a whole value -/

theorem EndsItem.cons {c : Char} (h : c ∈ [',', ']', '\x7d']) (rest : List Char) :
    EndsItem (c :: rest) := by
  rintro d hd
  obtain rfl := Option.some.inj hd
  exact h

mutual

/-- A value is read from its text, whatever follows that ends an item. -/
theorem value_append (json : Json) (h : json.Readable) (fuel : Nat)
    (hfuel : 2 * json.toChars.length < fuel) (rest : List Char) (hrest : EndsItem rest) :
    Reading.value fuel (json.toChars ++ rest) = (json.toReading, .ok rest) := by
  cases fuel with
  | zero => exact absurd hfuel (Nat.not_lt_zero _)
  | succ fuel =>
    match json with
    | .null => rfl
    | .bool true => rfl
    | .bool false => rfl
    | .number numeral =>
      have hnumeral : IsReadable numeral := h
      rw [toChars, Reading.value_of_numeral (hnumeral.readNumeral_append rest hrest),
        hnumeral.inRange, toReading]
    | .string s =>
      rw [toChars, quote, List.cons_append, Reading.value_string, List.append_assoc,
        List.singleton_append, contents_quote_append, toReading]
    | .array [] => rfl
    | .array (item :: items) =>
      simp only [toChars, List.length_cons, List.length_append, List.length_nil] at hfuel
      have hitems := items_append item items h fuel (by omega) rest
      obtain ⟨c, text, htext, hstart⟩ := itemsToChars_exists_cons h.1 items
      rw [htext, List.cons_append] at hitems
      rw [toChars, htext, List.cons_append, List.append_assoc, List.cons_append,
        List.singleton_append, Reading.value_array hstart.isSpace_eq.1 hstart.isSpace_eq.2 hitems,
        toReading]
    | .object [] => rfl
    | .object ((key, value) :: fields) =>
      simp only [toChars, List.length_cons, List.length_append, List.length_nil] at hfuel
      obtain ⟨text, htext, hentries⟩ := entries_append key value fields h fuel (by omega) rest
      have hobject := Reading.value_object hentries
      rw [← htext] at hobject
      rw [toChars, List.cons_append, List.append_assoc, List.singleton_append, hobject, toReading]
termination_by fuel

/-- The items of an array are read up to its end. -/
theorem items_append (item : Json) (items : List Json) (h : ItemsReadable (item :: items))
    (fuel : Nat) (hfuel : 2 * (itemsToChars (item :: items)).length + 1 < fuel)
    (rest : List Char) :
    Reading.items fuel (itemsToChars (item :: items) ++ ']' :: rest) =
      (itemsToReadings (item :: items), .ok rest) := by
  cases fuel with
  | zero => exact absurd hfuel (Nat.not_lt_zero _)
  | succ fuel =>
    match items with
    | [] =>
      rw [itemsToChars] at hfuel
      have hitem := value_append item h.1 fuel (by omega) (']' :: rest) (.cons (by decide) rest)
      rw [itemsToChars, Reading.items_last hitem]
      rfl
    | next :: items =>
      have htext : itemsToChars (item :: next :: items) =
          item.toChars ++ ',' :: itemsToChars (next :: items) := rfl
      rw [htext, List.length_append, List.length_cons] at hfuel
      have hitem := value_append item h.1 fuel (by omega)
        (',' :: (itemsToChars (next :: items) ++ ']' :: rest)) (.cons (by decide) _)
      have hitems := items_append next items h.2 fuel (by omega) rest
      rw [htext, List.append_assoc, List.cons_append, Reading.items_cons hitem hitems]
      rfl
termination_by fuel

/-- The entries of an object are read up to its end. -/
theorem entries_append (key : String) (value : Json) (fields : List (String × Json))
    (h : FieldsReadable ((key, value) :: fields)) (fuel : Nat)
    (hfuel : 2 * (fieldsToChars ((key, value) :: fields)).length + 1 < fuel) (rest : List Char) :
    ∃ text, fieldsToChars ((key, value) :: fields) ++ '\x7d' :: rest = '"' :: text ∧
      Reading.entries fuel text = (fieldsToEntries ((key, value) :: fields), .ok rest) := by
  cases fuel with
  | zero => exact absurd hfuel (Nat.not_lt_zero _)
  | succ fuel =>
    match fields with
    | [] =>
      simp only [fieldsToChars, List.length_append, List.length_cons] at hfuel
      have hvalue := value_append value h.1 fuel (by omega) ('\x7d' :: rest)
        (.cons (by decide) rest)
      have hkey := contents_quote_append key (':' :: (value.toChars ++ '\x7d' :: rest))
      exact ⟨_, by simp [fieldsToChars, quote], Reading.entries_last hkey hvalue⟩
    | (key', value') :: fields =>
      have htext : fieldsToChars ((key, value) :: (key', value') :: fields) =
          quote key ++ ':' :: (value.toChars ++ ',' :: fieldsToChars ((key', value') :: fields)) :=
        rfl
      simp only [htext, List.length_append, List.length_cons] at hfuel
      obtain ⟨more, hmore, hentries⟩ := entries_append key' value' fields h.2 fuel (by omega) rest
      have hvalue := value_append value h.1 fuel (by omega)
        (',' :: (fieldsToChars ((key', value') :: fields) ++ '\x7d' :: rest)) (.cons (by decide) _)
      rw [hmore] at hvalue
      have hkey := contents_quote_append key (':' :: (value.toChars ++ ',' :: '"' :: more))
      refine ⟨_, ?_, Reading.entries_cons hkey hvalue hentries⟩
      rw [htext, ← hmore]
      simp [quote]
termination_by fuel

end

/-- A reader of the text of a value meets what stands for that value, and nothing behind it. -/
theorem run_render {α : Type} (read : Reading → Except Problem α) {json : Json}
    (h : json.Readable) : Reading.run read json.render = read json.toReading := by
  have hvalue := value_append json h (2 * json.toChars.length + 1) (Nat.lt_succ_self _) []
    (by simp [EndsItem])
  rw [List.append_nil] at hvalue
  rw [Reading.run, render, String.toList_ofList, String.length_ofList, hvalue]
  dsimp only
  cases read json.toReading <;> rfl

/-! ## Numbers -/

/-- Only zero starts with a zero. -/
theorem head?_toDigits {n : Nat} (h : 0 < n) : (Nat.toDigits 10 n).head? ≠ some '0' := by
  induction n using Nat.strongRecOn with
  | ind n ih =>
    rw [Nat.toDigits_eq_if (by decide)]
    split
    · rename_i hlt
      have hall : ∀ m < 10, 0 < m → Nat.digitChar m ≠ '0' := by decide
      simpa using hall n hlt h
    · have hne : Nat.toDigits 10 (n / 10) ≠ [] := Nat.toDigits_ne_nil
      rw [List.head?_append_of_ne_nil _ hne]
      exact ih (n / 10) (by omega) (by omega)

theorem readDigits_append {digits rest : List Char} (hne : digits ≠ [])
    (hdigits : ∀ c ∈ digits, c.isDigit = true) (hrest : ∀ c ∈ rest.head?, c.isDigit = false) :
    readDigits (digits ++ rest) = .ok (digits, rest) := by
  have htake : (digits ++ rest).takeWhile Char.isDigit = digits := by
    rw [List.takeWhile_append_of_pos hdigits, List.append_right_eq_self]
    cases rest with
    | nil => rfl
    | cons c rest => simp [hrest c rfl]
  have hdrop : (digits ++ rest).dropWhile Char.isDigit = rest := by
    rw [List.dropWhile_append_of_pos hdigits]
    cases rest with
    | nil => rfl
    | cons c rest => simp [hrest c rfl]
  cases digits with
  | nil => exact (hne rfl).elim
  | cons c digits =>
    rw [List.cons_append, readDigits, if_pos (hdigits c List.mem_cons_self), ← List.cons_append,
      htake, hdrop]

theorem readWhole_toDigits (n : Nat) {rest : List Char} (h : EndsItem rest) :
    readWhole (Nat.toDigits 10 n ++ rest) = .ok (Nat.toDigits 10 n, rest) := by
  have hmarks : ∀ c ∈ [',', ']', '\x7d'], c.isDigit = false := by simp
  have hrest : ∀ c ∈ rest.head?, c.isDigit = false := fun c hc => hmarks c (h c hc)
  have hdigits : ∀ c ∈ Nat.toDigits 10 n, c.isDigit = true := fun c =>
    Nat.isDigit_of_mem_toDigits (by decide) (by decide)
  unfold readWhole
  split
  · rename_i c behind he
    rcases Nat.eq_zero_or_pos n with rfl | hn
    · obtain rfl : rest = c :: behind := (List.cons.inj he).2
      simp [hrest c rfl]
    · have hhead := congrArg List.head? he
      rw [List.head?_append_of_ne_nil _ Nat.toDigits_ne_nil] at hhead
      exact (head?_toDigits hn hhead).elim
  · exact readDigits_append Nat.toDigits_ne_nil hdigits hrest

theorem readNumeral_ofNat_append (n : Nat) (rest : List Char) (h : EndsItem rest) :
    readNumeral ((Numeral.ofNat n).toChars ++ rest) = .ok (Numeral.ofNat n, rest) := by
  have htext : (Numeral.ofNat n).toChars = Nat.toDigits 10 n := by
    simp [Numeral.toChars, Numeral.ofNat]
  have hsign : (Nat.toDigits 10 n ++ rest).head? ≠ some '-' := by
    rw [List.head?_append_of_ne_nil _ Nat.toDigits_ne_nil]
    intro hhead
    have hdigit := Nat.isDigit_of_mem_toDigits (by decide) (by decide) (List.mem_of_head? hhead)
    contradiction
  have hfraction : readFraction rest = .ok (none, rest) := by
    unfold readFraction
    split
    · exact absurd (h _ rfl) (by decide)
    · rfl
  have hexponent : readExponent rest = .ok (none, rest) := by
    cases rest with
    | nil => rfl
    | cons c rest =>
      have hmarks : ∀ d ∈ [',', ']', '\x7d'], ¬(d = 'e' ∨ d = 'E') := by simp
      rw [readExponent, if_neg (hmarks c (h c rfl))]
  have hpositive : ((Nat.toDigits 10 n ++ rest).head? == some '-') = false :=
    beq_eq_false_iff_ne.mpr hsign
  rw [htext, readNumeral]
  simp only [hpositive, Bool.false_eq_true, ↓reduceIte, readWhole_toDigits n h, hfraction,
    hexponent, bind, Except.bind, pure, Except.pure]
  rfl

/-- A byte is read as it is written. -/
theorem isReadable_byte (b : UInt8) : IsReadable (Numeral.ofNat b.toNat) := by
  have hbytes : ∀ n < 256, (Numeral.ofNat n).toDouble?.isSome = true := by decide +kernel
  refine ⟨readNumeral_ofNat_append b.toNat, ?_⟩
  rw [Reading.inRange, if_pos (hbytes b.toNat b.toNat_lt)]

theorem byte_ofNat (b : UInt8) :
    Reading.byte (.number (.ok (Numeral.ofNat b.toNat))) = .ok b := by
  have hbytes : ∀ n < 256, (Numeral.ofNat n).toNat? = some n := by decide +kernel
  simp [Reading.byte, hbytes b.toNat b.toNat_lt, b.toNat_lt]

/-! ## Values of any kind -/

mutual

/-- The number of containers that stand around each other in a value. -/
def depth : Json → Nat
  | .array items => itemsDepth items + 1
  | .object fields => fieldsDepth fields + 1
  | _ => 0

def itemsDepth : List Json → Nat
  | [] => 0
  | item :: items => max item.depth (itemsDepth items)

def fieldsDepth : List (String × Json) → Nat
  | [] => 0
  | (_, value) :: fields => max value.depth (fieldsDepth fields)

end

mutual

/-- A value that is not too deep is read as a whole. -/
theorem toJson_toReading (json : Json) {room : Nat} (h : json.depth ≤ room) :
    json.toReading.toJson room = .ok json := by
  match json with
  | .null => rfl
  | .bool b => rfl
  | .number numeral => rfl
  | .string s => rfl
  | .array items =>
    rw [depth] at h
    have hitems := itemsToJson_itemsToReadings items (show itemsDepth items ≤ room - 1 by omega)
    rw [toReading, Reading.toJson, if_neg (by omega), hitems]
  | .object fields =>
    rw [depth] at h
    have hfields := entriesToJson_fieldsToEntries fields
      (show fieldsDepth fields ≤ room - 1 by omega)
    rw [toReading, Reading.toJson, if_neg (by omega), hfields]

theorem itemsToJson_itemsToReadings (items : List Json) {room : Nat} (h : itemsDepth items ≤ room) :
    Reading.itemsToJson room (itemsToReadings items) = .ok items := by
  match items with
  | [] => rfl
  | item :: items =>
    rw [itemsDepth] at h
    have hitem := toJson_toReading item (show item.depth ≤ room by omega)
    have hitems := itemsToJson_itemsToReadings items (show itemsDepth items ≤ room by omega)
    rw [itemsToReadings, Reading.itemsToJson, hitem, hitems]

theorem entriesToJson_fieldsToEntries (fields : List (String × Json)) {room : Nat}
    (h : fieldsDepth fields ≤ room) :
    Reading.entriesToJson room (fieldsToEntries fields) = .ok fields := by
  match fields with
  | [] => rfl
  | (key, value) :: fields =>
    rw [fieldsDepth] at h
    have hvalue := toJson_toReading value (show value.depth ≤ room by omega)
    have hfields := entriesToJson_fieldsToEntries fields (show fieldsDepth fields ≤ room by omega)
    rw [fieldsToEntries, Reading.entriesToJson, hvalue, hfields]

end

/-! ## Lists -/

/-- A list is read item by item. -/
theorem list_map {α : Type} {write : α → Json} {read : Reading → Except Problem α}
    (h : ∀ a, read (write a).toReading = .ok a) (as : List α) :
    Reading.list read (Json.array (as.map write)).toReading = .ok as := by
  have heach : Reading.each read (itemsToReadings (as.map write)) = .ok as := by
    induction as with
    | nil => rfl
    | cons a as ih =>
      rw [List.map_cons, itemsToReadings, Reading.each, h, ih]
      rfl
  rw [toReading, Reading.list, heach]
  rfl

theorem itemsReadable_map {α : Type} {write : α → Json} (h : ∀ a, (write a).Readable)
    (as : List α) : ItemsReadable (as.map write) := by
  induction as with
  | nil => trivial
  | cons a as ih => exact ⟨h a, ih⟩

theorem itemsDepth_map_le {α : Type} {write : α → Json} {n : Nat} (h : ∀ a, (write a).depth ≤ n)
    (as : List α) : itemsDepth (as.map write) ≤ n := by
  induction as with
  | nil => exact Nat.zero_le n
  | cons a as ih => exact Nat.max_le.mpr ⟨h a, ih⟩

/-! ## Objects -/

theorem fieldsReadable_append {fields more : List (String × Json)} :
    FieldsReadable (fields ++ more) ↔ FieldsReadable fields ∧ FieldsReadable more := by
  induction fields with
  | nil => simp [FieldsReadable]
  | cons field fields ih =>
    obtain ⟨key, value⟩ := field
    rw [List.cons_append, FieldsReadable, FieldsReadable, ih, and_assoc]

theorem fieldsReadable_optionalField {α : Type} {write : α → Json} (h : ∀ a, (write a).Readable)
    (key : String) (a : Option α) : FieldsReadable (optionalField key write a) := by
  cases a with
  | none => trivial
  | some a => exact ⟨h a, trivial⟩

theorem fieldsDepth_append_le {fields more : List (String × Json)} {n : Nat} :
    fieldsDepth (fields ++ more) ≤ n ↔ fieldsDepth fields ≤ n ∧ fieldsDepth more ≤ n := by
  induction fields with
  | nil => simp [fieldsDepth]
  | cons field fields ih =>
    obtain ⟨key, value⟩ := field
    rw [List.cons_append, fieldsDepth, fieldsDepth, Nat.max_le, Nat.max_le, ih, and_assoc]

theorem fieldsDepth_optionalField_le {α : Type} {write : α → Json} {n : Nat}
    (h : ∀ a, (write a).depth ≤ n) (key : String) (a : Option α) :
    fieldsDepth (optionalField key write a) ≤ n := by
  cases a with
  | none => exact Nat.zero_le n
  | some a => exact Nat.max_le.mpr ⟨h a, Nat.zero_le n⟩

theorem readable_string (s : String) : (string s).Readable := trivial

theorem depth_string_le (n : Nat) (s : String) : (string s).depth ≤ n := Nat.zero_le n

/-- An optional field is found under its own key only. -/
theorem filter_optionalField {α : Type} (key key' : String) (write : α → Json) (a : Option α) :
    (optionalField key write a).filter (·.1 == key') =
      if key = key' then optionalField key write a else [] := by
  cases a with
  | none => simp [optionalField]
  | some a =>
    by_cases h : key = key'
    · simp [optionalField, h]
    · simp [optionalField, h]

end WebFonts.Json
