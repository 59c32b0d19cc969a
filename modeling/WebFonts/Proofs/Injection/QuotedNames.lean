import Mathlib.Data.List.Induction
import Mathlib.Data.Nat.Digits.Defs
import WebFonts.Injection.Families
import WebFonts.Proofs.Css.Contained
import WebFonts.Proofs.Css.Excerpt
import WebFonts.Proofs.Css.Written
import WebFonts.Proofs.Face.Reading

/-! # Names in quotes

Every name can be written as a string, with any mix of literal characters and escapes, and a list
of such strings is read as the list of the names. -/

namespace WebFonts.Css

open Text

/-! ## Spellings -/

/-- The hexadecimal digits of either case. -/
def hexMarks : List Char := "0123456789abcdefABCDEF".toList

/-- The number that a hexadecimal digit stands for. -/
def hexMarkValue (c : Char) : Nat := "0123456789abcdef".toList.idxOf c.toLower

/-- One to six hexadecimal digits for the code point of a character. -/
structure IsCodeOf (digits : List Char) (c : Char) : Prop where
  isHex : digits ⊆ hexMarks
  ne_nil : digits ≠ []
  length_le : digits.length ≤ 6
  value_eq : Nat.ofDigits 16 (digits.reverse.map hexMarkValue) = c.toNat

/-- What ends the digits of a code in front of a text: a space, a tab, or nothing if the text does
not start with white space or, behind less than six digits, with another one. -/
def EndsCode (digits blank text : List Char) : Prop :=
  blank = [' '] ∨ blank = ['\t'] ∨
    blank = [] ∧ ∀ d ∈ text.head?, isBlank d = false ∧ (digits.length < 6 → d ∉ hexMarks)

/-- A name and the text that spells it up to the quote at its end. Characters stand for themselves,
behind a backslash or as codes, and between them lines may be broken behind a backslash. -/
inductive Spells (quote : Char) : List Char → List Char → Prop where
  | nil : Spells quote [] [quote]
  | literal {c : Char} {name text : List Char} (hquote : c ≠ quote) (hslash : c ≠ '\\')
      (hline : c ≠ '\n') : Spells quote name text → Spells quote (c :: name) (c :: text)
  | escape {c : Char} {name text : List Char} (hhex : c ∉ hexMarks) (hline : c ≠ '\n') :
      Spells quote name text → Spells quote (c :: name) ('\\' :: c :: text)
  | code {c : Char} {digits blank name text : List Char} (hdigits : IsCodeOf digits c)
      (hends : EndsCode digits blank text) :
      Spells quote name text → Spells quote (c :: name) ('\\' :: (digits ++ (blank ++ text)))
  | lineBreak {name text : List Char} :
      Spells quote name text → Spells quote name ('\\' :: '\n' :: text)

theorem Spells.append {quote : Char} {run name text : List Char}
    (hrun : ∀ c ∈ run, c ≠ quote ∧ c ≠ '\\' ∧ c ≠ '\n') (h : Spells quote name text) :
    Spells quote (run ++ name) (run ++ text) := by
  induction run with
  | nil => exact h
  | cons c run ih =>
    obtain ⟨hquote, hslash, hline⟩ := hrun c List.mem_cons_self
    exact .literal hquote hslash hline (ih fun d hd => hrun d (List.mem_cons_of_mem _ hd))

/-- A name and a string that spells it, in quotes of either kind. -/
def SpellsString (name : String) (text : List Char) : Prop :=
  ∃ quote body, isQuote quote = true ∧ Spells quote name.toList body ∧ text = quote :: body

/-! ## Codes -/

theorem hexValue?_of_mem {c : Char} (h : c ∈ hexMarks) : hexValue? c = some (hexMarkValue c) := by
  have hall : (hexMarks.all fun d => hexValue? d == some (hexMarkValue d)) = true := by decide
  exact beq_iff_eq.mp (List.all_eq_true.mp hall c h)

theorem eq_of_range {low high c : Char} (hlow : low ≤ c) (hhigh : c ≤ high) :
    c ∈ (List.range (high.toNat + 1 - low.toNat)).map fun n => Char.ofNat (low.toNat + n) := by
  have hle : low.toNat ≤ c.toNat := hlow
  have hge : c.toNat ≤ high.toNat := hhigh
  refine List.mem_map.mpr ⟨c.toNat - low.toNat, List.mem_range.mpr (by omega), ?_⟩
  rw [Nat.add_sub_of_le hle, Char.ofNat_toNat]

theorem hexValue?_of_not_mem {c : Char} (h : c ∉ hexMarks) : hexValue? c = none := by
  have hranges : ∀ low high : Char,
      ((List.range (high.toNat + 1 - low.toNat)).map fun n => Char.ofNat (low.toNat + n)) ⊆
        hexMarks → ¬(low ≤ c ∧ c ≤ high) :=
    fun low high hsubset hc => h (hsubset (eq_of_range hc.1 hc.2))
  have hdigit : c.isDigit = false := by
    have hrange := hranges '0' '9' (by decide)
    rw [Bool.eq_false_iff]
    intro hdigit
    simp only [Char.isDigit, Bool.and_eq_true, decide_eq_true_eq, ge_iff_le] at hdigit
    exact hrange hdigit
  rw [hexValue?, hdigit, if_neg (by simp), if_neg (hranges 'a' 'f' (by decide)),
    if_neg (hranges 'A' 'F' (by decide))]

theorem isSome_hexValue?_iff {c : Char} : (hexValue? c).isSome = true ↔ c ∈ hexMarks := by
  by_cases h : c ∈ hexMarks
  · simp [hexValue?_of_mem h, h]
  · simp [hexValue?_of_not_mem h, h]

theorem hexNumber_eq_ofDigits {digits : List Char} (h : digits ⊆ hexMarks) :
    hexNumber digits = Nat.ofDigits 16 (digits.reverse.map hexMarkValue) := by
  induction digits using List.reverseRecOn with
  | nil => rfl
  | append_singleton digits d ih =>
    have hlast := hexValue?_of_mem (@h d (by simp))
    have hfront := ih fun e he => h (List.mem_append_left _ he)
    rw [hexNumber, List.foldl_append, ← hexNumber, hfront, List.reverse_append, List.foldl_cons,
      List.foldl_nil, hlast]
    simp [Nat.ofDigits_cons, Nat.add_comm]

theorem charOfCode_toNat {c : Char} (h : c ≠ '\x00') : charOfCode c.toNat = c := by
  have hne : c.toNat ≠ 0 := by
    intro hzero
    apply h
    rw [← Char.ofNat_toNat c, hzero]
  rw [charOfCode, if_pos ⟨hne, c.valid⟩, Char.ofNat_toNat]

/-- A code is read up to its end. -/
theorem hexDigits_append {digits blank text : List Char} {c : Char} (hdigits : IsCodeOf digits c)
    (hends : EndsCode digits blank text) : hexDigits (digits ++ (blank ++ text)) = digits := by
  have hall : ∀ d ∈ digits, (hexValue? d).isSome = true := fun d hd =>
    isSome_hexValue?_iff.mpr (hdigits.isHex hd)
  rw [hexDigits, List.take_append, List.take_of_length_le hdigits.length_le,
    List.takeWhile_append_of_pos hall, List.append_right_eq_self]
  cases hroom : 6 - digits.length with
  | zero => simp
  | succ room =>
    have hshort : digits.length < 6 := by omega
    rcases hends with rfl | rfl | ⟨rfl, hnext⟩
    · simp [hexValue?]
    · simp [hexValue?]
    · cases text with
      | nil => rfl
      | cons d text =>
        have hd := (hnext d rfl).2 hshort
        simp [hexValue?_of_not_mem hd]

theorem skipBlank_of_endsCode {digits blank text : List Char} (h : EndsCode digits blank text) :
    skipBlank (blank ++ text) = text := by
  rcases h with rfl | rfl | ⟨rfl, hnext⟩
  · rfl
  · rfl
  · cases text with
    | nil => rfl
    | cons d text => simp [skipBlank, (hnext d rfl).1]

/-! ## Reading a spelling -/

theorem unescape_cons_of_ne {c : Char} (hc : c ≠ '\\') (text : List Char) :
    unescape (c :: text) = c :: unescape text := by
  rw [unescape]
  · exact fun hlone => absurd hlone hc
  · exact fun d rest hescape => absurd hescape hc

theorem unescape_escape {c : Char} (hhex : c ∉ hexMarks) (hline : c ≠ '\n') (text : List Char) :
    unescape ('\\' :: c :: text) = c :: unescape text := by
  rw [unescape, if_neg hline, if_pos (hexValue?_of_not_mem hhex)]

theorem unescape_code {digits blank text : List Char} {c : Char} (hc : c ≠ '\x00')
    (hdigits : IsCodeOf digits c) (hends : EndsCode digits blank text) :
    unescape ('\\' :: (digits ++ (blank ++ text))) = c :: unescape text := by
  have hread := hexDigits_append hdigits hends
  cases digits with
  | nil => exact (hdigits.ne_nil rfl).elim
  | cons d digits =>
    have hd := hdigits.isHex List.mem_cons_self
    have hline : d ≠ '\n' := by
      rintro rfl
      exact absurd hd (by decide)
    have hrest : behindEscape d (digits ++ (blank ++ text)) = text := by
      rw [behindEscape, ← List.cons_append, hread, List.length_cons, Nat.add_sub_cancel,
        List.drop_left, skipBlank_of_endsCode hends]
    rw [List.cons_append, unescape, if_neg hline, if_neg (by simp [hexValue?_of_mem hd]), hrest,
      ← List.cons_append, hread, hexNumber_eq_ofDigits hdigits.isHex, hdigits.value_eq,
      charOfCode_toNat hc]

theorem EndsCode.of_concat {digits blank body : List Char} {quote : Char}
    (h : EndsCode digits blank (body ++ [quote])) : EndsCode digits blank body := by
  rcases h with rfl | rfl | ⟨rfl, hnext⟩
  · exact .inl rfl
  · exact .inr (.inl rfl)
  · refine .inr (.inr ⟨rfl, fun d hd => hnext d ?_⟩)
    rw [List.head?_append, Option.mem_def.mp hd]
    rfl

/-- In front of the quote at its end, a spelling stands for its name. -/
theorem Spells.exists_body {quote : Char} {name text : List Char} (h : Spells quote name text)
    (hname : '\x00' ∉ name) : ∃ body, text = body ++ [quote] ∧ unescape body = name := by
  induction h with
  | nil => exact ⟨[], rfl, by rw [unescape]⟩
  | @literal c name text _ hslash _ _ ih =>
    obtain ⟨body, rfl, hbody⟩ := ih (List.not_mem_of_not_mem_cons hname)
    exact ⟨c :: body, rfl, by rw [unescape_cons_of_ne hslash, hbody]⟩
  | @escape c name text hhex hline _ ih =>
    obtain ⟨body, rfl, hbody⟩ := ih (List.not_mem_of_not_mem_cons hname)
    exact ⟨'\\' :: c :: body, rfl, by rw [unescape_escape hhex hline, hbody]⟩
  | @code c digits blank name text hdigits hends _ ih =>
    obtain ⟨body, rfl, hbody⟩ := ih (List.not_mem_of_not_mem_cons hname)
    have hc : c ≠ '\x00' := fun hc => hname (hc ▸ List.mem_cons_self)
    refine ⟨'\\' :: (digits ++ (blank ++ body)), by simp, ?_⟩
    rw [unescape_code hc hdigits hends.of_concat, hbody]
  | @lineBreak name text _ ih =>
    obtain ⟨body, rfl, hbody⟩ := ih hname
    exact ⟨'\\' :: '\n' :: body, rfl, by rw [unescape, if_pos rfl, hbody]⟩

theorem closeString_append_of_forall {quote : Char} {run : List Char}
    (h : ∀ c ∈ run, c ≠ quote ∧ c ≠ '\\' ∧ c ≠ '\n') (rest : List Char) :
    closeString quote (run ++ rest) = (closeString quote rest).after run := by
  induction run with
  | nil => exact (Scan.after_nil _).symm
  | cons c run ih =>
    obtain ⟨hquote, hslash, hline⟩ := h c List.mem_cons_self
    rw [List.cons_append, closeString_cons hslash, if_neg hquote, if_neg hline,
      ih fun d hd => h d (List.mem_cons_of_mem _ hd), Scan.after_after]
    rfl

theorem ordinary_of_mem_hexMarks {c : Char} (h : c ∈ ' ' :: '\t' :: hexMarks) :
    isQuote c = false ∧ c ≠ '\\' ∧ c ≠ '\n' := by
  have hall : ((' ' :: '\t' :: hexMarks).all fun d => !isQuote d && d != '\\' && d != '\n') =
      true := by decide
  simpa [and_assoc] using List.all_eq_true.mp hall c h

/-- The digits of a code and what ends them are ordinary characters of a string. -/
theorem EndsCode.forall_ordinary {quote c : Char} {digits blank text : List Char}
    (h : EndsCode digits blank text) (hdigits : IsCodeOf digits c) (hquote : isQuote quote = true) :
    ∀ d ∈ digits ++ blank, d ≠ quote ∧ d ≠ '\\' ∧ d ≠ '\n' := by
  intro d hd
  have hmem : d ∈ ' ' :: '\t' :: hexMarks := by
    rcases List.mem_append.mp hd with hd | hd
    · exact List.mem_cons_of_mem _ (List.mem_cons_of_mem _ (hdigits.isHex hd))
    · rcases h with rfl | rfl | ⟨rfl, -⟩
      · exact List.mem_cons.mpr (.inl (List.mem_singleton.mp hd))
      · exact List.mem_cons_of_mem _ (List.mem_cons.mpr (.inl (List.mem_singleton.mp hd)))
      · contradiction
  refine ⟨?_, (ordinary_of_mem_hexMarks hmem).2⟩
  rintro rfl
  rw [(ordinary_of_mem_hexMarks hmem).1] at hquote
  contradiction

theorem closeString_escape (quote c : Char) (rest : List Char) :
    closeString quote ('\\' :: c :: rest) = (closeString quote rest).after ['\\', c] := by
  rw [closeString]

/-- A string ends where its spelling does, whatever follows. -/
theorem Spells.closeString_append {quote : Char} {name text : List Char}
    (h : Spells quote name text) (hquote : isQuote quote = true) (rest : List Char) :
    closeString quote (text ++ rest) = .ok (text, rest) := by
  induction h with
  | nil =>
    have hslash : quote ≠ '\\' := by
      rintro rfl
      contradiction
    rw [List.singleton_append, closeString_cons hslash, if_pos rfl]
  | literal hne hslash hline _ ih =>
    rw [List.cons_append, closeString_cons hslash, if_neg hne, if_neg hline, ih]
    rfl
  | escape _ _ _ ih =>
    rw [List.cons_append, List.cons_append, closeString_escape, ih]
    rfl
  | @code c digits blank name text hdigits hends _ ih =>
    have hordinary := hends.forall_ordinary hdigits hquote
    cases digits with
    | nil => exact (hdigits.ne_nil rfl).elim
    | cons d digits =>
      have hrun : closeString quote (digits ++ blank ++ (text ++ rest)) =
          (closeString quote (text ++ rest)).after (digits ++ blank) :=
        closeString_append_of_forall (fun e he => hordinary e (List.mem_cons_of_mem d he)) _
      rw [ih, List.append_assoc] at hrun
      rw [List.cons_append, List.cons_append, List.cons_append, List.append_assoc,
        List.append_assoc, closeString_escape, hrun]
      simp [Scan.after]
  | lineBreak _ ih =>
    rw [List.cons_append, List.cons_append, closeString_escape, ih]
    rfl

/-! ## Reading a list of names -/

theorem SpellsString.exists_cons {name : String} {text : List Char} (h : SpellsString name text) :
    ∃ quote body, text = quote :: body ∧ isQuote quote = true ∧
      ∀ rest, closeString quote (body ++ rest) = .ok (body, rest) := by
  obtain ⟨quote, body, hquote, hspells, rfl⟩ := h
  exact ⟨quote, body, rfl, hquote, hspells.closeString_append hquote⟩

theorem ne_of_isQuote {c d : Char} (hc : isQuote c = true) (hd : isQuote d = false) : c ≠ d := by
  rintro rfl
  rw [hd] at hc
  contradiction

theorem SpellsString.token?_append {name : String} {text : List Char} (h : SpellsString name text)
    (hname : '\x00' ∉ name.toList) (rest : List Char) :
    token? (text ++ rest) = some (.string name, rest) := by
  obtain ⟨quote, text, hquote, hspells, rfl⟩ := h
  have hclose := hspells.closeString_append hquote rest
  obtain ⟨body, rfl, hbody⟩ := hspells.exists_body hname
  have hquoted : quoted? (quote :: (body ++ [quote]) ++ rest) = some (.string name, rest) := by
    rw [List.cons_append, quoted?, if_pos hquote, hclose]
    simp [hbody]
  rw [token?, hquoted]
  rfl

theorem SpellsString.tokens?_append {name : String} {text : List Char} (h : SpellsString name text)
    (hname : '\x00' ∉ name.toList) (rest : List Char) :
    tokens? (text ++ rest) = (tokens? rest).map (Token.string name :: ·) := by
  have htoken := h.token?_append hname rest
  obtain ⟨quote, body, rfl, hquote, -⟩ := h.exists_cons
  have hspace : isSpace quote = false := by
    simp only [isQuote, Bool.or_eq_true, beq_iff_eq] at hquote
    rcases hquote with rfl | rfl <;> rfl
  have hnext : quote ∉ ['/', '<', '-'] := by
    simp only [List.mem_cons, List.not_mem_nil, or_false, not_or]
    exact ⟨ne_of_isQuote hquote rfl, ne_of_isQuote hquote rfl, ne_of_isQuote hquote rfl⟩
  exact tokens?_of_token (gap_of_none (spacing_of_ne hspace hnext false _)) htoken

theorem SpellsString.head?_ne_star {name : String} {text : List Char} (h : SpellsString name text) :
    text.head? ≠ some '*' := by
  obtain ⟨quote, body, rfl, hquote, -⟩ := h.exists_cons
  simpa using ne_of_isQuote hquote rfl

theorem SpellsString.passes {name : String} {text : List Char} (h : SpellsString name text) :
    Passes [] text := by
  obtain ⟨quote, body, rfl, hquote, hclose⟩ := h.exists_cons
  intro rest _
  have hends : endsStretch [] quote = false := by
    simp [endsStretch, ne_of_isQuote hquote (d := '{') rfl, ne_of_isQuote hquote (d := '}') rfl,
      ne_of_isQuote hquote (d := ';') rfl]
  have hpiece : piece quote (body ++ rest) = .ok (quote :: body, rest) := by
    rw [piece_eq_unit fun hcomment => ne_of_isQuote hquote rfl hcomment.1, unit, if_pos hquote,
      hclose rest]
    rfl
  have hafter : closersAfter [] quote = [] := by
    apply closersAfter_of_not_mem (List.nil_subset _)
    · exact ne_of_isQuote hquote rfl
    · exact ne_of_isQuote hquote rfl
    · intro hmem
      simp only [closingMarks, List.mem_cons, List.not_mem_nil, or_false] at hmem
      rcases hmem with rfl | rfl <;> contradiction
  rw [List.cons_append, stretch_of_piece hends hpiece, hafter]

/-- Names as a value holds them, with commas between them. -/
def nameTokens (names : List String) : List Token :=
  List.intercalate [.operator ','] (names.map fun name => [.string name])

theorem families_nameTokens (names : List String) :
    (Value.tokens (nameTokens names)).families = names := by
  cases names with
  | nil => rfl
  | cons name names =>
    have hrest : (names.flatMap fun name => [Token.operator ',', .string name]).filterMap
        Token.family? = names := by
      induction names with
      | nil => rfl
      | cons name names ih =>
        rw [List.flatMap_cons, List.filterMap_append, ih]
        rfl
    rw [nameTokens, List.map_cons, Face.intercalate_cons, List.flatMap_map, Value.families,
      List.filterMap_append]
    exact congrArg (name :: ·) hrest

/-- The spellings of names behind a first one. -/
def behindFirst (texts : List (List Char)) : List Char := texts.flatMap fun text => [','] ++ text

theorem tokens?_behindFirst {names : List String} {texts : List (List Char)}
    (h : List.Forall₂ SpellsString names texts) (hnames : ∀ name ∈ names, '\x00' ∉ name.toList) :
    tokens? (behindFirst texts) =
      some (names.flatMap fun name => [.operator ',', .string name]) := by
  induction h with
  | nil => exact tokens?_of_end (gap_nil false)
  | @cons name text names texts hname _ ih =>
    have htoken : token? (',' :: (text ++ behindFirst texts)) =
        some (.operator ',', text ++ behindFirst texts) := rfl
    rw [behindFirst, List.flatMap_cons, ← behindFirst, List.append_assoc, List.singleton_append,
      tokens?_of_token (gap_of_none rfl) htoken,
      hname.tokens?_append (hnames name List.mem_cons_self),
      ih fun other hmem => hnames other (List.mem_cons_of_mem _ hmem)]
    rfl

theorem tokens?_names {names : List String} {texts : List (List Char)}
    (h : List.Forall₂ SpellsString names texts) (hnames : ∀ name ∈ names, '\x00' ∉ name.toList) :
    tokens? (List.intercalate [','] texts) = some (nameTokens names) := by
  cases h with
  | nil => exact tokens?_of_end (gap_nil false)
  | @cons name text names texts hname hrest =>
    rw [Face.intercalate_cons, hname.tokens?_append (hnames name List.mem_cons_self),
      ← behindFirst,
      tokens?_behindFirst hrest fun other hmem => hnames other (List.mem_cons_of_mem _ hmem),
      nameTokens, List.map_cons, Face.intercalate_cons, List.flatMap_map]
    rfl

theorem passes_behindFirst {names : List String} {texts : List (List Char)}
    (h : List.Forall₂ SpellsString names texts) : Passes [] (behindFirst texts) := by
  induction h with
  | nil => exact .nil []
  | @cons name text names texts hname _ ih =>
    have hcomma : Passes [] [','] := passes_of_isContained (List.nil_subset _) (by decide)
    rw [behindFirst, List.flatMap_cons, ← behindFirst]
    refine (hcomma.append hname.passes hname.head?_ne_star).append ih ?_
    cases texts <;> simp [behindFirst]

theorem passes_names {names : List String} {texts : List (List Char)}
    (h : List.Forall₂ SpellsString names texts) : Passes [] (List.intercalate [','] texts) := by
  cases h with
  | nil => exact .nil []
  | @cons name text names texts hname hrest =>
    rw [Face.intercalate_cons]
    apply hname.passes.append (passes_behindFirst hrest)
    cases texts <;> simp [behindFirst]

/-! ## The end of a list of names -/

/-- A text that ends in a quote. -/
def EndsInQuote (text : List Char) : Prop :=
  ∃ front quote, text = front ++ [quote] ∧ isQuote quote = true

theorem EndsInQuote.append {text : List Char} (h : EndsInQuote text) (front : List Char) :
    EndsInQuote (front ++ text) := by
  obtain ⟨body, quote, rfl, hquote⟩ := h
  exact ⟨front ++ body, quote, (List.append_assoc _ _ _).symm, hquote⟩

theorem Spells.endsInQuote {quote : Char} {name text : List Char} (h : Spells quote name text)
    (hquote : isQuote quote = true) : EndsInQuote text := by
  induction h with
  | nil => exact ⟨[], quote, rfl, hquote⟩
  | @literal c _ _ _ _ _ _ ih => exact ih.append [c]
  | @escape c _ _ _ _ _ ih => exact ih.append ['\\', c]
  | @code _ digits blank _ _ _ _ _ ih => exact (ih.append blank).append digits |>.append ['\\']
  | lineBreak _ ih => exact ih.append ['\\', '\n']

theorem SpellsString.endsInQuote {name : String} {text : List Char} (h : SpellsString name text) :
    EndsInQuote text := by
  obtain ⟨quote, body, hquote, hspells, rfl⟩ := h
  exact (hspells.endsInQuote hquote).append [quote]

/-- Whatever a name ends in, its string does not end in `!important`. -/
theorem EndsInQuote.cutImportant_eq {text : List Char} (h : EndsInQuote text) :
    cutImportant text = (text, false) := by
  obtain ⟨front, quote, rfl, hquote⟩ := h
  simp only [isQuote, Bool.or_eq_true, beq_iff_eq] at hquote
  rcases hquote with rfl | rfl <;> exact cutImportant_concat (by decide) (by decide) front

theorem endsInQuote_names {names : List String} {texts : List (List Char)}
    (h : List.Forall₂ SpellsString names texts) (hne : texts ≠ []) :
    EndsInQuote (List.intercalate [','] texts) := by
  induction h with
  | nil => exact (hne rfl).elim
  | @cons name text names texts hname _ ih =>
    cases texts with
    | nil => simpa using hname.endsInQuote
    | cons next texts =>
      rw [List.intercalate_cons_cons]
      exact (ih (by simp)).append _

theorem cutImportant_names {names : List String} {texts : List (List Char)}
    (h : List.Forall₂ SpellsString names texts) :
    cutImportant (List.intercalate [','] texts) = (List.intercalate [','] texts, false) := by
  by_cases hnil : texts = []
  · rw [hnil]
    rfl
  · exact (endsInQuote_names h hnil).cutImportant_eq

/-! ## Names in a stylesheet -/

/-- A declaration whose value a stretch passes over is read to the brace behind it. -/
theorem readFrom_of_passes {word written : List Char} (hword : Face.isWord word = true)
    (hwritten : Passes [] written) :
    ((Leaf.ofWritten word written).toNode ⟨0, utf8Width (word ++ ':' :: written)⟩).ReadFrom
      (word ++ ':' :: written) := by
  intro place rest hrest
  obtain ⟨rest, rfl⟩ := List.head?_eq_some_iff.mp hrest
  have hstretch : stretch [] (written ++ '}' :: rest) = .ok (written, '}' :: rest) := by
    rw [hwritten _ (by simp), stretch_of_ends rfl]
    simp [Scan.after]
  have hfound : identifier? (word ++ ':' :: (written ++ '}' :: rest)) =
      some (word, ':' :: (written ++ '}' :: rest)) := Face.identifier?_of_isWord hword rfl
  have hdeclaration := declaration?_of_colon hfound (gap_of_none rfl) hstretch (by simp)
  obtain ⟨c, tail, rfl, halpha⟩ := Face.exists_cons_of_isWord hword
  have hne : ∀ d : Char, d.isAlpha = false → c ≠ d := by
    rintro d hd rfl
    rw [hd] at halpha
    contradiction
  have hspace : isSpace c = false := by
    simp [isSpace, hne ' ' rfl, hne '\t' rfl, hne '\r' rfl, hne '\n' rfl]
  have hgap : gap false (c :: (tail ++ ':' :: (written ++ '}' :: rest))) =
      .ok ([], c :: (tail ++ ':' :: (written ++ '}' :: rest))) := by
    apply gap_of_none (spacing_of_ne hspace _ false _)
    simp [hne '/' rfl, hne '<' rfl, hne '-' rfl]
  have hitem : Item.read true (c :: (tail ++ ':' :: (written ++ '}' :: rest))) =
      .ok ⟨.whole (some (Leaf.ofWritten (c :: tail) written)), c :: tail ++ ':' :: written,
        '}' :: rest⟩ := by
    rw [Item.read, if_pos rfl, ← List.cons_append, hdeclaration, List.append_nil]
    rfl
  have hpassage : Passage true place (c :: (tail ++ ':' :: (written ++ '}' :: rest))) _ _ _ :=
    .whole hgap (hne '}' rfl) (hne ';' rfl) hitem (.nil true _ _)
  have htext : c :: tail ++ ':' :: written ++ '}' :: rest =
      c :: (tail ++ ':' :: (written ++ '}' :: rest)) := by simp
  refine ⟨_, htext ▸ hpassage, ?_⟩
  simp [Span.shift, utf8Width]

/-- Any list of names can be written as strings, each with any mix of literal characters and
escapes, and is read from a stylesheet as it is. A null character cannot be written. -/
theorem families_of_parse_names {names : List String} {texts : List (List Char)}
    (hnames : ∀ name ∈ names, '\x00' ∉ name.toList)
    (htexts : List.Forall₂ SpellsString names texts) :
    ∃ found span,
      Stylesheet.parse
          ("x\x7bfont-family:".toList ++ List.intercalate [','] texts ++ ['\x7d']) =
        .ok ⟨[.block (.qualified "x") [.declaration found] span]⟩ ∧
      found.property = "font-family" ∧ found.important = false ∧ found.value.families = names := by
  let written := List.intercalate [','] texts
  have hleaf : Leaf.ofWritten "font-family".toList written =
      .declaration "font-family" (.tokens (nameTokens names)) false := by
    have hword : unescape "font-family".toList = "font-family".toList :=
      unescape_of_not_mem (by decide)
    rw [Leaf.ofWritten, cutImportant_names htexts, hword, Value.read, if_neg (by decide),
      tokens?_names htexts hnames]
    rfl
  have hread := readFrom_of_passes (by decide : Face.isWord "font-family".toList = true)
    (passes_names htexts)
  rw [hleaf] at hread
  obtain ⟨node, hparse, hnode⟩ := parse_of_readFrom hread
  obtain rfl : node = _ := (Node.shift_zero node).symm.trans hnode
  exact ⟨_, _, hparse, rfl, rfl, families_nameTokens names⟩

/-- Names with marks of every kind, with blanks in front of a letter that could be a digit, and
without any character, are read as they are. -/
theorem families_of_parse_names_marks :
    ∃ found span,
      Stylesheet.parse
          "x\x7bfont-family:\"\x7b\x7d;/*!important\\\"\",'\\20 \\000020a',\"\\\n\"\x7d".toList =
        .ok ⟨[.block (.qualified "x") [.declaration found] span]⟩ ∧
      found.property = "font-family" ∧ found.important = false ∧
      found.value.families = ["\x7b\x7d;/*!important\"", "  a", ""] := by
  have hmarks : SpellsString "\x7b\x7d;/*!important\"" "\"\x7b\x7d;/*!important\\\"\"".toList :=
    ⟨'"', _, rfl, @Spells.append '"' "\x7b\x7d;/*!important".toList _ _ (by simp)
      (.escape (by decide) (by decide) .nil), rfl⟩
  have hshort : IsCodeOf ['2', '0'] ' ' :=
    ⟨by decide, by decide, by decide, by decide⟩
  have hlong : IsCodeOf "000020".toList ' ' :=
    ⟨by decide, by decide, by decide, by decide⟩
  have hblanks : SpellsString "  a" "'\\20 \\000020a'".toList :=
    ⟨'\'', _, rfl, .code hshort (.inl rfl) (.code hlong (.inr (.inr ⟨rfl, by simp; decide⟩))
      (.literal (by decide) (by decide) (by decide) .nil)), rfl⟩
  have hnone : SpellsString "" "\"\\\n\"".toList := ⟨'"', _, rfl, .lineBreak .nil, rfl⟩
  exact families_of_parse_names (by decide) (.cons hmarks (.cons hblanks (.cons hnone .nil)))

end WebFonts.Css
