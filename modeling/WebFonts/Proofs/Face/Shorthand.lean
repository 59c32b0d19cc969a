import Mathlib.Tactic.Tauto
import WebFonts.Face.Source

/-! # What a text alone stands for

A text that stands for a source is an address if it starts like one, and its format is the one whose
extension it ends with. -/

namespace WebFonts

open Text

namespace Source

/-! ## The grammar of addresses -/

/-- A letter, then letters, digits and the signs `+`, `-` and `.`. -/
structure IsScheme (scheme : List Char) : Prop where
  exists_letter : ∃ letter ∈ scheme.head?, letter.isAlpha = true
  isSchemeMark : ∀ c ∈ scheme, c.isAlphanum = true ∨ c ∈ ['+', '-', '.']

/-- What addresses start with: a slash, a scheme with two slashes behind its colon, or the scheme of
data. -/
inductive IsAddress : List Char → Prop where
  | path (behind : List Char) : IsAddress ('/' :: behind)
  | location {scheme : List Char} (hscheme : IsScheme scheme) (behind : List Char) :
      IsAddress (scheme ++ ':' :: '/' :: '/' :: behind)
  | data (behind : List Char) : IsAddress ("data".toList ++ ':' :: behind)

/-- Whether the scheme of a location is a single letter. -/
def HasLetterScheme (text : List Char) : Prop :=
  ∃ letter behind, text = letter :: ':' :: '/' :: '/' :: behind ∧ letter.isAlpha = true

/-- Whether a text starts with two or more characters of `isSchemeChar` and a colon, although these
are no scheme, or there are no two slashes behind it and no data. -/
def HasLooseScheme (text : List Char) : Prop :=
  ∃ front behind, text = front ++ ':' :: behind ∧ 2 ≤ front.length ∧
    (∀ c ∈ front, isSchemeChar c = true) ∧ front ≠ "data".toList ∧
    ¬(IsScheme front ∧ ['/', '/'] <+: behind)

theorem isSchemeChar_of_isAlphanum {c : Char} (h : c.isAlphanum = true) :
    isSchemeChar c = true := by
  simp [isSchemeChar, h]

theorem IsScheme.isSchemeChar {scheme : List Char} (h : IsScheme scheme) :
    ∀ c ∈ scheme, isSchemeChar c = true := by
  have hmarks : ['+', '-', '.'].all Source.isSchemeChar = true := by decide
  intro c hc
  rcases h.isSchemeMark c hc with hc | hc
  · exact isSchemeChar_of_isAlphanum hc
  · exact List.all_eq_true.mp hmarks c hc

theorem takeWhile_front {front : List Char} (h : ∀ c ∈ front, isSchemeChar c = true)
    (behind : List Char) : (front ++ ':' :: behind).takeWhile isSchemeChar = front := by
  have hcolon : ¬isSchemeChar ':' = true := by decide
  rw [List.takeWhile_append_of_pos h, List.takeWhile_cons_of_neg hcolon, List.append_nil]

theorem dropWhile_front {front : List Char} (h : ∀ c ∈ front, isSchemeChar c = true)
    (behind : List Char) : (front ++ ':' :: behind).dropWhile isSchemeChar = ':' :: behind := by
  have hcolon : ¬isSchemeChar ':' = true := by decide
  rw [List.dropWhile_append_of_pos h, List.dropWhile_cons_of_neg hcolon]

/-- The characters in front of a colon are all those that a scheme is looked for in. -/
theorem hasScheme_iff {text : List Char} :
    hasScheme text = true ↔ ∃ front behind, text = front ++ ':' :: behind ∧ 2 ≤ front.length ∧
      ∀ c ∈ front, isSchemeChar c = true := by
  rw [hasScheme, Bool.and_eq_true, decide_eq_true_eq, beq_iff_eq]
  constructor
  · rintro ⟨hlength, hcolon⟩
    obtain ⟨behind, hbehind⟩ := List.head?_eq_some_iff.mp hcolon
    refine ⟨text.takeWhile isSchemeChar, behind, ?_, hlength, ?_⟩
    · rw [← hbehind, List.takeWhile_append_dropWhile]
    · exact List.all_eq_true.mp List.all_takeWhile
  · rintro ⟨front, behind, rfl, hlength, hfront⟩
    rw [takeWhile_front hfront, dropWhile_front hfront]
    exact ⟨hlength, rfl⟩

/-! ## Addresses and what is taken for them -/

theorem isAddress_of_hasLetterScheme {text : List Char} (h : HasLetterScheme text) :
    IsAddress text := by
  obtain ⟨letter, behind, rfl, hletter⟩ := h
  have hscheme : IsScheme [letter] := by
    refine ⟨⟨letter, rfl, hletter⟩, ?_⟩
    intro c hc
    obtain rfl := List.mem_singleton.mp hc
    exact .inl (by simp [Char.isAlphanum, hletter])
  exact .location hscheme behind

/-- Only one run of the characters of schemes ends in front of the first colon. -/
theorem front_unique {front front' behind behind' : List Char}
    (hfront : ∀ c ∈ front, isSchemeChar c = true) (hfront' : ∀ c ∈ front', isSchemeChar c = true)
    (h : front ++ ':' :: behind = front' ++ ':' :: behind') :
    front = front' ∧ behind = behind' := by
  have hrun := congrArg (List.takeWhile isSchemeChar) h
  have hrest := congrArg (List.dropWhile isSchemeChar) h
  rw [takeWhile_front hfront, takeWhile_front hfront'] at hrun
  rw [dropWhile_front hfront, dropWhile_front hfront'] at hrest
  exact ⟨hrun, (List.cons.inj hrest).2⟩

theorem isSchemeChar_data : ∀ c ∈ "data".toList, isSchemeChar c = true :=
  List.all_eq_true.mp (by decide)

theorem not_isAddress_of_hasLooseScheme {text : List Char} (h : HasLooseScheme text) :
    ¬IsAddress text := by
  obtain ⟨front, behind, htext, hlength, hfront, hdata, hscheme⟩ := h
  intro haddress
  cases haddress with
  | path rest =>
    cases front with
    | nil => contradiction
    | cons c front =>
      obtain ⟨rfl, -⟩ := List.cons.inj htext
      have hslash := hfront '/' List.mem_cons_self
      contradiction
  | location hlocation rest =>
    obtain ⟨rfl, rfl⟩ := front_unique hlocation.isSchemeChar hfront htext
    exact hscheme ⟨hlocation, rest, rfl⟩
  | data rest => exact hdata (front_unique isSchemeChar_data hfront htext).1.symm

theorem not_hasLetterScheme {front : List Char} (hlength : 2 ≤ front.length)
    (hfront : ∀ c ∈ front, isSchemeChar c = true) (behind : List Char) :
    ¬HasLetterScheme (front ++ ':' :: behind) := by
  rintro ⟨letter, rest, htext, hletter⟩
  have hsingle : ∀ c ∈ [letter], isSchemeChar c = true := by
    simp [isSchemeChar, Char.isAlphanum, hletter]
  obtain ⟨rfl, -⟩ := front_unique hfront hsingle htext
  contradiction

theorem IsScheme.two_le_length {scheme : List Char} (h : IsScheme scheme) {behind : List Char}
    (hletter : ¬HasLetterScheme (scheme ++ ':' :: '/' :: '/' :: behind)) : 2 ≤ scheme.length := by
  obtain ⟨first, hfirst, halpha⟩ := h.exists_letter
  obtain ⟨more, rfl⟩ := List.head?_eq_some_iff.mp hfirst
  cases more with
  | nil => exact (hletter ⟨first, behind, rfl, halpha⟩).elim
  | cons second more => simp

/-- What is taken for addresses are the addresses less those with a single letter for a scheme, and
besides the texts with a loose scheme. -/
theorem isTaken_iff {text : List Char} :
    text.head? = some '/' ∨ hasScheme text = true ↔
      IsAddress text ∧ ¬HasLetterScheme text ∨ HasLooseScheme text := by
  constructor
  · rintro (hslash | hscheme)
    · obtain ⟨rest, rfl⟩ := List.head?_eq_some_iff.mp hslash
      refine .inl ⟨.path rest, ?_⟩
      rintro ⟨letter, behind, htext, hletter⟩
      obtain ⟨rfl, -⟩ := List.cons.inj htext
      contradiction
    · -- what stands in front of the colon decides between data, a location and a loose scheme
      obtain ⟨front, behind, rfl, hlength, hfront⟩ := hasScheme_iff.mp hscheme
      have hletter := not_hasLetterScheme hlength hfront behind
      by_cases hdata : front = "data".toList
      · exact .inl ⟨hdata ▸ .data behind, hletter⟩
      · by_cases hlocation : IsScheme front ∧ ['/', '/'] <+: behind
        · obtain ⟨hlocation, rest, rfl⟩ := hlocation
          exact .inl ⟨.location hlocation rest, hletter⟩
        · exact .inr ⟨front, behind, rfl, hlength, hfront, hdata, hlocation⟩
  · rintro (⟨haddress, hletter⟩ | ⟨front, behind, rfl, hlength, hfront, -⟩)
    · cases haddress with
      | path rest => exact .inl rfl
      | location hscheme rest =>
        exact .inr (hasScheme_iff.mpr
          ⟨_, _, rfl, hscheme.two_le_length hletter, hscheme.isSchemeChar⟩)
      | data rest =>
        exact .inr (hasScheme_iff.mpr ⟨"data".toList, rest, rfl, by decide, isSchemeChar_data⟩)
    · exact .inr (hasScheme_iff.mpr ⟨front, behind, rfl, hlength, hfront⟩)

/-- A text alone is an address by the grammar, or else the name of an installed font, with two
exceptions: locations whose scheme is a single letter are names, and texts with a loose scheme,
which are no addresses, are taken for them. -/
theorem ofShorthand_by_grammar (raw : String) :
    (ofShorthand raw = .remote raw (Format.ofPath? raw) none ↔
        IsAddress raw.toList ∧ ¬HasLetterScheme raw.toList ∨ HasLooseScheme raw.toList) ∧
      (ofShorthand raw = .installed raw ↔
        ¬IsAddress raw.toList ∧ ¬HasLooseScheme raw.toList ∨ HasLetterScheme raw.toList) ∧
      (HasLetterScheme raw.toList → IsAddress raw.toList) ∧
      (HasLooseScheme raw.toList → ¬IsAddress raw.toList) := by
  have hletter : HasLetterScheme raw.toList → IsAddress raw.toList := isAddress_of_hasLetterScheme
  have hloose : HasLooseScheme raw.toList → ¬IsAddress raw.toList :=
    not_isAddress_of_hasLooseScheme
  refine ⟨?_, ?_, hletter, hloose⟩
  · rw [← isTaken_iff, ofShorthand]
    split <;> simp_all
  · have hnot : ofShorthand raw = .installed raw ↔
        ¬(raw.toList.head? = some '/' ∨ hasScheme raw.toList = true) := by
      rw [ofShorthand]
      split <;> simp_all
    rw [hnot, isTaken_iff]
    tauto

/-- A name with a blank and a colon is no address but taken for one, and a location with a scheme of
one letter is not. -/
theorem ofShorthand_misreads :
    (¬IsAddress "Open Sans: Bold".toList ∧
        ofShorthand "Open Sans: Bold" = .remote "Open Sans: Bold" none none) ∧
      IsAddress "x://a.woff2".toList ∧ ofShorthand "x://a.woff2" = .installed "x://a.woff2" := by
  have hloose : HasLooseScheme "Open Sans: Bold".toList := by
    have hfront : "Open Sans".toList.all isSchemeChar = true := by decide
    refine ⟨"Open Sans".toList, " Bold".toList, rfl, by decide, List.all_eq_true.mp hfront,
      by decide, ?_⟩
    rintro ⟨-, hslashes⟩
    exact absurd hslashes (by decide)
  have hletter : HasLetterScheme "x://a.woff2".toList := ⟨'x', "a.woff2".toList, rfl, rfl⟩
  exact ⟨⟨not_isAddress_of_hasLooseScheme hloose, by decide⟩,
    isAddress_of_hasLetterScheme hletter, by decide⟩

end Source

/-! ## The format of an address -/

namespace Format

/-- Extensions and formats lead to each other. -/
theorem forall_mem_table : ∀ entry ∈ table,
    ofExtension? entry.1 = some entry.2 ∧ extension? entry.2 = some ("." ++ entry.1) := by
  decide

theorem ofExtension?_eq_some_iff {extension format : String} :
    ofExtension? extension = some format ↔ (extension, format) ∈ table := by
  constructor
  · intro h
    obtain ⟨entry, hentry, rfl⟩ := Option.map_eq_some_iff.mp h
    have hkey := List.find?_some hentry
    obtain rfl := eq_of_beq hkey
    exact List.mem_of_find?_eq_some hentry
  · intro hmem
    exact (forall_mem_table _ hmem).1

theorem extension?_eq_some_iff {format written : String} :
    extension? format = some written ↔
      ∃ extension, (extension, format) ∈ table ∧ written = "." ++ extension := by
  constructor
  · intro h
    obtain ⟨entry, hentry, rfl⟩ := Option.map_eq_some_iff.mp h
    have hkey := List.find?_some hentry
    obtain rfl := eq_of_beq hkey
    exact ⟨entry.1, List.mem_of_find?_eq_some hentry, rfl⟩
  · rintro ⟨extension, hmem, rfl⟩
    exact (forall_mem_table _ hmem).2

theorem pathExtension?_eq_some_iff {path extension : List Char} :
    pathExtension? path = some extension ↔
      ∃ stem, path = stem ++ '.' :: extension ∧ stem ≠ [] ∧ extension ≠ [] ∧
        '.' ∉ extension ∧ '/' ∉ extension := by
  constructor
  · intro h
    unfold pathExtension? at h
    split at h
    · contradiction
    · rename_i stem found hsplit
      obtain ⟨hpath, hdot⟩ := splitLast?_eq_some_iff.mp hsplit
      split at h
      · contradiction
      · rename_i hchecks
        obtain rfl := Option.some.inj h
        simp only [Bool.or_eq_true, List.isEmpty_iff, List.contains_eq_mem, decide_eq_true_eq,
          not_or] at hchecks
        obtain ⟨⟨hstem, hextension⟩, hslash⟩ := hchecks
        exact ⟨stem, hpath, hstem, hextension, hdot, hslash⟩
  · rintro ⟨stem, rfl, hstem, hextension, hdot, hslash⟩
    simp [pathExtension?, splitLast?_append hdot, hstem, hextension, hslash]

/-- A path can end in any extension of the table behind a dot, and all have less than six
characters. -/
theorem isPlain_of_mem_table : ∀ entry ∈ table, entry.1.toList ≠ [] ∧ '.' ∉ entry.1.toList ∧
    '/' ∉ entry.1.toList ∧ entry.1.length < 6 := by
  decide

/-- The format of a path is the one whose extension it ends with, if anything stands in front of
that. -/
theorem ofPath?_eq_some_iff {path format : String} :
    ofPath? path = some format ↔ ∃ stem extension, stem ≠ [] ∧ (extension, format) ∈ table ∧
      path.toList = stem ++ '.' :: extension.toList := by
  rw [ofPath?, Option.bind_eq_some_iff]
  constructor
  · rintro ⟨extension, hextension, hformat⟩
    obtain ⟨stem, hpath, hstem, -⟩ := pathExtension?_eq_some_iff.mp hextension
    refine ⟨stem, String.ofList extension, hstem, ofExtension?_eq_some_iff.mp hformat, ?_⟩
    rw [String.toList_ofList, hpath]
  · rintro ⟨stem, extension, hstem, hmem, hpath⟩
    obtain ⟨hextension, hdot, hslash, -⟩ := isPlain_of_mem_table _ hmem
    refine ⟨extension.toList, ?_, ?_⟩
    · exact pathExtension?_eq_some_iff.mpr ⟨stem, hpath, hstem, hextension, hdot, hslash⟩
    · rw [String.ofList_toList]
      exact ofExtension?_eq_some_iff.mpr hmem

end Format

namespace Source

theorem eq_of_ofShorthand {raw url : String} {format tech : Option String}
    (h : ofShorthand raw = .remote url format tech) :
    (raw.toList.head? = some '/' ∨ hasScheme raw.toList = true) ∧ format = Format.ofPath? raw := by
  unfold ofShorthand at h
  split at h
  · rename_i htaken
    obtain ⟨-, rfl, -⟩ := Source.remote.inj h
    exact ⟨by simpa using htaken, rfl⟩
  · contradiction

/-- An extension alone is not taken for an address. -/
theorem stem_ne_nil {text stem : List Char} {extension format : String}
    (htaken : text.head? = some '/' ∨ hasScheme text = true)
    (hmem : (extension, format) ∈ Format.table) (htext : text = stem ++ '.' :: extension.toList) :
    stem ≠ [] := by
  have htable : ∀ entry ∈ Format.table, hasScheme ('.' :: entry.1.toList) = false := by decide
  rintro rfl
  subst htext
  simp [htable _ hmem] at htaken

theorem format_eq_some_iff {raw url : String} {format tech : Option String}
    (h : ofShorthand raw = .remote url format tech) (found : String) :
    format = some found ↔
      ∃ written, Format.extension? found = some written ∧ written.toList <:+ raw.toList := by
  obtain ⟨htaken, rfl⟩ := eq_of_ofShorthand h
  rw [Format.ofPath?_eq_some_iff]
  constructor
  · rintro ⟨stem, extension, -, hmem, htext⟩
    refine ⟨"." ++ extension, Format.extension?_eq_some_iff.mpr ⟨extension, hmem, rfl⟩, stem, ?_⟩
    rw [htext, String.toList_append]
    rfl
  · rintro ⟨written, hwritten, stem, htext⟩
    obtain ⟨extension, hmem, rfl⟩ := Format.extension?_eq_some_iff.mp hwritten
    rw [String.toList_append] at htext
    exact ⟨stem, extension, stem_ne_nil htaken hmem htext.symm, hmem, htext.symm⟩

/-- No extension has more than six characters with its dot, so that more of the ends of two
addresses need not agree. -/
theorem format_eq_of_tail {raw raw' url url' : String} {format format' tech tech' : Option String}
    (h : ofShorthand raw = .remote url format tech)
    (h' : ofShorthand raw' = .remote url' format' tech') {tail : List Char}
    (hlength : 6 ≤ tail.length) (htail : tail <:+ raw.toList) (htail' : tail <:+ raw'.toList) :
    format = format' := by
  have hends : ∀ (text : List Char) (found written : String), tail <:+ text →
      Format.extension? found = some written →
        (written.toList <:+ text ↔ written.toList <:+ tail) := by
    intro text found written htext hwritten
    obtain ⟨extension, hmem, rfl⟩ := Format.extension?_eq_some_iff.mp hwritten
    have hshort := (Format.isPlain_of_mem_table _ hmem).2.2.2
    have hdot : ".".length = 1 := rfl
    refine ⟨fun hsuffix => ?_, fun hsuffix => hsuffix.trans htext⟩
    apply List.suffix_of_suffix_length_le hsuffix htext
    simp only [String.toList_append, List.length_append, String.length_toList] at *
    omega
  apply Option.ext
  intro found
  rw [format_eq_some_iff h, format_eq_some_iff h']
  refine exists_congr fun written => and_congr_right fun hwritten => ?_
  rw [hends _ _ _ htail hwritten, hends _ _ _ htail' hwritten]

/-- The format of an address is the one whose extension it ends with. It leads back to all that is
written from the last dot on, and is the same for all addresses with the same last six characters,
whatever stands in front of them. -/
theorem format_of_ofShorthand {raw url : String} {format tech : Option String}
    (h : ofShorthand raw = .remote url format tech) :
    (∀ found, format = some found ↔
      ∃ written, Format.extension? found = some written ∧ written.toList <:+ raw.toList) ∧
    (∀ found, format = some found →
      ∃ stem extension, raw.toList = stem ++ '.' :: extension ∧ '.' ∉ extension ∧
        Format.extension? found = some (String.ofList ('.' :: extension))) ∧
    ∀ (tail : List Char) (raw' url' : String) (format' tech' : Option String), 6 ≤ tail.length →
      tail <:+ raw.toList → tail <:+ raw'.toList →
      ofShorthand raw' = .remote url' format' tech' → format = format' := by
  refine ⟨format_eq_some_iff h, ?_, ?_⟩
  · intro found hfound
    obtain ⟨-, rfl⟩ := eq_of_ofShorthand h
    obtain ⟨stem, extension, -, hmem, htext⟩ := Format.ofPath?_eq_some_iff.mp hfound
    refine ⟨stem, extension.toList, htext, (Format.isPlain_of_mem_table _ hmem).2.1, ?_⟩
    rw [(Format.forall_mem_table _ hmem).2, String.ofList_cons, String.ofList_toList]
    rfl
  · intro tail raw' url' format' tech' hlength htail htail' h'
    exact format_eq_of_tail h h' hlength htail htail'

/-- Dots, slashes and extensions in front of the last dot do not count, nor does the extension that
another one starts with. -/
theorem format_of_ofShorthand_woff2 :
    let raw := "https://a.svg/v1.2/b.ttf?c=.woff/.woff2"
    ofShorthand raw = .remote raw (some "woff2") none ∧
      (∃ written, Format.extension? "woff2" = some written ∧ written.toList <:+ raw.toList) ∧
      (¬∃ written, Format.extension? "woff" = some written ∧ written.toList <:+ raw.toList) ∧
      ∀ (url : String) (format tech : Option String),
        ofShorthand "data:;.woff2" = .remote url format tech → some "woff2" = format := by
  intro raw
  have hraw : ofShorthand raw = .remote raw (some "woff2") none := by decide
  obtain ⟨hformat, -, htail⟩ := format_of_ofShorthand hraw
  refine ⟨hraw, (hformat "woff2").mp rfl, ?_, ?_⟩
  · rw [← hformat "woff"]
    decide
  · intro url format tech
    exact htail ".woff2".toList _ url format tech (by decide) (by decide) (by decide)

end Source

end WebFonts
