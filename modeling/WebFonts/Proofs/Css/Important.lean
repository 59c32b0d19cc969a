import WebFonts.Proofs.Css.Separation
import WebFonts.Proofs.Face.RoundTrip

/-! # Important declarations

The flag of a declaration is found in the text of its value, from behind. Where the text around its
mark is plain, the flag tells that the tokens of the value end in the mark and the word. -/

namespace WebFonts.Css

open Text

/-! ## The word -/

theorem isAlpha_of_toLower {c : Char} (h : c.toLower ∈ "important".toList) : c.isAlpha = true := by
  unfold Char.toLower at h
  split at h
  · rename_i hupper
    exact (Bool.or_eq_true _ _).mpr (.inl (decide_eq_true hupper))
  · have hletters : ("important".toList.all Char.isAlpha) = true := by decide
    exact List.all_eq_true.mp hletters c h

theorem isBlank_of_isAlpha {c : Char} (h : c.isAlpha = true) : isBlank c = false := by
  have hcode : 65 ≤ c.toNat ∧ c.toNat ≤ 90 ∨ 97 ≤ c.toNat ∧ c.toNat ≤ 122 := by
    rcases (Bool.or_eq_true _ _).mp h with hupper | hlower
    · exact .inl (of_decide_eq_true hupper)
    · have ⟨hleast, hmost⟩ := (Bool.and_eq_true _ _).mp hlower
      exact .inr ⟨of_decide_eq_true hleast, of_decide_eq_true hmost⟩
  simp only [isBlank, Bool.or_eq_false_iff, Bool.and_eq_false_iff, decide_eq_false_iff_not,
    beq_eq_false_iff_ne]
  omega

section

variable {word : List Char}

/-- A spelling of the word is one of a name with no blank in it. -/
theorem isAlpha_of_sameLetters (h : sameLetters word "important".toList = true) {c : Char}
    (hc : c ∈ word) : c.isAlpha = true := by
  apply isAlpha_of_toLower
  have hletters : "important".toList.map Char.toLower = "important".toList := by decide
  rw [sameLetters, beq_iff_eq, hletters] at h
  rw [← h]
  exact List.mem_map_of_mem hc

theorem isWord_of_sameLetters (h : sameLetters word "important".toList = true) :
    Face.isWord word = true := by
  rw [Face.isWord, Bool.and_eq_true, List.all_eq_true]
  constructor
  · intro c hc
    simp [isNameCharacter, Char.isAlphanum, isAlpha_of_sameLetters h hc]
  · cases word with
    | nil => contradiction
    | cons c word => exact isAlpha_of_sameLetters h List.mem_cons_self

end

/-! ## Cutting off the mark -/

theorem exists_trim (text : List Char) :
    ∃ before after, text = before ++ (trim text ++ after) ∧
      ∀ c ∈ before ++ after, isBlank c = true := by
  obtain ⟨after, hafter, hblanks⟩ := exists_trimEnd_append (trimStart text)
  refine ⟨text.takeWhile isBlank, after, ?_, ?_⟩
  · rw [trim, ← hafter, trimStart, List.takeWhile_append_dropWhile]
  · intro c hc
    rcases List.mem_append.mp hc with hc | hc
    · exact List.all_eq_true.mp List.all_takeWhile c hc
    · exact hblanks c hc

theorem trimEnd_append_of_blanks {after : List Char} (h : ∀ c ∈ after, isBlank c = true)
    (text : List Char) : trimEnd (text ++ after) = trimEnd text := by
  rw [trimEnd, List.reverse_append, List.dropWhile_append_of_pos, ← trimEnd]
  exact fun c hc => h c (List.mem_reverse.mp hc)

theorem trimStart_append_of_blanks {before : List Char} (h : ∀ c ∈ before, isBlank c = true)
    (text : List Char) : trimStart (before ++ text) = trimStart text :=
  List.dropWhile_append_of_pos h

theorem trimEnd_of_not_blank {text : List Char} (h : ∀ c ∈ text, isBlank c = false) :
    trimEnd text = text := by
  rcases List.eq_nil_or_concat text with rfl | ⟨front, c, rfl⟩
  · rfl
  · rw [List.concat_eq_append] at h ⊢
    exact trimEnd_concat (h c (by simp)) front

theorem trimStart_of_not_blank {text : List Char} (h : ∀ c ∈ text, isBlank c = false) :
    trimStart text = text := by
  cases text with
  | nil => rfl
  | cons c text =>
    rw [trimStart, List.dropWhile_cons_of_neg]
    rw [h c List.mem_cons_self]
    exact Bool.false_ne_true

/-- A mark with a spelling of the word behind it, between blanks. -/
structure Marks (mark before word after : List Char) : Prop where
  mark_eq : mark = before ++ (word ++ after)
  blanks : ∀ c ∈ before ++ after, isBlank c = true
  letters : sameLetters word "important".toList = true

/-- Behind a mark stand only blanks and letters. -/
theorem Marks.not_mem {mark before word after : List Char} (h : Marks mark before word after)
    {c : Char} (hblank : isBlank c = false) (hletter : c.isAlpha = false) : c ∉ mark := by
  intro hmem
  have hkind : isBlank c = true ∨ c.isAlpha = true := by
    rw [h.mark_eq, List.mem_append, List.mem_append] at hmem
    rcases hmem with hmem | hmem | hmem
    · exact .inl (h.blanks c (List.mem_append_left _ hmem))
    · exact .inr (isAlpha_of_sameLetters h.letters hmem)
    · exact .inl (h.blanks c (List.mem_append_right _ hmem))
  simp [hblank, hletter] at hkind

/-- A mark that is followed by the word is the last one. -/
theorem Marks.mark_not_mem {mark before word after : List Char}
    (h : Marks mark before word after) : '!' ∉ mark :=
  h.not_mem (by decide) (by decide)

theorem Marks.not_mem_of_mem_tokenEnds {mark before word after : List Char}
    (h : Marks mark before word after) {c : Char} (hc : c ∈ tokenEnds) : c ∉ mark := by
  have hnone : isBlank c = false ∧ c.isAlpha = false := by
    simp only [tokenEnds, endMarks, closingMarks, List.cons_append, List.nil_append, List.mem_cons,
      List.not_mem_nil, or_false] at hc
    rcases hc with rfl | rfl | rfl | rfl | rfl <;> decide
  exact h.not_mem hnone.1 hnone.2

theorem exists_mark_of_cutImportant {written front : List Char}
    (h : cutImportant written = (front, true)) :
    ∃ mark before word after, written = front ++ '!' :: mark ∧ Marks mark before word after := by
  unfold cutImportant at h
  split at h
  · rename_i kept behind hsplit
    split at h
    · rename_i hletters
      obtain ⟨rfl, -⟩ := Prod.mk.inj h
      obtain ⟨blanks, hwritten, hblanks⟩ := exists_trimEnd_append written
      obtain ⟨before, after, hbehind, htrim⟩ := exists_trim behind
      rw [(splitLast?_eq_some_iff.mp hsplit).1] at hwritten
      refine ⟨behind ++ blanks, before, trim behind, after ++ blanks, by simpa using hwritten, ?_⟩
      refine ⟨?_, ?_, hletters⟩
      · rw [← List.append_assoc, ← List.append_assoc, List.append_assoc before, ← hbehind]
      · intro c hc
        rw [← List.append_assoc] at hc
        rcases List.mem_append.mp hc with hc | hc
        · exact htrim c hc
        · exact hblanks c hc
    · simp at h
  · simp at h

theorem cutImportant_of_unmarked {written : List Char} (h : (cutImportant written).2 = false) :
    (cutImportant written).1 = written := by
  unfold cutImportant at h ⊢
  cases hsplit : splitLast? '!' (trimEnd written) with
  | none => rfl
  | some both =>
    obtain ⟨before, behind⟩ := both
    rw [hsplit] at h
    by_cases hletters : sameLetters (trim behind) "important".toList = true
    · simp only [hletters, ↓reduceIte] at h
      contradiction
    · simp only [hletters, ↓reduceIte, Bool.false_eq_true]

theorem cutImportant_of_marks {mark before word after : List Char}
    (h : Marks mark before word after) (front : List Char) :
    cutImportant (front ++ '!' :: mark) = (front, true) := by
  have hword : ∀ c ∈ word, isBlank c = false :=
    fun c hc => isBlank_of_isAlpha (isAlpha_of_sameLetters h.letters hc)
  have hbefore : ∀ c ∈ before, isBlank c = true := fun c hc => h.blanks c (by simp [hc])
  have hafter : ∀ c ∈ after, isBlank c = true := fun c hc => h.blanks c (by simp [hc])
  have hmark : '!' ∉ before ++ word := by
    intro hmem
    apply h.mark_not_mem
    rw [h.mark_eq, ← List.append_assoc]
    exact List.mem_append_left _ hmem
  have htrimEnd : trimEnd (front ++ '!' :: mark) = front ++ '!' :: (before ++ word) := by
    have hlast : trimEnd (front ++ '!' :: (before ++ word)) = front ++ '!' :: (before ++ word) := by
      rcases List.eq_nil_or_concat word with rfl | ⟨init, c, rfl⟩
      · exact absurd h.letters (by decide)
      · have hend := trimEnd_concat (hword c (by simp)) (front ++ '!' :: (before ++ init))
        simpa using hend
    have hwritten : front ++ '!' :: mark = front ++ '!' :: (before ++ word) ++ after := by
      rw [h.mark_eq]
      simp
    rw [hwritten, trimEnd_append_of_blanks hafter, hlast]
  have htrim : trim (before ++ word) = word := by
    rw [trim, trimStart_append_of_blanks hbefore, trimStart_of_not_blank hword,
      trimEnd_of_not_blank hword]
  rw [cutImportant, htrimEnd, splitLast?_append hmark]
  simp only [htrim, h.letters, ↓reduceIte]

/-! ## The tokens of a mark -/

theorem tokens?_append_of_spaces {blank : List Char} (h : ∀ c ∈ blank, isSpace c = true)
    (rest : List Char) : tokens? (blank ++ rest) = tokens? rest := by
  induction blank with
  | nil => rfl
  | cons c blank ih =>
    rw [List.cons_append, tokens?_cons (h c List.mem_cons_self)]
    exact ih fun d hd => h d (List.mem_cons_of_mem _ hd)

theorem tokens?_of_spaces {blank : List Char} (h : ∀ c ∈ blank, isSpace c = true) :
    tokens? blank = some [] := by
  have hblank := tokens?_append_of_spaces h []
  rwa [List.append_nil, tokens?_of_end (gap_nil false)] at hblank

theorem name_of_spaces {blank : List Char} (h : ∀ c ∈ blank, isSpace c = true) :
    name blank = ([], blank) := by
  apply name_nil_of_head?
  rintro c hc hhead
  have hspace := h c (List.mem_of_mem_head? hhead)
  simp only [isSpace, Bool.or_eq_true, beq_iff_eq] at hspace
  rcases hspace with ((rfl | rfl) | rfl) | rfl <;> rcases hc with hc | hc <;> contradiction

/-- A word that no parenthesis follows is an identifier. -/
theorem token?_word {word rest : List Char} (hword : Face.isWord word = true)
    (hrest : name rest = ([], rest)) (hopen : rest.head? ≠ some '(') :
    token? (word ++ rest) = some (.identifier (String.ofList word), rest) := by
  have hidentifier := Face.identifier?_of_isWord hword hrest
  have hfunction := function?_of_word hidentifier hopen
  have hname := unescape_of_not_mem (Face.backslash_not_mem_of_isWord hword)
  obtain ⟨c, tail, rfl, halpha⟩ := Face.exists_cons_of_isWord hword
  rw [token?, hidentifier, hfunction, List.cons_append,
    quoted?_of_not_isQuote (isQuote_of_isAlpha halpha),
    number?_of_isAlpha halpha]
  simp [hname]

theorem Marks.tokens?_eq {mark before word after : List Char} (h : Marks mark before word after)
    (hspaces : ∀ c ∈ mark, isBlank c = true → isSpace c = true) :
    tokens? mark = some [.identifier (String.ofList word)] := by
  have hblanks : ∀ c ∈ before ++ after, isSpace c = true := by
    intro c hc
    refine hspaces c ?_ (h.blanks c hc)
    rw [h.mark_eq]
    rcases List.mem_append.mp hc with hc | hc
    · exact List.mem_append_left _ hc
    · exact List.mem_append_right _ (List.mem_append_right _ hc)
  have hafter : ∀ c ∈ after, isSpace c = true := fun c hc => hblanks c (by simp [hc])
  have hword := isWord_of_sameLetters h.letters
  have hopen : after.head? ≠ some '(' := by
    intro hhead
    exact absurd (hafter _ (List.mem_of_mem_head? hhead)) (by decide)
  have htoken := token?_word hword (name_of_spaces hafter) hopen
  obtain ⟨c, tail, rfl, halpha⟩ := Face.exists_cons_of_isWord hword
  have hgap : gap false (c :: tail ++ after) = .ok ([], c :: tail ++ after) :=
    gap_of_none (Face.spacing_of_isAlpha halpha false _)
  rw [h.mark_eq, tokens?_append_of_spaces fun c hc => hblanks c (by simp [hc]),
    tokens?_cons_of_token hgap htoken, tokens?_of_spaces hafter]
  rfl

theorem isSpace_of_gap {text blank rest : List Char} (h : gap false text = .ok (blank, rest))
    (hslash : '/' ∉ text) : ∀ c ∈ blank, isSpace c = true := by
  fun_induction gap false text generalizing blank with
  | case1 =>
    obtain ⟨rfl, -⟩ := Prod.mk.inj (Except.ok.inj h)
    simp
  | case2 => contradiction
  | case3 text scanned behind hspacing ih =>
    obtain ⟨last, hlast, rfl⟩ := Scan.after_eq_ok_iff.mp h
    rw [← spacing_splits hspacing, List.mem_append, not_or] at hslash
    intro c hc
    rcases List.mem_append.mp hc with hc | hc
    · rcases spacing_cases hspacing with ⟨front, rfl⟩ | ⟨d, rfl, hd⟩
      · exact (hslash.1 (by simp)).elim
      · rwa [List.mem_singleton.mp hc]
    · exact ih hlast hslash.2 c hc

/-! ## Tokens of one kind -/

section

variable {text behind : List Char} {token : Token}

theorem exists_string_of_quoted? (h : quoted? text = some (token, behind)) :
    ∃ contents, token = .string contents := by
  unfold quoted? at h
  split at h
  · split at h
    · split at h
      · obtain ⟨rfl, -⟩ := Prod.mk.inj (Option.some.inj h)
        exact ⟨_, rfl⟩
      · contradiction
    · contradiction
  · contradiction

theorem exists_call_of_function? (h : function? text = some (token, behind)) :
    ∃ name arguments, token = .function name arguments := by
  unfold function? at h
  split at h
  · obtain ⟨_, -, he⟩ := Option.map_eq_some_iff.mp h
    obtain ⟨rfl, -⟩ := Prod.mk.inj he
    exact ⟨_, _, rfl⟩
  · contradiction

/-- A sign is a delimiter that stands for itself, or a group or an operator. -/
theorem sign?_cases (h : sign? text = some (token, behind)) :
    (∃ c, token = .delimiter c ∧ text = c :: behind) ∨
      (∃ opening contents, token = .group opening contents) ∨ ∃ c, token = .operator c := by
  unfold sign? at h
  split at h
  · contradiction
  · obtain ⟨_, -, he⟩ := Option.map_eq_some_iff.mp h
    obtain ⟨rfl, -⟩ := Prod.mk.inj he
    exact .inr (.inl ⟨_, _, rfl⟩)
  · obtain ⟨_, -, he⟩ := Option.map_eq_some_iff.mp h
    obtain ⟨rfl, -⟩ := Prod.mk.inj he
    exact .inr (.inl ⟨_, _, rfl⟩)
  · split at h
    · obtain ⟨rfl, -⟩ := Prod.mk.inj (Option.some.inj h)
      exact .inr (.inr ⟨_, rfl⟩)
    · obtain ⟨-, he⟩ := Option.ite_none_left_eq_some.mp h
      obtain ⟨rfl, rfl⟩ := Prod.mk.inj (Option.some.inj he)
      exact .inl ⟨_, rfl, rfl⟩

theorem identifier?_of_token? {word : String} (h : token? text = some (.identifier word, behind)) :
    ∃ run, identifier? text = some (run, behind) ∧ word = String.ofList (unescape run) := by
  rcases token?_cases h with h | ⟨_, -, he⟩ | h | ⟨run, hword, he⟩ | ⟨_, -, he⟩ | h
  · obtain ⟨contents, he⟩ := exists_string_of_quoted? h
    contradiction
  · contradiction
  · obtain ⟨name, arguments, he⟩ := exists_call_of_function? h
    contradiction
  · exact ⟨run, hword, Token.identifier.inj he⟩
  · contradiction
  · rcases sign?_cases h with ⟨c, he, -⟩ | ⟨opening, contents, he⟩ | ⟨c, he⟩
    · contradiction
    · contradiction
    · contradiction

theorem eq_cons_of_delimiter {c : Char} (h : token? text = some (.delimiter c, behind)) :
    text = c :: behind := by
  rcases token?_cases h with h | ⟨_, -, he⟩ | h | ⟨_, -, he⟩ | ⟨_, -, he⟩ | h
  · obtain ⟨contents, he⟩ := exists_string_of_quoted? h
    contradiction
  · contradiction
  · obtain ⟨name, arguments, he⟩ := exists_call_of_function? h
    contradiction
  · contradiction
  · contradiction
  · rcases sign?_cases h with ⟨d, he, htext⟩ | ⟨opening, contents, he⟩ | ⟨d, he⟩
    · rwa [Token.delimiter.inj he]
    · contradiction
    · contradiction

end

/-- A mark without comments and escapes is followed by the word where its tokens are the word. -/
theorem exists_marks_of_tokens? {mark : List Char} {name : String} (hslash : '/' ∉ mark)
    (hescape : '\\' ∉ mark) (h : tokens? mark = some [.identifier name])
    (hletters : sameLetters name.toList "important".toList = true) :
    ∃ before word after, Marks mark before word after := by
  obtain ⟨before, rest, behind, hgap, htoken, hlast⟩ := exists_token_of_tokens? h
  obtain ⟨after, hafter⟩ := exists_gap_of_no_tokens hlast
  obtain ⟨word, hword, rfl⟩ := identifier?_of_token? htoken
  have hmark := gap_splits _ _ _ _ hgap
  have hbehind := gap_splits _ _ _ _ hafter
  rw [List.append_nil] at hbehind
  subst hbehind
  rw [← (identifier?_split hword).1] at hmark
  have hbefore := isSpace_of_gap hgap hslash
  rw [← hmark] at hslash hescape
  simp only [List.mem_append, not_or] at hslash hescape
  rw [unescape_of_not_mem hescape.2.1, String.toList_ofList] at hletters
  refine ⟨before, word, after, hmark.symm, ?_, hletters⟩
  intro c hc
  rcases List.mem_append.mp hc with hc | hc
  · exact isBlank_of_isSpace (hbefore c hc)
  · exact isBlank_of_isSpace (isSpace_of_gap hafter hslash.2.2 c hc)

/-! ## Flags -/

/-- The word alone, in any case of its letters. -/
def IsImportant (found : List Token) : Prop :=
  ∃ name, found = [.identifier name] ∧ sameLetters name.toList "important".toList = true

/-- An exclamation mark in a text is one of its tokens, and the texts on its sides are read as the
tokens on its sides. -/
structure SplitsAtMark (written : List Char) (found : List Token) (front mark : List Char)
    (earlier later : List Token) : Prop where
  written_eq : written = front ++ '!' :: mark
  found_eq : found = earlier ++ .delimiter '!' :: later
  front_eq : tokens? front = some earlier
  mark_eq : tokens? mark = some later

theorem splitsAtMark_of_cutImportant {written front : List Char} {found : List Token}
    (h : cutImportant written = (front, true)) (hfound : tokens? written = some found) :
    ∃ mark, written = front ++ '!' :: mark ∧ '!' ∉ mark ∧
      (escapesNext front = false → ∃ earlier later,
        SplitsAtMark written found front mark earlier later ∧
        ((∀ c ∈ mark, isBlank c = true → isSpace c = true) → IsImportant later)) := by
  obtain ⟨mark, before, word, after, rfl, hmarks⟩ := exists_mark_of_cutImportant h
  refine ⟨mark, rfl, hmarks.mark_not_mem, ?_⟩
  intro hescape
  have hends : ∀ c ∈ tokenEnds, c ∉ '!' :: mark := by
    intro c hc
    rw [List.mem_cons, not_or]
    exact ⟨ne_of_mem_of_not_mem hc (by decide), hmarks.not_mem_of_mem_tokenEnds hc⟩
  obtain ⟨earlier, marked, rfl, hearlier, hmarked⟩ :=
    tokens?_split hescape (.cons (.inr rfl) mark) hends hfound
  rw [tokens?_mark] at hmarked
  obtain ⟨later, hlater, rfl⟩ := Option.map_eq_some_iff.mp hmarked
  refine ⟨earlier, later, ⟨rfl, rfl, hearlier, hlater⟩, ?_⟩
  intro hspaces
  rw [hmarks.tokens?_eq hspaces] at hlater
  obtain rfl := Option.some.inj hlater
  exact ⟨_, rfl, by rw [String.toList_ofList]; exact hmarks.letters⟩

theorem exists_splitsAtMark {written : List Char} {found earlier later : List Token}
    (h : tokens? written = some found) (hfound : found = earlier ++ .delimiter '!' :: later)
    (hlater : IsImportant later) :
    ∃ front mark, SplitsAtMark written found front mark earlier later ∧
      ('/' ∉ mark → '\\' ∉ mark → cutImportant written = (front, true)) := by
  subst hfound
  obtain ⟨front, rest, mark, rfl, htoken, hmark, -, hfront⟩ := exists_front_of_tokens? h
  obtain rfl := eq_cons_of_delimiter htoken
  refine ⟨front, mark, ⟨rfl, rfl, hfront (.cons (.inr rfl) mark), hmark⟩, ?_⟩
  intro hslash hescape
  obtain ⟨name, rfl, hletters⟩ := hlater
  obtain ⟨before, word, after, hmarks⟩ := exists_marks_of_tokens? hslash hescape hmark hletters
  exact cutImportant_of_marks hmarks front

/-- What the flag of a declaration tells of the tokens of its text. It is that of the last mark in
the text. The text around a mark can hide it from the flag or from the tokens: a backslash in front
of it escapes it, in a comment behind it stands more than the word, and of the blanks only some are
white space. -/
structure Declaration.Flagged (declaration : Declaration) (written : List Char)
    (found : List Token) : Prop where
  sound : declaration.important = true → ∃ front mark, written = front ++ '!' :: mark ∧
    '!' ∉ mark ∧ (escapesNext front = false → ∃ earlier later,
      SplitsAtMark written found front mark earlier later ∧
      declaration.value = .tokens earlier ∧
      ((∀ c ∈ mark, isBlank c = true → isSpace c = true) → IsImportant later))
  complete : ∀ earlier later, found = earlier ++ .delimiter '!' :: later → IsImportant later →
    ∃ front mark, SplitsAtMark written found front mark earlier later ∧
      ('/' ∉ mark → '\\' ∉ mark →
        declaration.important = true ∧ declaration.value = .tokens earlier)
  unmarked : declaration.important = false → declaration.value = .tokens found

theorem Declaration.Starts.flagged {declaration : Declaration}
    {name blank behind written : List Char} (h : declaration.Starts name blank behind written)
    (hproperty : "--".toList.isPrefixOf declaration.property.toList = false) {found : List Token}
    (hfound : tokens? written = some found) : declaration.Flagged written found := by
  have himportant : declaration.important = (cutImportant written).2 :=
    (Leaf.declaration.inj h.toLeaf_eq).2.2
  have hvalue : ∀ front earlier, (cutImportant written).1 = front → tokens? front = some earlier →
      declaration.value = .tokens earlier := by
    intro front earlier hfront hearlier
    rw [h.property_eq, @String.toList_ofList (unescape name)] at hproperty
    rw [h.value_eq, hfront]
    exact Value.read_eq_tokens_iff.mpr ⟨hproperty, hearlier⟩
  constructor
  · intro hflag
    rw [himportant] at hflag
    obtain ⟨mark, hwritten, hlast, hsplits⟩ :=
      splitsAtMark_of_cutImportant (Prod.ext rfl hflag) hfound
    refine ⟨_, mark, hwritten, hlast, ?_⟩
    intro hescape
    obtain ⟨earlier, later, hsplit, hlater⟩ := hsplits hescape
    exact ⟨earlier, later, hsplit, hvalue _ _ rfl hsplit.front_eq, hlater⟩
  · intro earlier later he hlater
    obtain ⟨front, mark, hsplit, hcut⟩ := exists_splitsAtMark hfound he hlater
    refine ⟨front, mark, hsplit, ?_⟩
    intro hslash hescape
    have hfront := hcut hslash hescape
    exact ⟨by rw [himportant, hfront], hvalue _ _ (by rw [hfront]) hsplit.front_eq⟩
  · intro hflag
    rw [himportant] at hflag
    exact hvalue _ _ (cutImportant_of_unmarked hflag) hfound

/-- In a text without comments, escapes and blanks that are no white space, the flag tells exactly
how the tokens end. -/
theorem Declaration.Flagged.important_iff {declaration : Declaration} {written : List Char}
    {found : List Token} (h : declaration.Flagged written found) (hslash : '/' ∉ written)
    (hescape : '\\' ∉ written) (hblanks : ∀ c ∈ written, isBlank c = true → isSpace c = true) :
    declaration.important = true ↔
      ∃ earlier later, found = earlier ++ .delimiter '!' :: later ∧ IsImportant later := by
  constructor
  · intro hflag
    obtain ⟨front, mark, rfl, -, hsplits⟩ := h.sound hflag
    have hfront : escapesNext front = false := by
      rw [Bool.eq_false_iff]
      intro hescapes
      have hlast := List.mem_of_getLast? (getLast?_of_escapesNext hescapes)
      exact hescape (List.mem_append_left _ hlast)
    obtain ⟨earlier, later, hsplit, -, hlater⟩ := hsplits hfront
    exact ⟨earlier, later, hsplit.found_eq, hlater fun c hc => hblanks c (by simp [hc])⟩
  · rintro ⟨earlier, later, hfound, hlater⟩
    obtain ⟨front, mark, hsplit, hflag⟩ := h.complete earlier later hfound hlater
    rw [hsplit.written_eq] at hslash hescape
    simp only [List.mem_append, List.mem_cons, not_or] at hslash hescape
    exact (hflag hslash.2.2 hescape.2.2).1

/-- A declaration is flagged where the tokens of its text end in an exclamation mark and the word,
and its value are then the tokens in front of the mark. -/
theorem flagged_of_mem_sites {source : List Char} {sheet : Stylesheet}
    (h : Stylesheet.parse source = .ok sheet) {site : Site} (hsite : site ∈ sheet.sites)
    (hproperty : "--".toList.isPrefixOf site.declaration.property.toList = false) :
    ∃ before name blank behind written,
      source = before ++ (name ++ (blank ++ ':' :: behind)) ∧
      site.declaration.span.start = utf8Width before ∧
      site.declaration.Starts name blank behind written ∧
      ∀ found, tokens? written = some found → site.declaration.Flagged written found := by
  obtain ⟨before, name, blank, behind, written, hsource, hspan, hstarts⟩ :=
    exists_start_of_mem_sites h hsite
  refine ⟨before, name, blank, behind, written, hsource, hspan, hstarts, ?_⟩
  intro found hfound
  exact hstarts.flagged hproperty hfound

def markedWritten : List Char := "'!' (!) b! Important ".toList

def markedText : List Char := "x\x7bfont-family:".toList ++ (markedWritten ++ ['\x7d'])

def markedDeclaration : Declaration :=
  ⟨"font-family", .tokens [.string "!", .group '(' "!", .identifier "b"], true, ⟨2, 35⟩⟩

def markedSheet : Stylesheet :=
  ⟨[.block (.qualified "x") [.declaration markedDeclaration] ⟨0, 36⟩]⟩

/-- Marks in strings and in brackets are no marks of the flag. -/
theorem flagged_of_mem_sites_marked :
    Stylesheet.parse markedText = .ok markedSheet ∧
      markedDeclaration.Flagged markedWritten
        [.string "!", .group '(' "!", .identifier "b", .delimiter '!',
          .identifier "Important"] := by
  have hparse : Stylesheet.parse markedText = .ok markedSheet :=
    parse_of_events (by decide +kernel : _ = some [.opens (some (.qualified "x")) 0,
      .leaf markedDeclaration.toLeaf ⟨2, 35⟩, .closes 36])
  have hmarked : markedDeclaration.Starts "font-family".toList [] (markedWritten ++ ['\x7d'])
      markedWritten :=
    ⟨by decide +kernel, gap_of_none rfl,
      ⟨['\x7d'], eq_ok_of_toOption (by decide +kernel)⟩, by decide +kernel⟩
  obtain ⟨before, name, blank, behind, written, hsource, hspan, hstarts, hflagged⟩ :=
    @flagged_of_mem_sites markedText markedSheet hparse
      ⟨markedDeclaration, [(.qualified "x", ⟨0, 36⟩)]⟩ List.mem_cons_self (by decide)
  obtain rfl : markedWritten = written :=
    @Declaration.Starts.written_eq _ "x\x7b".toList _ _ _ _ _ _ _ _ _ hmarked hstarts hsource
      hspan
  exact ⟨hparse, hflagged _ (by decide +kernel)⟩

/-- A sheet with one declaration. -/
def flagSheet (value : Value) (important : Bool) (stop : Nat) : Stylesheet :=
  ⟨[.block (.qualified "x") [.declaration ⟨"font-family", value, important, ⟨2, stop⟩⟩]
    ⟨0, stop + 1⟩]⟩

/-- A comment behind the word and an escape in it hide a mark from the flag. An escaped mark, and
one with a blank behind it that is no white space, are taken for marks of the flag. -/
theorem flags_of_hidden_marks :
    (Stylesheet.parse "x\x7bfont-family:a!important/**/\x7d".toList = .ok (flagSheet
        (.tokens [.identifier "a", .delimiter '!', .identifier "important"]) false 29) ∧
      Stylesheet.parse "x\x7bfont-family:a!\\69mportant\x7d".toList = .ok (flagSheet
        (.tokens [.identifier "a", .delimiter '!', .identifier "important"]) false 27)) ∧
    (Stylesheet.parse "x\x7bfont-family:a\\!important\x7d".toList =
        .ok (flagSheet (.raw "a\\") true 26) ∧
      tokens? "a\\!important".toList = some [.identifier "a!important"]) ∧
    Stylesheet.parse "x\x7bfont-family:a!\u00a0important\x7d".toList =
        .ok (flagSheet (.tokens [.identifier "a"]) true 27) ∧
      tokens? "a!\u00a0important".toList =
        some [.identifier "a", .delimiter '!', .identifier "\u00a0important"] := by
  have hcomment : Stylesheet.parse "x\x7bfont-family:a!important/**/\x7d".toList = .ok (flagSheet
      (.tokens [.identifier "a", .delimiter '!', .identifier "important"]) false 29) :=
    parse_of_events (by decide +kernel : _ = some [.opens (some (.qualified "x")) 0,
      .leaf (.declaration "font-family" (.tokens [.identifier "a", .delimiter '!',
        .identifier "important"]) false) ⟨2, 29⟩, .closes 30])
  have hescape : Stylesheet.parse "x\x7bfont-family:a!\\69mportant\x7d".toList = .ok (flagSheet
      (.tokens [.identifier "a", .delimiter '!', .identifier "important"]) false 27) :=
    parse_of_events (by decide +kernel : _ = some [.opens (some (.qualified "x")) 0,
      .leaf (.declaration "font-family" (.tokens [.identifier "a", .delimiter '!',
        .identifier "important"]) false) ⟨2, 27⟩, .closes 28])
  have hescaped : Stylesheet.parse "x\x7bfont-family:a\\!important\x7d".toList =
      .ok (flagSheet (.raw "a\\") true 26) :=
    parse_of_events (by decide +kernel : _ = some [.opens (some (.qualified "x")) 0,
      .leaf (.declaration "font-family" (.raw "a\\") true) ⟨2, 26⟩, .closes 27])
  have hblank : Stylesheet.parse "x\x7bfont-family:a!\u00a0important\x7d".toList =
      .ok (flagSheet (.tokens [.identifier "a"]) true 27) :=
    parse_of_events (by decide +kernel : _ = some [.opens (some (.qualified "x")) 0,
      .leaf (.declaration "font-family" (.tokens [.identifier "a"]) true) ⟨2, 27⟩, .closes 28])
  exact ⟨⟨hcomment, hescape⟩, ⟨hescaped, by decide +kernel⟩, hblank, by decide +kernel⟩

end WebFonts.Css
