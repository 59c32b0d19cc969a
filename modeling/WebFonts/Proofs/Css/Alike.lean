import WebFonts.Proofs.Css.Stopping

/-! # Words in alike texts

A comma and an exclamation mark end every word in front of them. Two texts that are the same up to
such a mark, or up to their end, start with the same words. -/

namespace WebFonts.Css

open Text

/-! ## Escapes at the end of a text -/

/-- Whether a text ends in a backslash that escapes what follows the text. -/
def escapesNext : List Char → Bool
  | [] => false
  | ['\\'] => true
  | '\\' :: _ :: text => escapesNext text
  | _ :: text => escapesNext text

theorem escapesNext_cons {c : Char} (hc : c ≠ '\\') (text : List Char) :
    escapesNext (c :: text) = escapesNext text := by
  rw [escapesNext]
  · exact fun hlone => absurd hlone hc
  · exact fun d rest hescape => absurd hescape hc

theorem escapesNext_append {front : List Char} (h : escapesNext front = false) (text : List Char) :
    escapesNext (front ++ text) = escapesNext text := by
  fun_induction escapesNext front with
  | case1 => rfl
  | case2 => contradiction
  | case3 c front ih => exact ih h
  | case4 c front hlone hescape ih =>
    rw [List.cons_append, escapesNext_cons (ne_backslash_of_not_escape hlone hescape), ih h]

theorem getLast?_of_escapesNext {text : List Char} (h : escapesNext text = true) :
    text.getLast? = some '\\' := by
  fun_induction escapesNext text with
  | case1 => contradiction
  | case2 => rfl
  | case3 c text ih => simp [List.getLast?_cons, ih h]
  | case4 c text _ _ ih => simp [List.getLast?_cons, ih h]

/-- A text that escapes what follows is one that does not, with a backslash behind it. -/
theorem exists_of_escapesNext {text : List Char} (h : escapesNext text = true) :
    ∃ front, text = front ++ ['\\'] ∧ escapesNext front = false := by
  fun_induction escapesNext text with
  | case1 => contradiction
  | case2 => exact ⟨[], rfl, rfl⟩
  | case3 c text ih =>
    obtain ⟨front, rfl, hfront⟩ := ih h
    exact ⟨'\\' :: c :: front, rfl, by rw [escapesNext, hfront]⟩
  | case4 c text hlone hescape ih =>
    obtain ⟨front, rfl, hfront⟩ := ih h
    refine ⟨c :: front, rfl, ?_⟩
    rcases Decidable.em (c = '\\') with rfl | hc
    · cases front with
      | nil => exact (hescape _ _ rfl rfl).elim
      | cons d front => exact (hescape _ _ rfl rfl).elim
    · rw [escapesNext_cons hc, hfront]

/-! ## Texts that are alike -/

/-- A text that ends every word in front of it: it starts with a comma or an exclamation mark, or
it is empty or a backslash that escapes nothing. -/
def EndsWords (text : List Char) : Prop :=
  text = ['\\'] ∨ ∀ c, text.head? = some c → c = ',' ∨ c = '!'

theorem EndsWords.nil : EndsWords [] := .inr (by simp)

theorem EndsWords.cons {c : Char} (hc : c = ',' ∨ c = '!') (rest : List Char) :
    EndsWords (c :: rest) := by
  right
  intro d hd
  rwa [← Option.some.inj hd]

theorem EndsWords.head?_ne {text : List Char} (h : EndsWords text) {c : Char}
    (hc : c ∉ ['\\', ',', '!']) : text.head? ≠ some c := by
  intro hhead
  rcases h with rfl | h
  · obtain rfl := Option.some.inj hhead
    exact hc (by simp)
  · rcases h c hhead with rfl | rfl
    · exact hc (by simp)
    · exact hc (by simp)

theorem EndsWords.head?_eq_false {text : List Char} {kind : Char → Bool} (h : EndsWords text)
    (hkind : (['\\', ',', '!'].all fun c => !kind c) = true) {c : Char}
    (hhead : text.head? = some c) : kind c = false := by
  have hmem : c ∈ ['\\', ',', '!'] := Decidable.byContradiction fun hc => h.head?_ne hc hhead
  simpa using List.all_eq_true.mp hkind c hmem

theorem EndsWords.name_eq {text : List Char} (h : EndsWords text) : name text = ([], text) := by
  rcases h with rfl | h
  · rfl
  · apply name_nil_of_head?
    intro c hc hhead
    rcases h c hhead with rfl | rfl
    · exact absurd hc (by decide)
    · exact absurd hc (by decide)

/-- Two texts are the same up to where `more` follows in one and `more'` in the other. What is the
same does not escape what follows. -/
inductive Alike (more more' : List Char) : List Char → List Char → Prop where
  | refl : Alike more more' more more'
  | cons {c : Char} {rest rest' : List Char} (hc : c ≠ '\\') :
      Alike more more' rest rest' → Alike more more' (c :: rest) (c :: rest')
  | escape (c : Char) {rest rest' : List Char} :
      Alike more more' rest rest' → Alike more more' ('\\' :: c :: rest) ('\\' :: c :: rest')

theorem Alike.of_front {front : List Char} (h : escapesNext front = false)
    (more more' : List Char) : Alike more more' (front ++ more) (front ++ more') := by
  fun_induction escapesNext front with
  | case1 => exact .refl
  | case2 => contradiction
  | case3 c front ih => exact .escape c (ih h)
  | case4 c front hlone hescape ih =>
    exact .cons (ne_backslash_of_not_escape hlone hescape) (ih h)

/-- The same was read from the starts of two texts, and the rests of these are alike. -/
structure ReadAlike {α : Type} (more more' : List Char) (found found' : α × List Char) : Prop where
  fst_eq : found'.1 = found.1
  alike : Alike more more' found.2 found'.2

section

variable {α : Type} {more more' : List Char} {read read' : Option (α × List Char)}

theorem some_alike (h : Option.Rel (ReadAlike more more') read read') {found : α × List Char}
    (hread : read = some found) :
    ∃ found', read' = some found' ∧ ReadAlike more more' found found' := by
  subst hread
  cases h with
  | some hfound => exact ⟨_, rfl, hfound⟩

theorem none_alike (h : Option.Rel (ReadAlike more more') read read') (hread : read = none) :
    read' = none := by
  subst hread
  cases h with
  | none => rfl

end

section

variable {more more' text text' : List Char}

theorem Alike.exists_front (h : Alike more more' text text') :
    ∃ front, escapesNext front = false ∧ text = front ++ more ∧ text' = front ++ more' := by
  induction h with
  | refl => exact ⟨[], rfl, rfl, rfl⟩
  | @cons c _ _ hc _ ih =>
    obtain ⟨front, hfront, rfl, rfl⟩ := ih
    exact ⟨c :: front, by rw [escapesNext_cons hc, hfront], rfl, rfl⟩
  | escape c _ ih =>
    obtain ⟨front, hfront, rfl, rfl⟩ := ih
    exact ⟨'\\' :: c :: front, hfront, rfl, rfl⟩

theorem Alike.eq_append {front : List Char} (h : Alike more more' (front ++ more) text') :
    text' = front ++ more' := by
  obtain ⟨front', -, hfront, rfl⟩ := h.exists_front
  rw [List.append_cancel_right hfront]

theorem Alike.eq_of_more (h : Alike more more' more text') : text' = more' :=
  @Alike.eq_append _ _ _ [] h

/-- What was read from one text stands in the other too, where it ends in front of `more`. -/
theorem Alike.exists_behind {taken behind : List Char}
    (h : Alike more more' (taken ++ behind) text') (htaken : escapesNext taken = false)
    (hbehind : more <:+ behind) :
    ∃ behind', text' = taken ++ behind' ∧ Alike more more' behind behind' := by
  obtain ⟨front, hfront, he, rfl⟩ := h.exists_front
  obtain ⟨front', rfl⟩ := hbehind
  rw [← List.append_assoc] at he
  obtain rfl := List.append_cancel_right he
  rw [escapesNext_append htaken] at hfront
  exact ⟨front' ++ more', List.append_assoc _ _ _, .of_front hfront more more'⟩

/-- Only a separator can stand first in one of two alike texts and not in the other. -/
theorem Alike.head?_eq (h : Alike more more' text text') (hmore' : EndsWords more') {c : Char}
    (hc : c ∉ ['\\', ',', '!']) (hhead : text'.head? = some c) : text.head? = some c := by
  cases h with
  | refl => exact (hmore'.head?_ne hc hhead).elim
  | cons _ _ => exact hhead
  | escape c _ => exact hhead

/-! ## Names -/

theorem name_cons {c : Char} (hc : c ≠ '\\') (rest : List Char) :
    name (c :: rest) =
      if isNameCharacter c then (c :: (name rest).1, (name rest).2) else ([], c :: rest) := by
  rw [name]
  exact fun d behind he => absurd he hc

theorem name_alike (hmore : EndsWords more) (hmore' : EndsWords more')
    (h : Alike more more' text text') : ReadAlike more more' (name text) (name text') := by
  induction h with
  | refl =>
    rw [hmore.name_eq, hmore'.name_eq]
    exact ⟨rfl, .refl⟩
  | @cons c rest rest' hc hrest ih =>
    rw [name_cons hc, name_cons hc]
    by_cases hname : isNameCharacter c = true
    · rw [if_pos hname, if_pos hname]
      exact ⟨congrArg (c :: ·) ih.fst_eq, ih.alike⟩
    · rw [if_neg hname, if_neg hname]
      exact ⟨rfl, .cons hc hrest⟩
  | escape c _ ih =>
    rw [name, name]
    exact ⟨congrArg ('\\' :: c :: ·) ih.fst_eq, ih.alike⟩

theorem identifier?_alike (hmore : EndsWords more) (hmore' : EndsWords more')
    (h : Alike more more' text text') :
    Option.Rel (ReadAlike more more') (identifier? text) (identifier? text') := by
  have hname := name_alike hmore hmore' h
  rw [identifier?, identifier?, hname.fst_eq]
  split
  · exact .none
  · exact .some hname

theorem hash?_of_ne (h : text.head? ≠ some '#') : hash? text = none := by
  unfold hash?
  split
  · exact (h rfl).elim
  · rfl

theorem hash?_alike (hmore : EndsWords more) (hmore' : EndsWords more')
    (h : Alike more more' text text') :
    Option.Rel (ReadAlike more more') (hash? text) (hash? text') := by
  cases h with
  | refl =>
    rw [hash?_of_ne (hmore.head?_ne (by decide)), hash?_of_ne (hmore'.head?_ne (by decide))]
    exact .none
  | @cons c rest rest' hc hrest =>
    by_cases hhash : c = '#'
    · subst hhash
      have hname := name_alike hmore hmore' hrest
      rw [hash?, hash?, hname.fst_eq]
      split
      · exact .none
      · exact .some hname
    · rw [hash?_of_ne (by simpa using hhash), hash?_of_ne (by simpa using hhash)]
      exact .none
  | escape c _ => exact .none

/-! ## Numbers -/

theorem digits_cons (c : Char) (rest : List Char) :
    digits (c :: rest) =
      if c.isDigit then (c :: (digits rest).1, (digits rest).2) else ([], c :: rest) := by
  simp only [digits, List.takeWhile_cons, List.dropWhile_cons]
  split <;> rfl

theorem EndsWords.digits_eq (h : EndsWords text) : digits text = ([], text) := by
  cases text with
  | nil => rfl
  | cons c rest =>
    have hdigit : c.isDigit = false := h.head?_eq_false (by decide) rfl
    rw [digits_cons, hdigit, if_neg Bool.false_ne_true]

theorem digits_alike (hmore : EndsWords more) (hmore' : EndsWords more')
    (h : Alike more more' text text') : ReadAlike more more' (digits text) (digits text') := by
  induction h with
  | refl =>
    rw [hmore.digits_eq, hmore'.digits_eq]
    exact ⟨rfl, .refl⟩
  | @cons c rest rest' hc hrest ih =>
    rw [digits_cons, digits_cons]
    by_cases hdigit : c.isDigit = true
    · rw [if_pos hdigit, if_pos hdigit]
      exact ⟨congrArg (c :: ·) ih.fst_eq, ih.alike⟩
    · rw [if_neg hdigit, if_neg hdigit]
      exact ⟨rfl, .cons hc hrest⟩
  | escape c hrest _ => exact ⟨rfl, .escape c hrest⟩

theorem sign_of_ne (hplus : text.head? ≠ some '+') (hminus : text.head? ≠ some '-') :
    sign text = ([], text) := by
  unfold sign
  split
  · exact (hplus rfl).elim
  · exact (hminus rfl).elim
  · rfl

theorem sign_alike (hmore : EndsWords more) (hmore' : EndsWords more')
    (h : Alike more more' text text') : ReadAlike more more' (sign text) (sign text') := by
  cases h with
  | refl =>
    rw [sign_of_ne (hmore.head?_ne (by decide)) (hmore.head?_ne (by decide)),
      sign_of_ne (hmore'.head?_ne (by decide)) (hmore'.head?_ne (by decide))]
    exact ⟨rfl, .refl⟩
  | @cons c rest rest' hc hrest =>
    by_cases hplus : c = '+'
    · subst hplus
      exact ⟨rfl, hrest⟩
    · by_cases hminus : c = '-'
      · subst hminus
        exact ⟨rfl, hrest⟩
      · rw [sign_of_ne (by simpa using hplus) (by simpa using hminus),
          sign_of_ne (by simpa using hplus) (by simpa using hminus)]
        exact ⟨rfl, .cons hc hrest⟩
  | escape c hrest => exact ⟨rfl, .escape c hrest⟩

theorem fraction_of_ne (h : text.head? ≠ some '.') : fraction text = ([], text) := by
  unfold fraction
  split
  · exact (h rfl).elim
  · rfl

theorem fraction_alike (hmore : EndsWords more) (hmore' : EndsWords more')
    (h : Alike more more' text text') : ReadAlike more more' (fraction text) (fraction text') := by
  cases h with
  | refl =>
    rw [fraction_of_ne (hmore.head?_ne (by decide)), fraction_of_ne (hmore'.head?_ne (by decide))]
    exact ⟨rfl, .refl⟩
  | @cons c rest rest' hc hrest =>
    by_cases hpoint : c = '.'
    · subst hpoint
      have hdigits := digits_alike hmore hmore' hrest
      rw [fraction, fraction, hdigits.fst_eq]
      split
      · exact ⟨rfl, .cons hc hrest⟩
      · exact ⟨rfl, hdigits.alike⟩
    · rw [fraction_of_ne (by simpa using hpoint), fraction_of_ne (by simpa using hpoint)]
      exact ⟨rfl, .cons hc hrest⟩
  | escape c hrest => exact ⟨rfl, .escape c hrest⟩

theorem magnitude?_alike (hmore : EndsWords more) (hmore' : EndsWords more')
    (h : Alike more more' text text') :
    Option.Rel (ReadAlike more more') (magnitude? text) (magnitude? text') := by
  have hwhole := digits_alike hmore hmore' h
  have hpart := fraction_alike hmore hmore' hwhole.alike
  simp only [magnitude?, hwhole.fst_eq, hpart.fst_eq]
  split
  · exact .none
  · exact .some ⟨rfl, hpart.alike⟩

theorem EndsWords.exponent_eq (h : EndsWords text) : exponent text = ([], text) := by
  cases text with
  | nil => rfl
  | cons c rest =>
    rw [exponent, if_neg]
    rintro ⟨rfl | rfl, -⟩
    · exact h.head?_ne (by decide) rfl
    · exact h.head?_ne (by decide) rfl

theorem exponent_alike (hmore : EndsWords more) (hmore' : EndsWords more')
    (h : Alike more more' text text') : ReadAlike more more' (exponent text) (exponent text') := by
  cases h with
  | refl =>
    rw [hmore.exponent_eq, hmore'.exponent_eq]
    exact ⟨rfl, .refl⟩
  | @cons c rest rest' hc hrest =>
    have hmark := sign_alike hmore hmore' hrest
    have hpower := digits_alike hmore hmore' hmark.alike
    simp only [exponent, hmark.fst_eq, hpower.fst_eq]
    split
    · exact ⟨rfl, hpower.alike⟩
    · exact ⟨rfl, .cons hc hrest⟩
  | escape c hrest => exact ⟨rfl, .escape c hrest⟩

theorem dimension_of_ne (h : text.head? ≠ some '%') :
    dimension text = (identifier? text).getD ([], text) := by
  unfold dimension
  split
  · exact (h rfl).elim
  · rfl

theorem getD_alike {found found' : Option (List Char × List Char)}
    (hfound : Option.Rel (ReadAlike more more') found found')
    (h : Alike more more' text text') :
    ReadAlike more more' (found.getD ([], text)) (found'.getD ([], text')) := by
  cases hfound with
  | none => exact ⟨rfl, h⟩
  | some hread => exact hread

theorem dimension_alike (hmore : EndsWords more) (hmore' : EndsWords more')
    (h : Alike more more' text text') :
    ReadAlike more more' (dimension text) (dimension text') := by
  have hunit := getD_alike (identifier?_alike hmore hmore' h) h
  cases h with
  | refl =>
    rwa [dimension_of_ne (hmore.head?_ne (by decide)),
      dimension_of_ne (hmore'.head?_ne (by decide))]
  | @cons c rest rest' hc hrest =>
    by_cases hpercent : c = '%'
    · subst hpercent
      exact ⟨rfl, hrest⟩
    · rwa [dimension_of_ne (by simpa using hpercent), dimension_of_ne (by simpa using hpercent)]
  | escape c _ => exact hunit

theorem number?_alike (hmore : EndsWords more) (hmore' : EndsWords more')
    (h : Alike more more' text text') :
    Option.Rel (ReadAlike more more') (number? text) (number? text') := by
  have hsign := sign_alike hmore hmore' h
  have hamount := magnitude?_alike hmore hmore' hsign.alike
  rw [number?, number?]
  generalize magnitude? (sign text).2 = amount at hamount ⊢
  generalize magnitude? (sign text').2 = amount' at hamount ⊢
  cases hamount with
  | none => exact .none
  | some hamount =>
    have hpower := exponent_alike hmore hmore' hamount.alike
    have hunit := dimension_alike hmore hmore' hpower.alike
    refine .some ⟨?_, hunit.alike⟩
    simp only [hsign.fst_eq, hamount.fst_eq, hpower.fst_eq, hunit.fst_eq]

end

end WebFonts.Css
