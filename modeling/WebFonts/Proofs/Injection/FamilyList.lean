import Mathlib.Data.List.Forall2
import WebFonts.Injection.Families
import WebFonts.Proofs.Css.Separation

/-! # Lists of families

A list of families is read item by item, and the families that it names are those of its items. -/

namespace WebFonts.Css

open Text

/-- Items with commas between them are read one by one. -/
theorem tokens?_intercalate {items : List (List Char)} {founds : List (List Token)}
    (h : List.Forall₂ (fun item found => tokens? item = some found) items founds) :
    tokens? (List.intercalate [','] items) = some (List.intercalate [.operator ','] founds) := by
  induction h with
  | nil => exact tokens?_of_end (gap_nil false)
  | @cons item found items founds hfound hrest ih =>
    cases hrest with
    | nil => simpa [List.intercalate_singleton] using hfound
    | cons hnext hlast =>
      rw [List.intercalate_cons_cons, List.intercalate_cons_cons, List.append_assoc,
        List.singleton_append, tokens?_append hfound (.cons (.inl rfl) _), tokens?_comma, ih]
      simp

theorem families_intercalate (founds : List (List Token)) :
    (Value.tokens (List.intercalate [.operator ','] founds)).families =
      founds.flatMap fun found => (Value.tokens found).families := by
  induction founds with
  | nil => rfl
  | cons found founds ih =>
    cases founds with
    | nil => simp [List.intercalate_singleton]
    | cons next founds =>
      simp only [Value.families] at ih ⊢
      rw [List.intercalate_cons_cons, List.filterMap_append, List.filterMap_append, ih]
      simp [Token.family?]

/-- Values with a comma between them are read as one list, which names the families of the first and
then those of the second. -/
theorem Value.read_comma {property text text' : List Char} {found found' : List Token}
    (h : Value.read property text = .tokens found)
    (h' : Value.read property text' = .tokens found') :
    Value.read property (text ++ ',' :: text') = .tokens (found ++ .operator ',' :: found') ∧
      (Value.read property (text ++ ',' :: text')).families =
        (Value.read property text).families ++ (Value.read property text').families := by
  obtain ⟨hproperty, htokens⟩ := read_eq_tokens_iff.mp h
  obtain ⟨-, htokens'⟩ := read_eq_tokens_iff.mp h'
  have hlist : Value.read property (text ++ ',' :: text') =
      .tokens (found ++ .operator ',' :: found') := by
    refine read_eq_tokens_iff.mpr ⟨hproperty, ?_⟩
    rw [tokens?_append htokens (.cons (.inl rfl) _), tokens?_comma, htokens']
    rfl
  refine ⟨hlist, ?_⟩
  rw [hlist, h, h']
  exact List.filterMap_append

/-- A comma ends the unit of a number, and those in strings, escapes and comments do not count. -/
theorem Value.read_comma_units :
    Value.read "font".toList "'x,y' 1e".toList = .tokens [.string "x,y", .number "1e"] ∧
      Value.read "font".toList "3 /*,*/ B\\,".toList =
        .tokens [.number "3", .identifier "B,"] ∧
      Value.read "font".toList "'x,y' 1e,3 /*,*/ B\\,".toList =
        .tokens [.string "x,y", .number "1e", .operator ',', .number "3", .identifier "B,"] ∧
      (Value.read "font".toList "'x,y' 1e,3 /*,*/ B\\,".toList).families = ["x,y", "B,"] := by
  have hfirst : Value.read "font".toList "'x,y' 1e".toList =
      .tokens [.string "x,y", .number "1e"] := by decide +kernel
  have hsecond : Value.read "font".toList "3 /*,*/ B\\,".toList =
      .tokens [.number "3", .identifier "B,"] := by decide +kernel
  obtain ⟨hlist, hfamilies⟩ := Value.read_comma hfirst hsecond
  refine ⟨hfirst, hsecond, hlist, ?_⟩
  rw [hfirst, hsecond] at hfamilies
  exact hfamilies

end WebFonts.Css
