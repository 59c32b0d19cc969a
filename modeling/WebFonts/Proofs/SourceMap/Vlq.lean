import Mathlib.Data.List.GetD
import Mathlib.Tactic.Ring
import WebFonts.Proofs.SourceMap.Checked

/-! # Reading back variable-length quantities

Nothing overflows while an integer of less than 62 bits is written or read. -/

namespace WebFonts.SourceMap.Vlq

/-! ## Digits -/

theorem digit_mem_alphabet (n : Nat) : digit n ∈ alphabet := by
  unfold digit
  by_cases h : n < alphabet.length
  · rw [List.getD_eq_getElem _ _ h]
    exact List.getElem_mem h
  · rw [List.getD_eq_default _ _ (Nat.le_of_not_lt h)]
    decide +kernel

theorem value?_digit {n : Nat} (h : n < 64) : value? (digit n) = some n := by
  have all : ∀ m < 64, value? (digit m) = some m := by decide +kernel
  exact all n h

/-- No digit is one of the signs that separate segments and lines. -/
theorem separator_not_mem_alphabet : ',' ∉ alphabet ∧ ';' ∉ alphabet := by decide +kernel

theorem mem_alphabet_of_mem_encodeNat {n : Nat} {c : Char} (h : c ∈ encodeNat n) :
    c ∈ alphabet := by
  induction n using Nat.strongRecOn with
  | ind n ih =>
    rw [encodeNat] at h
    split at h
    · rw [List.mem_singleton] at h
      exact h ▸ digit_mem_alphabet n
    · rcases List.mem_cons.mp h with rfl | h
      · exact digit_mem_alphabet _
      · exact ih (n / 32) (by omega) h

theorem mem_alphabet_of_mem_encode {v : Int} {c : Char} (h : c ∈ encode v) : c ∈ alphabet :=
  mem_alphabet_of_mem_encodeNat h

theorem encode_ne_nil (v : Int) : encode v ≠ [] := by
  rw [encode, encodeNat]
  split <;> simp

theorem unfold_fold (v : Int) : unfold (fold v : Nat) = v := by
  unfold unfold fold
  split <;> split <;> omega

theorem fold_lt {v : Int} (h : v.natAbs < 2 ^ 62) : fold v < 2 ^ 63 := by
  unfold fold
  split <;> omega

end WebFonts.SourceMap.Vlq

namespace WebFonts.SourceMap.Checked

open Vlq

/-! ## Writing in words -/

theorem fold?_eq {v : Int} (h : v.natAbs < 2 ^ 62) : fold? v = some (fold v : Int) := by
  unfold fold? fold
  split
  · have hsize : word? (-v) = some (-v) := word?_of_bounds (by omega) (by omega)
    have hdouble : word? (2 * -v) = some (2 * -v) := word?_of_bounds (by omega) (by omega)
    have hfold : word? (2 * -v + 1) = some (2 * -v + 1) := word?_of_bounds (by omega) (by omega)
    simp only [hsize, hdouble, hfold, Option.bind_eq_bind, Option.bind_some]
    congr 1
    omega
  · rw [word?_of_bounds (by omega) (by omega)]
    congr 1
    omega

theorem encode?_eq {v : Int} (h : v.natAbs < 2 ^ 62) : encode? v = some (encode v) := by
  rw [encode?, fold?_eq h]
  rfl

/-! ## Reading what was written -/

theorem weight?_eq {n shift : Nat} (hshift : shift < 64) (h : n * 2 ^ shift < 2 ^ 63) :
    weight? n shift = some ((n * 2 ^ shift : Nat) : Int) := by
  rw [weight?, if_pos hshift, word?_natCast h]

theorem word?_unfold {n : Nat} (h : n < 2 ^ 63) : word? (unfold n) = some (unfold n) := by
  unfold unfold
  split <;> exact word?_of_bounds (by omega) (by omega)

theorem decodeFrom?_cons {c : Char} {n : Nat} (hc : value? c = some n) (sum : Int) (shift : Nat)
    (rest : List Char) :
    decodeFrom? sum shift (c :: rest) = (do
      let weight ← weight? (n % 32) shift
      let sum ← word? (sum + weight)
      if n < 32 then
        let v ← word? (unfold sum)
        return (v, rest)
      else decodeFrom? sum (shift + 5) rest) := by
  rw [decodeFrom?, hc]
  rfl

/-- One digit adds its weight to the sum, as long as all fits in a word. -/
theorem decodeFrom?_digit {n sum shift : Nat} (hn : n < 64) (hshift : shift < 64)
    (h : sum + n % 32 * 2 ^ shift < 2 ^ 63) (rest : List Char) :
    decodeFrom? sum shift (digit n :: rest) =
      if n < 32 then some (unfold ((sum + n % 32 * 2 ^ shift : Nat) : Int), rest)
      else decodeFrom? ((sum + n % 32 * 2 ^ shift : Nat) : Int) (shift + 5) rest := by
  have hweight := weight?_eq (n := n % 32) hshift (by omega)
  have hsum : word? ((sum : Int) + (n % 32 * 2 ^ shift : Nat)) =
      some ((sum + n % 32 * 2 ^ shift : Nat) : Int) := by
    rw [← Int.natCast_add, word?_natCast h]
  rw [decodeFrom?_cons (value?_digit hn), hweight, Option.bind_eq_bind, Option.bind_some, hsum,
    Option.bind_some, word?_unfold h, Option.bind_some, Option.pure_def]

theorem decodeFrom?_encodeNat (n sum shift : Nat) (rest : List Char) (hshift : shift < 64)
    (h : sum + n * 2 ^ shift < 2 ^ 63) :
    decodeFrom? sum shift (encodeNat n ++ rest) =
      some (unfold ((sum + n * 2 ^ shift : Nat) : Int), rest) := by
  induction n using Nat.strongRecOn generalizing sum shift with
  | ind n ih =>
    rw [encodeNat]
    split
    · rename_i hn
      have hmod : n % 32 = n := Nat.mod_eq_of_lt hn
      rw [List.cons_append, List.nil_append,
        decodeFrom?_digit (by omega) hshift (by rw [hmod]; exact h), if_pos hn, hmod]
    · rename_i hn
      have hmod : (n % 32 + 32) % 32 = n % 32 := by omega
      have hsplit : n % 32 * 2 ^ shift + n / 32 * 2 ^ (shift + 5) = n * 2 ^ shift := by
        calc
          n % 32 * 2 ^ shift + n / 32 * 2 ^ (shift + 5) =
              (n % 32 + 32 * (n / 32)) * 2 ^ shift := by ring
          _ = n * 2 ^ shift := by rw [Nat.mod_add_div]
      have hnext : shift + 5 < 63 := shift_lt (n := n / 32) (by omega) (by omega)
      rw [List.cons_append, decodeFrom?_digit (by omega) hshift (by rw [hmod]; omega),
        if_neg (by omega), hmod, ih (n / 32) (by omega) _ _ (by omega) (by omega)]
      rw [Nat.add_assoc, hsplit]

/-- An integer of less than 62 bits is read back, and nothing of the text behind it. -/
theorem decode?_encode_append {v : Int} (h : v.natAbs < 2 ^ 62) (rest : List Char) :
    decode? (encode v ++ rest) = some (v, rest) := by
  have hfold := fold_lt h
  have hread := decodeFrom?_encodeNat (fold v) 0 0 rest (by omega) (by omega)
  simpa [decode?, encode, unfold_fold] using hread

end WebFonts.SourceMap.Checked

namespace WebFonts.SourceMap.Vlq

/-! ## Quantities that end themselves -/

/-- An integer that is read back behind another one is that one. -/
theorem encode_isPrefix_iff {v w : Int} (hv : v.natAbs < 2 ^ 62) (hw : w.natAbs < 2 ^ 62) :
    encode v <+: encode w ↔ v = w := by
  constructor
  · rintro ⟨rest, hrest⟩
    have hread := Checked.decode?_encode_append hw []
    rw [List.append_nil, ← hrest, Checked.decode?_encode_append hv rest] at hread
    exact (Prod.mk.inj (Option.some.inj hread)).1
  · rintro rfl
    exact List.prefix_refl _

/-- An integer of less than 62 bits is spelled by Base64 digits, at least one. They are read back in
front of any text, and neither their writer nor their reader meets a number beyond 64 bits or a
shift by 64 places. No integer is spelled by the first digits of another. -/
theorem decode_encode_append {v : Int} (hv : v.natAbs < 2 ^ 62) (rest : List Char) :
    (encode v ≠ [] ∧ ∀ c ∈ encode v, c ∈ alphabet) ∧
      Checked.encode? v = some (encode v) ∧
      Checked.decode? (encode v ++ rest) = some (v, rest) ∧
      decode (encode v ++ rest) = some (v, rest) ∧
      ∀ w : Int, w.natAbs < 2 ^ 62 → (encode v <+: encode w ↔ v = w) := by
  have hread := Checked.decode?_encode_append hv rest
  refine ⟨⟨encode_ne_nil v, ?_⟩, Checked.encode?_eq hv, hread, Checked.decode_eq hread, ?_⟩
  · intro c hc
    exact mem_alphabet_of_mem_encode hc
  · intro w hw
    exact encode_isPrefix_iff hv hw

/-- The least integer, whose last digit reaches the highest bit of the sum, in front of more digits,
and the greatest, which differs from it in the first digit only. -/
theorem decode_encode_append_extremes :
    let least : Int := -4611686018427387903
    let greatest : Int := 4611686018427387903
    least.natAbs < 2 ^ 62 ∧ greatest.natAbs < 2 ^ 62 ∧
      encode least = "////////////H".toList ∧ encode greatest = "+///////////H".toList ∧
      Checked.decode? ("////////////H".toList ++ "gB".toList) = some (least, "gB".toList) ∧
      ¬encode least <+: encode greatest := by
  intro least greatest
  have hleast : least.natAbs < 2 ^ 62 := by decide
  have hgreatest : greatest.natAbs < 2 ^ 62 := by decide
  have hdigits : encode least = "////////////H".toList := by decide +kernel
  obtain ⟨-, -, hread, -, hfirst⟩ := decode_encode_append hleast "gB".toList
  rw [hdigits] at hread
  refine ⟨hleast, hgreatest, hdigits, by decide +kernel, hread, ?_⟩
  rw [hfirst greatest hgreatest]
  decide

end WebFonts.SourceMap.Vlq
