import Mathlib.Tactic.NormNum
import WebFonts.SourceMap.Mappings

/-! # Mappings in arithmetic without overflow

The writer and the reader of mappings once more, so that they give nothing as soon as a number is
no signed word of 64 bits or a digit is shifted by 64 places or more. A text that is read in this
way is read alike by words that wrap. -/

namespace WebFonts.SourceMap

/-! ## Words -/

theorem Vlq.word_of_bounds {n : Int} (hlow : -2 ^ 63 ≤ n) (hhigh : n < 2 ^ 63) : word n = n := by
  unfold word
  exact Int.bmod_eq_of_le (by norm_num; omega) (by norm_num; omega)

theorem Vlq.word_natCast {n : Nat} (h : n < 2 ^ 63) : word (n : Int) = n :=
  word_of_bounds (by omega) (by omega)

/-- A shift that keeps a positive number within a word is smaller than the word. -/
theorem Vlq.shift_lt {n shift : Nat} (hn : 0 < n) (h : n * 2 ^ shift < 2 ^ 63) : shift < 63 := by
  have hle : 2 ^ shift ≤ n * 2 ^ shift := Nat.le_mul_of_pos_left _ hn
  exact (Nat.pow_lt_pow_iff_right (by decide)).mp (hle.trans_lt h)

namespace Checked

/-- An integer, if it is a signed word of 64 bits. -/
def word? (n : Int) : Option Int := if -2 ^ 63 ≤ n ∧ n < 2 ^ 63 then some n else none

theorem word?_of_bounds {n : Int} (hlow : -2 ^ 63 ≤ n) (hhigh : n < 2 ^ 63) : word? n = some n :=
  if_pos ⟨hlow, hhigh⟩

theorem word?_natCast {n : Nat} (h : n < 2 ^ 63) : word? (n : Int) = some (n : Int) :=
  word?_of_bounds (by omega) (by omega)

theorem eq_of_word? {n m : Int} (h : word? n = some m) : m = n ∧ Vlq.word n = n := by
  unfold word? at h
  split at h
  · rename_i hbounds
    exact ⟨(Option.some.inj h).symm, Vlq.word_of_bounds hbounds.1 hbounds.2⟩
  · contradiction

/-! ## Writing -/

/-- An integer with its sign moved to the lowest bit. -/
def fold? (v : Int) : Option Int := do
  if v < 0 then
    let size ← word? (-v)
    let double ← word? (2 * size)
    word? (double + 1)
  else word? (2 * v)

/-- The digits of an integer. They are smaller than the word that they are cut from. -/
def encode? (v : Int) : Option (List Char) :=
  (fold? v).map fun n => Vlq.encodeNat n.toNat

/-- A segment in digits. -/
def encodeDelta? (delta : Delta) : Option (List Char) := do
  let generated ← encode? (← word? delta.generated)
  match delta.place with
  | none => return generated
  | some (line, column) =>
    let source ← encode? 0
    let line ← encode? (← word? line)
    let column ← encode? (← word? column)
    return generated ++ (source ++ line ++ column)

/-- The spelling of the segments of every line. -/
def writeMappings? (lines : List (List Segment)) : Option (List Char) := do
  let texts ← (deltas 0 0 lines).mapM fun line => line.mapM encodeDelta?
  return List.intercalate [';'] (texts.map fun line => List.intercalate [','] line)

/-! ## Reading -/

/-- What a digit adds to a number, if it is not shifted by a whole word. -/
def weight? (n shift : Nat) : Option Int :=
  if shift < 64 then word? (n * 2 ^ shift : Nat) else none

/-- Reads on at a digit of weight `2 ^ shift`, given what the digits before it add up to. -/
def decodeFrom? (sum : Int) (shift : Nat) : List Char → Option (Int × List Char)
  | [] => none
  | c :: rest => do
    let n ← Vlq.value? c
    let weight ← weight? (n % 32) shift
    let sum ← word? (sum + weight)
    if n < 32 then
      let v ← word? (Vlq.unfold sum)
      return (v, rest)
    else decodeFrom? sum (shift + 5) rest

/-- The integer at the start of a text, and the text behind its last digit. -/
def decode? (text : List Char) : Option (Int × List Char) := decodeFrom? 0 0 text

/-- Reads a segment. -/
def decodeDelta? (text : List Char) : Option Delta := do
  let (generated, rest) ← decode? text
  if rest.isEmpty then return ⟨generated, none⟩
  let (_, rest) ← decode? rest
  let (line, rest) ← decode? rest
  let (column, _) ← decode? rest
  return ⟨generated, some (line, column)⟩

/-- The segments of a line and the place in the source behind it. -/
def lineSegments? (generated line column : Int) : List Delta → Option (List Segment × Int × Int)
  | [] => some ([], line, column)
  | ⟨distance, none⟩ :: rest => do
    let generated ← word? (generated + distance)
    lineSegments? generated line column rest
  | ⟨distance, some (lines, columns)⟩ :: rest => do
    let generated ← word? (generated + distance)
    let line ← word? (line + lines)
    let column ← word? (column + columns)
    let segment := ⟨← position? generated, ← position? line, ← position? column⟩
    let (segments, last) ← lineSegments? generated line column rest
    return (segment :: segments, last)

/-- The segments of all lines. -/
def segments? (line column : Int) : List (List Delta) → Option (List (List Segment))
  | [] => some []
  | distances :: rest => do
    let (found, line, column) ← lineSegments? 0 line column distances
    return found :: (← segments? line column rest)

/-- The segments that a text spells. -/
def readMappings? (text : List Char) : Option (List (List Segment)) := do
  let lines ← (Text.splitAt ';' text).mapM fun line =>
    ((Text.splitAt ',' line).filter fun s => !s.isEmpty).mapM decodeDelta?
  segments? 0 0 lines

/-! ## Agreement with words that wrap -/

theorem weight_eq {n shift : Nat} {weight : Int} (h : weight? n shift = some weight) :
    Vlq.word (n * Nat.pow 2 (shift % 64) : Nat) = weight := by
  unfold weight? at h
  split at h
  · rename_i hshift
    obtain ⟨rfl, hword⟩ := eq_of_word? h
    rw [Nat.mod_eq_of_lt hshift]
    exact hword
  · contradiction

theorem decodeFrom_eq {sum : Int} {shift : Nat} {text : List Char} {found : Int × List Char}
    (h : decodeFrom? sum shift text = some found) :
    Vlq.decodeFrom sum shift text = some found := by
  induction text generalizing sum shift with
  | nil => contradiction
  | cons c rest ih =>
    simp only [decodeFrom?, Option.bind_eq_bind, Option.bind_eq_some_iff] at h
    obtain ⟨n, hn, weight, hweight, next, hsum, hrest⟩ := h
    obtain ⟨rfl, hword⟩ := eq_of_word? hsum
    simp only [Vlq.decodeFrom, hn, weight_eq hweight, hword]
    split at hrest
    · rename_i hlast
      obtain ⟨v, hv, hfound⟩ := Option.bind_eq_some_iff.mp hrest
      obtain ⟨rfl, -⟩ := eq_of_word? hv
      rw [if_pos hlast]
      exact hfound
    · rename_i hmore
      rw [if_neg hmore]
      exact ih hrest

theorem decode_eq {text : List Char} {found : Int × List Char} (h : decode? text = some found) :
    Vlq.decode text = some found :=
  decodeFrom_eq h

theorem decodeDelta_eq {text : List Char} {delta : Delta} (h : decodeDelta? text = some delta) :
    Delta.decode text = some delta := by
  simp only [decodeDelta?, Option.bind_eq_bind, Option.bind_eq_some_iff] at h
  obtain ⟨⟨generated, behind⟩, hgenerated, h⟩ := h
  simp only [Delta.decode, Option.bind_eq_bind, decode_eq hgenerated, Option.bind_some]
  split at h
  · rename_i hend
    rw [if_pos hend]
    exact h
  · rename_i hmore
    obtain ⟨⟨source, behindSource⟩, hsource, h⟩ := Option.bind_eq_some_iff.mp h
    obtain ⟨⟨line, behindLine⟩, hline, h⟩ := Option.bind_eq_some_iff.mp h
    obtain ⟨⟨column, behindColumn⟩, hcolumn, h⟩ := Option.bind_eq_some_iff.mp h
    simp only [hmore, Bool.false_eq_true, ↓reduceIte, decode_eq hsource, decode_eq hline,
      decode_eq hcolumn, Option.bind_some]
    exact h

theorem lineSegments_eq {generated line column : Int} {distances : List Delta}
    {found : List Segment × Int × Int}
    (h : lineSegments? generated line column distances = some found) :
    lineSegments generated line column distances = some found := by
  induction distances generalizing generated line column found with
  | nil => exact h
  | cons delta rest ih =>
    obtain ⟨distance, place⟩ := delta
    cases place with
    | none =>
      simp only [lineSegments?, Option.bind_eq_bind, Option.bind_eq_some_iff] at h
      obtain ⟨next, hnext, hrest⟩ := h
      obtain ⟨rfl, hword⟩ := eq_of_word? hnext
      rw [lineSegments, hword]
      exact ih hrest
    | some place =>
      obtain ⟨lines, columns⟩ := place
      simp only [lineSegments?, Option.bind_eq_bind, Option.bind_eq_some_iff] at h
      obtain ⟨_, hgenerated, _, hline, _, hcolumn, h⟩ := h
      obtain ⟨rfl, hword₁⟩ := eq_of_word? hgenerated
      obtain ⟨rfl, hword₂⟩ := eq_of_word? hline
      obtain ⟨rfl, hword₃⟩ := eq_of_word? hcolumn
      obtain ⟨p, hp, q, hq, r, hr, ⟨segments, last⟩, hrest, hfound⟩ := h
      simp only [lineSegments, hword₁, hword₂, hword₃, hp, hq, hr, ih hrest, Option.bind_eq_bind,
        Option.bind_some]
      exact hfound

theorem segments_eq {line column : Int} {lines : List (List Delta)} {found : List (List Segment)}
    (h : segments? line column lines = some found) : segments line column lines = some found := by
  induction lines generalizing line column found with
  | nil => exact h
  | cons distances rest ih =>
    simp only [segments?, Option.bind_eq_bind, Option.bind_eq_some_iff] at h
    obtain ⟨⟨first, line, column⟩, hfirst, more, hmore, hfound⟩ := h
    simp only [segments, lineSegments_eq hfirst, ih hmore, Option.bind_eq_bind, Option.bind_some]
    exact hfound

/-- A list is read alike by a reader that agrees on each of its items. -/
theorem mapM_eq_of_imp {α β : Type} {f g : α → Option β} {as : List α} {bs : List β}
    (hf : as.mapM f = some bs) (h : ∀ a ∈ as, ∀ b ∈ bs, f a = some b → g a = some b) :
    as.mapM g = some bs := by
  induction as generalizing bs with
  | nil => exact hf
  | cons a as ih =>
    simp only [List.mapM_cons, Option.bind_eq_bind, Option.bind_eq_some_iff] at hf
    obtain ⟨b, hb, rest, hrest, hbs⟩ := hf
    obtain rfl := Option.some.inj hbs
    have hfirst := h a (by simp) b (by simp) hb
    have hmore := ih hrest fun a ha b hb => h a (by simp [ha]) b (by simp [hb])
    simp only [List.mapM_cons, hfirst, hmore, Option.bind_eq_bind, Option.bind_some]
    rfl

/-- What is read without overflow is read by words that wrap. -/
theorem readMappings_eq {text : List Char} {lines : List (List Segment)}
    (h : readMappings? text = some lines) : readMappings text = some lines := by
  simp only [readMappings?, Option.bind_eq_bind, Option.bind_eq_some_iff] at h
  obtain ⟨distances, hdistances, hlines⟩ := h
  have hread := mapM_eq_of_imp hdistances fun line _ found _ hline =>
    mapM_eq_of_imp hline fun _ _ _ _ => decodeDelta_eq
  rw [readMappings, hread]
  exact segments_eq hlines

end Checked

end WebFonts.SourceMap
