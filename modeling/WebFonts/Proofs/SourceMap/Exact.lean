import Mathlib.Data.Nat.Digits.Defs
import WebFonts.Proofs.SourceMap.Mappings
import WebFonts.SourceMap.Basic

/-! # The exact reading of mappings

What a text spells by the rules of the format, computed in integers without bounds. The reader of
words agrees with it on all texts in which nothing is too large for a word and no segment goes on
behind its fifth field. -/

namespace WebFonts.SourceMap

open Text

namespace Exact

/-! ## The rules of the format -/

/-- The fields that some digits make up. Each of them ends at its first digit below 32. -/
def fields? : List Nat → Option (List (List Nat))
  | [] => some []
  | d :: rest =>
    if d < 32 then (fields? rest).map fun fields => [d] :: fields
    else
      match fields? rest with
      | some (field :: fields) => some ((d :: field) :: fields)
      | _ => none

/-- The number that the digits of a field stand for, five bits each. -/
def number (field : List Nat) : Nat := Nat.ofDigits 32 (field.map (· % 32))

/-- The numbers of the fields that make up a text, if nothing else is in it. -/
def numbers? (text : List Char) : Option (List Nat) := do
  let digits ← text.mapM Vlq.value?
  let fields ← fields? digits
  return fields.map number

/-- A segment of one, four or five fields. Those for the source and for the name are not used. -/
def delta? (text : List Char) : Option Delta :=
  match numbers? text with
  | some [generated] => some ⟨Vlq.unfold generated, none⟩
  | some [generated, _, line, column] =>
    some ⟨Vlq.unfold generated, some (Vlq.unfold line, Vlq.unfold column)⟩
  | some [generated, _, line, column, _] =>
    some ⟨Vlq.unfold generated, some (Vlq.unfold line, Vlq.unfold column)⟩
  | _ => none

/-- The segments that stand in each line of a text, read one by one. Empty ones do not count. -/
def deltasBy (read : List Char → Option Delta) (text : List Char) : Option (List (List Delta)) :=
  (text.splitOn ';').mapM fun line => ((line.splitOn ',').filter fun s => !s.isEmpty).mapM read

/-- The segments that stand in each line of a text. -/
def deltas? (text : List Char) : Option (List (List Delta)) := deltasBy delta? text

/-- A generated column and the line and column in the source that it comes from. -/
structure Position where
  generated : Int
  line : Int
  column : Int
  deriving DecidableEq, Repr

/-- The positions of the segments of a line that have a place in the source. -/
def linePositions (generated line column : Int) : List Delta → List Position
  | [] => []
  | ⟨distance, none⟩ :: rest => linePositions (generated + distance) line column rest
  | ⟨distance, some (lines, columns)⟩ :: rest =>
    ⟨generated + distance, line + lines, column + columns⟩ ::
      linePositions (generated + distance) (line + lines) (column + columns) rest

/-- How far the segments of a line move the place in the source. -/
def moved (distances : List Delta) : Int × Int :=
  (((distances.filterMap (·.place)).map (·.1)).sum, ((distances.filterMap (·.place)).map (·.2)).sum)

/-- The positions of all lines. -/
def positions (line column : Int) : List (List Delta) → List (List Position)
  | [] => []
  | distances :: rest =>
    linePositions 0 line column distances ::
      positions (line + (moved distances).1) (column + (moved distances).2) rest

/-- A position as a segment, if all of it has 32 bits. -/
def Position.segment? (position : Position) : Option Segment := do
  return ⟨← position? position.generated, ← position? position.line, ← position? position.column⟩

/-- The segments that a text spells, if every segment is well-formed and every position has 32
bits. -/
def readMappings? (text : List Char) : Option (List (List Segment)) := do
  let lines ← deltas? text
  (positions 0 0 lines).mapM fun line => line.mapM Position.segment?

/-- The place in the source of a generated position. -/
def sourceOf? (map : SourceMap) (line column : Nat) : Option (Nat × Nat) := do
  let lines ← readMappings? map.mappings.toList
  let segments ← lines[line]?
  let segment ← segments.find? (·.generatedColumn == column)
  return (segment.sourceLine, segment.sourceColumn)

/-! ## Numbers one behind another -/

theorem numbers?_nil : numbers? [] = some [] := rfl

theorem numbers?_cons_of_none {c : Char} (hc : Vlq.value? c = none) (rest : List Char) :
    numbers? (c :: rest) = none := by
  simp [numbers?, hc]

/-- A last digit is a field of its own. -/
theorem numbers?_cons_of_lt {c : Char} {d : Nat} (hc : Vlq.value? c = some d) (hd : d < 32)
    (rest : List Char) :
    numbers? (c :: rest) = (numbers? rest).map fun ns => d :: ns := by
  have hnumber : number [d] = d := by simp [number, Nat.mod_eq_of_lt hd]
  simp only [numbers?, List.mapM_cons, hc, Option.bind_eq_bind, Option.bind_some]
  cases rest.mapM Vlq.value? with
  | none => rfl
  | some digits =>
    simp only [Option.pure_def, Option.bind_some, fields?, hd, ↓reduceIte]
    cases fields? digits with
    | none => rfl
    | some fields => simp [hnumber]

/-- Any other digit belongs to the field behind it. -/
theorem numbers?_cons_of_ge {c : Char} {d : Nat} (hc : Vlq.value? c = some d) (hd : ¬d < 32)
    (rest : List Char) :
    numbers? (c :: rest) =
      match numbers? rest with
      | some (n :: ns) => some ((d % 32 + 32 * n) :: ns)
      | _ => none := by
  simp only [numbers?, List.mapM_cons, hc, Option.bind_eq_bind, Option.bind_some]
  cases rest.mapM Vlq.value? with
  | none => rfl
  | some digits =>
    simp only [Option.pure_def, Option.bind_some, fields?, hd, ↓reduceIte]
    cases fields? digits with
    | none => rfl
    | some fields =>
      cases fields with
      | nil => rfl
      | cons field fields => simp [number, Nat.ofDigits_cons]

theorem eq_nil_of_numbers? {text : List Char} (h : numbers? text = some []) : text = [] := by
  cases text with
  | nil => rfl
  | cons c rest =>
    cases hc : Vlq.value? c with
    | none =>
      rw [numbers?_cons_of_none hc] at h
      contradiction
    | some d =>
      by_cases hd : d < 32
      · rw [numbers?_cons_of_lt hc hd] at h
        simp at h
      · rw [numbers?_cons_of_ge hc hd] at h
        split at h <;> simp at h

theorem numbers?_append {front : List Char} {ns : List Nat} (h : numbers? front = some ns)
    (rest : List Char) : numbers? (front ++ rest) = (numbers? rest).map fun more => ns ++ more := by
  induction front generalizing ns with
  | nil =>
    rw [numbers?_nil] at h
    obtain rfl := Option.some.inj h
    simp
  | cons c front ih =>
    rw [List.cons_append]
    cases hc : Vlq.value? c with
    | none =>
      rw [numbers?_cons_of_none hc] at h
      contradiction
    | some d =>
      by_cases hd : d < 32
      · rw [numbers?_cons_of_lt hc hd] at h ⊢
        obtain ⟨more, hmore, rfl⟩ := Option.map_eq_some_iff.mp h
        rw [ih hmore]
        cases numbers? rest <;> rfl
      · rw [numbers?_cons_of_ge hc hd] at h ⊢
        split at h
        · rename_i n more hmore
          obtain rfl := Option.some.inj h
          rw [ih hmore]
          cases numbers? rest <;> rfl
        · contradiction

/-! ## One field in words -/

theorem word_weight {n shift : Nat} (h : n * 2 ^ shift < 2 ^ 63) :
    Vlq.word (n * Nat.pow 2 (shift % 64) : Nat) = ((n * 2 ^ shift : Nat) : Int) := by
  rcases Nat.eq_zero_or_pos n with rfl | hn
  · rw [Nat.zero_mul, Nat.zero_mul]
    rfl
  · have hshift := Vlq.shift_lt hn h
    exact Checked.weight_eq (Checked.weight?_eq (by omega) h)

/-- What the reader of words takes from the front of a text is one field, and its number is right
if it fits in a word. -/
theorem exists_field_of_decodeFrom {text rest : List Char} {sum v : Int} {shift : Nat}
    (h : Vlq.decodeFrom sum shift text = some (v, rest)) :
    ∃ field n, text = field ++ rest ∧ numbers? field = some [n] ∧
      ∀ s : Nat, sum = s → s + n * 2 ^ shift < 2 ^ 63 →
        v = Vlq.unfold ((s + n * 2 ^ shift : Nat) : Int) := by
  induction text generalizing sum shift with
  | nil => contradiction
  | cons c text ih =>
    cases hc : Vlq.value? c with
    | none => simp [Vlq.decodeFrom, hc] at h
    | some d =>
      simp only [Vlq.decodeFrom, hc] at h
      have hsum {s : Nat} (hs : sum = s) (hfit : s + d % 32 * 2 ^ shift < 2 ^ 63) :
          Vlq.word (sum + Vlq.word (d % 32 * Nat.pow 2 (shift % 64) : Nat)) =
            ((s + d % 32 * 2 ^ shift : Nat) : Int) := by
        rw [word_weight (by omega), hs, ← Int.natCast_add, Vlq.word_natCast hfit]
      by_cases hd : d < 32
      · rw [if_pos hd] at h
        obtain ⟨rfl, rfl⟩ := Prod.mk.inj (Option.some.inj h)
        refine ⟨[c], d, rfl, numbers?_cons_of_lt hc hd [], fun s hs hfit => ?_⟩
        have hmod : d % 32 = d := Nat.mod_eq_of_lt hd
        rw [hsum hs (by rwa [hmod]), hmod]
      · rw [if_neg hd] at h
        -- The digits behind make up `n`; this one adds its five bits in front of them.
        obtain ⟨field, n, rfl, hfield, hvalue⟩ := ih h
        refine ⟨c :: field, d % 32 + 32 * n, rfl, ?_, fun s hs hfit => ?_⟩
        · rw [numbers?_cons_of_ge hc hd, hfield]
        · have hsplit : (d % 32 + 32 * n) * 2 ^ shift =
              d % 32 * 2 ^ shift + n * 2 ^ (shift + 5) := by ring
          rw [hsplit, ← Nat.add_assoc] at hfit ⊢
          exact hvalue _ (hsum hs (by omega)) hfit

theorem exists_decodeFrom_of_numbers? {text : List Char} {n : Nat} {ns : List Nat}
    (h : numbers? text = some (n :: ns)) (sum : Int) (shift : Nat) :
    ∃ v rest, Vlq.decodeFrom sum shift text = some (v, rest) := by
  induction text generalizing n sum shift with
  | nil => simp [numbers?_nil] at h
  | cons c text ih =>
    cases hc : Vlq.value? c with
    | none =>
      rw [numbers?_cons_of_none hc] at h
      contradiction
    | some d =>
      simp only [Vlq.decodeFrom, hc]
      by_cases hd : d < 32
      · rw [if_pos hd]
        exact ⟨_, text, rfl⟩
      · rw [numbers?_cons_of_ge hc hd] at h
        rw [if_neg hd]
        split at h
        · rename_i n more hmore
          obtain ⟨-, rfl⟩ := List.cons.inj (Option.some.inj h)
          exact ih hmore _ _
        · contradiction

/-- The first of the numbers that make up a text is read, and the others are left. -/
theorem exists_decode {text : List Char} {n : Nat} {ns : List Nat}
    (h : numbers? text = some (n :: ns)) :
    ∃ v rest, Vlq.decode text = some (v, rest) ∧ numbers? rest = some ns ∧
      (n < 2 ^ 63 → v = Vlq.unfold n) := by
  obtain ⟨v, rest, hread⟩ := exists_decodeFrom_of_numbers? h 0 0
  obtain ⟨field, first, rfl, hfield, hvalue⟩ := exists_field_of_decodeFrom hread
  rw [numbers?_append hfield] at h
  obtain ⟨more, hmore, hsame⟩ := Option.map_eq_some_iff.mp h
  obtain ⟨rfl, rfl⟩ := List.cons.inj hsame
  refine ⟨v, rest, hread, hmore, fun hfit => ?_⟩
  have := hvalue 0 rfl (by omega)
  simpa using this

/-! ## One segment in words -/

/-- Whatever follows four fields is one more field. -/
def EndsBehindFields (segment : List Char) : Prop :=
  ∀ k ≤ segment.length, (numbers? (segment.take k)).map List.length = some 4 →
    segment.drop k = [] ∨ (numbers? (segment.drop k)).map List.length = some 1

instance (segment : List Char) : Decidable (EndsBehindFields segment) :=
  inferInstanceAs (Decidable (∀ k ≤ segment.length, _ → _))

/-- The distances that are used come from numbers that fit in a word. -/
def IsShort (delta : Delta) : Prop :=
  delta.generated.natAbs < 2 ^ 62 ∧
    ∀ place ∈ delta.place, place.1.natAbs < 2 ^ 62 ∧ place.2.natAbs < 2 ^ 62

instance (delta : Delta) : Decidable (IsShort delta) := inferInstanceAs (Decidable (_ ∧ _))

theorem lt_of_unfold {n : Nat} (h : (Vlq.unfold n).natAbs < 2 ^ 62) : n < 2 ^ 63 := by
  unfold Vlq.unfold at h
  split at h <;> omega

theorem delta?_eq_some_cases {segment : List Char} {delta : Delta}
    (h : delta? segment = some delta) :
    (∃ generated, numbers? segment = some [generated] ∧ delta = ⟨Vlq.unfold generated, none⟩) ∨
    ∃ generated source line column more,
      numbers? segment = some (generated :: source :: line :: column :: more) ∧
      delta = ⟨Vlq.unfold generated, some (Vlq.unfold line, Vlq.unfold column)⟩ := by
  unfold delta? at h
  split at h
  · rename_i generated hnumbers
    exact .inl ⟨generated, hnumbers, (Option.some.inj h).symm⟩
  · rename_i generated source line column hnumbers
    exact .inr ⟨generated, source, line, column, [], hnumbers, (Option.some.inj h).symm⟩
  · rename_i generated source line column name hnumbers
    exact .inr ⟨generated, source, line, column, [name], hnumbers, (Option.some.inj h).symm⟩
  · contradiction

/-- A well-formed segment of short distances is read as it is. -/
theorem decode_of_delta? {segment : List Char} {delta : Delta} (h : delta? segment = some delta)
    (hshort : IsShort delta) : Delta.decode segment = some delta := by
  rcases delta?_eq_some_cases h with
    ⟨generated, hnumbers, rfl⟩ | ⟨generated, source, line, column, more, hnumbers, rfl⟩
  · obtain ⟨v, rest, hread, hrest, hvalue⟩ := exists_decode hnumbers
    obtain rfl := eq_nil_of_numbers? hrest
    obtain rfl := hvalue (lt_of_unfold hshort.1)
    simp [Delta.decode, hread]
  · obtain ⟨hline, hcolumn⟩ := hshort.2 _ rfl
    obtain ⟨v₁, rest₁, hread₁, hrest₁, hvalue₁⟩ := exists_decode hnumbers
    obtain ⟨v₂, rest₂, hread₂, hrest₂, -⟩ := exists_decode hrest₁
    obtain ⟨v₃, rest₃, hread₃, hrest₃, hvalue₃⟩ := exists_decode hrest₂
    obtain ⟨v₄, rest₄, hread₄, -, hvalue₄⟩ := exists_decode hrest₃
    obtain rfl := hvalue₁ (lt_of_unfold hshort.1)
    obtain rfl := hvalue₃ (lt_of_unfold hline)
    obtain rfl := hvalue₄ (lt_of_unfold hcolumn)
    have hne : rest₁ ≠ [] := by
      rintro rfl
      simp [numbers?_nil] at hrest₁
    simp [Delta.decode, hread₁, hne, hread₂, hread₃, hread₄]

theorem exists_field_of_decode {text rest : List Char} {v : Int}
    (h : Vlq.decode text = some (v, rest)) :
    ∃ field n, text = field ++ rest ∧ numbers? field = some [n] := by
  obtain ⟨field, n, htext, hfield, -⟩ := exists_field_of_decodeFrom h
  exact ⟨field, n, htext, hfield⟩

/-- What is read as a segment is a single field, or it begins with four fields. -/
theorem numbers?_of_decode {segment : List Char} {delta : Delta}
    (h : Delta.decode segment = some delta) :
    (∃ n, numbers? segment = some [n]) ∨
    ∃ front rest n₁ n₂ n₃ n₄, segment = front ++ rest ∧ numbers? front = some [n₁, n₂, n₃, n₄] := by
  simp only [Delta.decode, Option.bind_eq_bind, Option.bind_eq_some_iff] at h
  obtain ⟨⟨v₁, rest₁⟩, hread₁, h⟩ := h
  obtain ⟨first, n₁, rfl, hfirst⟩ := exists_field_of_decode hread₁
  split at h
  · rename_i hend
    obtain rfl := List.isEmpty_iff.mp hend
    exact .inl ⟨n₁, by rw [List.append_nil, hfirst]⟩
  · obtain ⟨⟨v₂, rest₂⟩, hread₂, h⟩ := Option.bind_eq_some_iff.mp h
    obtain ⟨⟨v₃, rest₃⟩, hread₃, h⟩ := Option.bind_eq_some_iff.mp h
    obtain ⟨⟨v₄, rest₄⟩, hread₄, h⟩ := Option.bind_eq_some_iff.mp h
    obtain ⟨second, n₂, rfl, hsecond⟩ := exists_field_of_decode hread₂
    obtain ⟨third, n₃, rfl, hthird⟩ := exists_field_of_decode hread₃
    obtain ⟨fourth, n₄, rfl, hfourth⟩ := exists_field_of_decode hread₄
    refine .inr ⟨first ++ (second ++ (third ++ fourth)), rest₄, n₁, n₂, n₃, n₄, by simp, ?_⟩
    simp [numbers?_append hfirst, numbers?_append hsecond, numbers?_append hthird, hfourth]

/-- What is read as a segment is one, unless something that is no field follows its fourth. -/
theorem isSome_delta?_of_decode {segment : List Char} (hends : EndsBehindFields segment)
    (h : (Delta.decode segment).isSome) : (delta? segment).isSome := by
  obtain ⟨delta, hdelta⟩ := Option.isSome_iff_exists.mp h
  rcases numbers?_of_decode hdelta with
    ⟨n, hsingle⟩ | ⟨front, rest, n₁, n₂, n₃, n₄, rfl, hfront⟩
  · simp [delta?, hsingle]
  · rcases hends front.length (by simp) (by rw [List.take_left, hfront]; rfl) with hnil | hone
    · rw [List.drop_left] at hnil
      simp [hnil, delta?, hfront]
    · rw [List.drop_left] at hone
      obtain ⟨ns, hns, hlength⟩ := Option.map_eq_some_iff.mp hone
      obtain ⟨n, rfl⟩ := List.length_eq_one_iff.mp hlength
      simp [delta?, numbers?_append hfront, hns]

/-! ## Sums in words -/

theorem word_word_add (m n : Int) : Vlq.word (Vlq.word m + n) = Vlq.word (m + n) :=
  Int.bmod_add_bmod

/-- A line or a column has 32 bits. -/
def Has32Bits (n : Int) : Prop := 0 ≤ n ∧ n < 2 ^ 32

theorem has32Bits_zero : Has32Bits 0 := ⟨le_rfl, by decide⟩

theorem has32Bits_of_position? {n : Int} {m : Nat} (h : position? n = some m) : Has32Bits n := by
  unfold position? at h
  split at h
  · assumption
  · contradiction

/-- The distances between places never leave the range of a word, since a place has 32 bits. -/
theorem word_add {n d : Int} (hn : Has32Bits n) (hd : d.natAbs < 2 ^ 62) :
    Vlq.word (n + d) = n + d := by
  obtain ⟨hlow, hhigh⟩ := hn
  exact Vlq.word_of_bounds (by omega) (by omega)

theorem Position.segment?_eq_some {p : Position} {segment : Segment}
    (h : p.segment? = some segment) : Has32Bits p.line ∧ Has32Bits p.column := by
  simp only [segment?, Option.bind_eq_bind, Option.bind_eq_some_iff] at h
  obtain ⟨_, _, _, hline, _, hcolumn, _⟩ := h
  exact ⟨has32Bits_of_position? hline, has32Bits_of_position? hcolumn⟩

/-- A kept column of the generated line is a word. -/
def Position.IsWord (p : Position) : Prop := -2 ^ 63 ≤ p.generated ∧ p.generated < 2 ^ 63

instance (p : Position) : Decidable p.IsWord := inferInstanceAs (Decidable (_ ∧ _))

theorem moved_cons_some (distance lines columns : Int) (rest : List Delta) :
    moved (⟨distance, some (lines, columns)⟩ :: rest) =
      (lines + (moved rest).1, columns + (moved rest).2) := rfl

/-- If all positions of a line have 32 bits, so has the place behind it. -/
theorem has32Bits_moved {generated line column : Int} {distances : List Delta}
    {found : List Segment} (hline : Has32Bits line) (hcolumn : Has32Bits column)
    (h : (linePositions generated line column distances).mapM Position.segment? = some found) :
    Has32Bits (line + (moved distances).1) ∧ Has32Bits (column + (moved distances).2) := by
  induction distances generalizing generated line column found with
  | nil => simpa [moved] using And.intro hline hcolumn
  | cons delta rest ih =>
    obtain ⟨distance, place⟩ := delta
    cases place with
    | none => exact ih hline hcolumn h
    | some place =>
      obtain ⟨lines, columns⟩ := place
      simp only [linePositions, List.mapM_cons, Option.bind_eq_bind, Option.bind_eq_some_iff] at h
      obtain ⟨segment, hsegment, more, hmore, -⟩ := h
      obtain ⟨hnextLine, hnextColumn⟩ := Position.segment?_eq_some hsegment
      rw [moved_cons_some, ← add_assoc, ← add_assoc]
      exact ih hnextLine hnextColumn hmore

theorem lineSegments_cons_some (generated line column distance lines columns : Int)
    (rest : List Delta) :
    lineSegments generated line column (⟨distance, some (lines, columns)⟩ :: rest) =
      (Position.segment? ⟨Vlq.word (generated + distance), Vlq.word (line + lines),
        Vlq.word (column + columns)⟩).bind fun segment =>
          (lineSegments (Vlq.word (generated + distance)) (Vlq.word (line + lines))
            (Vlq.word (column + columns)) rest).map fun found => (segment :: found.1, found.2) := by
  simp only [lineSegments, Position.segment?, Option.bind_eq_bind, Option.bind_assoc,
    Option.pure_def, Option.bind_some, Option.map_eq_bind, Function.comp_def]

/-- The segments of a line are its positions, and the place behind it is where the distances
lead. The generated column may leave the range of a word between positions that are kept. -/
theorem lineSegments_positions {generated line column : Int} {distances : List Delta}
    (hline : Has32Bits line) (hcolumn : Has32Bits column)
    (hshort : ∀ delta ∈ distances, IsShort delta)
    (hword : ∀ p ∈ linePositions generated line column distances, p.IsWord) :
    lineSegments (Vlq.word generated) line column distances =
      ((linePositions generated line column distances).mapM Position.segment?).map fun found =>
        (found, line + (moved distances).1, column + (moved distances).2) := by
  induction distances generalizing generated line column with
  | nil => simp [lineSegments, linePositions, moved]
  | cons delta rest ih =>
    obtain ⟨hdelta, hrest⟩ := List.forall_mem_cons.mp hshort
    obtain ⟨distance, place⟩ := delta
    cases place with
    | none =>
      rw [lineSegments, word_word_add]
      exact ih hline hcolumn hrest hword
    | some place =>
      obtain ⟨lines, columns⟩ := place
      obtain ⟨hlines, hcolumns⟩ : lines.natAbs < 2 ^ 62 ∧ columns.natAbs < 2 ^ 62 :=
        hdelta.2 _ rfl
      rw [linePositions] at hword ⊢
      obtain ⟨hfirst, hbehind⟩ := List.forall_mem_cons.mp hword
      have hgenerated : Vlq.word (generated + distance) = generated + distance :=
        Vlq.word_of_bounds hfirst.1 hfirst.2
      rw [lineSegments_cons_some, word_word_add, hgenerated, word_add hline hlines,
        word_add hcolumn hcolumns, List.mapM_cons, moved_cons_some, ← add_assoc, ← add_assoc]
      cases hsegment : Position.segment? ⟨generated + distance, line + lines, column + columns⟩ with
      | none => rfl
      | some segment =>
        obtain ⟨hnextLine, hnextColumn⟩ := Position.segment?_eq_some hsegment
        have hmore := ih hnextLine hnextColumn hrest hbehind
        rw [hgenerated] at hmore
        rw [Option.bind_some, hmore, Option.bind_eq_bind, Option.bind_some]
        cases List.mapM Position.segment? _ <;> rfl

/-- The segments of all lines are their positions. -/
theorem segments_positions {line column : Int} {lines : List (List Delta)}
    (hline : Has32Bits line) (hcolumn : Has32Bits column)
    (hshort : ∀ distances ∈ lines, ∀ delta ∈ distances, IsShort delta)
    (hword : ∀ found ∈ positions line column lines, ∀ p ∈ found, p.IsWord) :
    segments line column lines =
      (positions line column lines).mapM fun found => found.mapM Position.segment? := by
  induction lines generalizing line column with
  | nil => rfl
  | cons distances rest ih =>
    rw [positions] at hword ⊢
    obtain ⟨hfirstShort, hrestShort⟩ := List.forall_mem_cons.mp hshort
    obtain ⟨hfirstWord, hrestWord⟩ := List.forall_mem_cons.mp hword
    have hfirst := lineSegments_positions hline hcolumn hfirstShort hfirstWord
    rw [show Vlq.word 0 = 0 from rfl] at hfirst
    rw [segments, List.mapM_cons, hfirst]
    cases hfound : (linePositions 0 line column distances).mapM Position.segment? with
    | none => rfl
    | some found =>
      obtain ⟨hnextLine, hnextColumn⟩ := has32Bits_moved hline hcolumn hfound
      have hmore := ih hnextLine hnextColumn hrestShort hrestWord
      simp only [Option.map_some, Option.bind_eq_bind, Option.bind_some, hmore]

/-! ## Texts -/

theorem isSome_mapM_iff {α β : Type} {f : α → Option β} {as : List α} :
    (as.mapM f).isSome ↔ ∀ a ∈ as, (f a).isSome := by
  induction as with
  | nil => simp
  | cons a as ih =>
    rw [List.forall_mem_cons, ← ih, List.mapM_cons]
    cases f a <;> cases as.mapM f <;> simp

theorem readMappings_eq_bind (text : List Char) :
    SourceMap.readMappings text = (deltasBy Delta.decode text).bind (segments 0 0) := by
  simp only [SourceMap.readMappings, deltasBy, splitAt_eq_splitOn, Option.bind_eq_bind]

/-- No segment of a text goes on behind its fifth field or behind its fourth with anything but a
field. -/
def SegmentsEnd (text : List Char) : Prop :=
  ∀ line ∈ text.splitOn ';', ∀ segment ∈ line.splitOn ',', EndsBehindFields segment

instance (text : List Char) : Decidable (SegmentsEnd text) :=
  inferInstanceAs (Decidable (∀ line ∈ text.splitOn ';', _))

/-- The distances of a text and the kept columns that they lead to fit in words. -/
def FitsInWords (text : List Char) : Prop :=
  ∀ lines ∈ deltas? text, (∀ distances ∈ lines, ∀ delta ∈ distances, IsShort delta) ∧
    ∀ found ∈ positions 0 0 lines, ∀ p ∈ found, p.IsWord

instance (text : List Char) : Decidable (FitsInWords text) :=
  inferInstanceAs (Decidable (∀ lines ∈ deltas? text, _))

theorem isSome_deltas? {text : List Char} (hends : SegmentsEnd text)
    (h : (deltasBy Delta.decode text).isSome) : (deltas? text).isSome := by
  refine isSome_mapM_iff.mpr fun line hline => isSome_mapM_iff.mpr fun segment hsegment => ?_
  have hread := isSome_mapM_iff.mp (isSome_mapM_iff.mp h line hline) segment hsegment
  exact isSome_delta?_of_decode (hends line hline segment (List.mem_filter.mp hsegment).1) hread

theorem deltasBy_decode_of_deltas? {text : List Char} {lines : List (List Delta)}
    (h : deltas? text = some lines)
    (hshort : ∀ distances ∈ lines, ∀ delta ∈ distances, IsShort delta) :
    deltasBy Delta.decode text = some lines :=
  Checked.mapM_eq_of_imp h fun _ _ distances hdistances hline =>
    Checked.mapM_eq_of_imp hline fun _ _ delta hdelta hread =>
      decode_of_delta? hread (hshort distances hdistances delta hdelta)

/-- The reader of words reads a text exactly. -/
theorem readMappings_eq_exact {text : List Char} (hends : SegmentsEnd text)
    (hfits : FitsInWords text) : SourceMap.readMappings text = readMappings? text := by
  rw [readMappings_eq_bind, readMappings?]
  cases hlines : deltas? text with
  | none =>
    -- How large the numbers are does not matter where a segment is malformed.
    have hnone : deltasBy Delta.decode text = none := by
      by_contra hsome
      have := isSome_deltas? hends (Option.isSome_iff_ne_none.mpr hsome)
      simp [hlines] at this
    rw [hnone]
    rfl
  | some lines =>
    obtain ⟨hshort, hword⟩ := hfits lines hlines
    rw [deltasBy_decode_of_deltas? hlines hshort]
    exact segments_positions has32Bits_zero has32Bits_zero hshort hword

/-- Mappings and lookups are read exactly, and there are none if a segment is malformed or a kept
position has more than 32 bits, provided that no segment goes on behind its fields and that all
numbers fit in words. -/
theorem sourceOf?_exact (map : SourceMap) (hends : SegmentsEnd map.mappings.toList)
    (hfits : FitsInWords map.mappings.toList) :
    SourceMap.readMappings map.mappings.toList = readMappings? map.mappings.toList ∧
      ∀ line column, map.sourceOf? line column = sourceOf? map line column := by
  have hread := readMappings_eq_exact hends hfits
  refine ⟨hread, fun line column => ?_⟩
  rw [SourceMap.sourceOf?, sourceOf?, hread]

/-- A number with a digit to spare, a name, a segment without a place and an empty line. -/
theorem sourceOf?_exact_padded :
    let map : SourceMap := ⟨3, none, [""], [], ["n"], "AAAA,gBAACA,C;;EACgD,"⟩
    SegmentsEnd map.mappings.toList ∧ FitsInWords map.mappings.toList ∧
      map.sourceOf? 0 16 = some (0, 1) := by
  intro map
  have hends : SegmentsEnd map.mappings.toList := by decide +kernel
  have hfits : FitsInWords map.mappings.toList := by decide +kernel
  exact ⟨hends, hfits, ((sourceOf?_exact map hends hfits).2 0 16).trans (by decide +kernel)⟩

/-- A digit of weight `2 ^ 64` is lost, and what follows the fourth field is not looked at. -/
theorem sourceOf?_lost_digit_and_tail :
    let lost : SourceMap := ⟨3, none, [""], [], [], "ggggggggggggQAAA"⟩
    let tailed : SourceMap := { lost with mappings := "AAAA " }
    lost.sourceOf? 0 0 = some (0, 0) ∧ sourceOf? lost 0 0 = none ∧
      tailed.sourceOf? 0 0 = some (0, 0) ∧ sourceOf? tailed 0 0 = none := by
  decide +kernel

end Exact

end WebFonts.SourceMap
