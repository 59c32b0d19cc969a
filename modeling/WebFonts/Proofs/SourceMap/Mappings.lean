import WebFonts.Proofs.SourceMap.Vlq
import WebFonts.Proofs.Text.Place

/-! # Reading back the spelling of segments

Segments of 32 bits are written and read back in words of 64 bits that never overflow. -/

namespace WebFonts.SourceMap

open Text

/-! ## Single segments -/

/-- A distance with a place in the source, all of whose parts have less than 62 bits. -/
def Delta.IsSmall (delta : Delta) : Prop :=
  delta.generated.natAbs < 2 ^ 62 ∧
    ∃ line column, delta.place = some (line, column) ∧
      line.natAbs < 2 ^ 62 ∧ column.natAbs < 2 ^ 62

theorem Delta.encode_ne_nil (delta : Delta) : delta.encode ≠ [] := by
  simp [Delta.encode, Vlq.encode_ne_nil]

theorem Delta.mem_alphabet_of_mem_encode {delta : Delta} {c : Char} (h : c ∈ delta.encode) :
    c ∈ Vlq.alphabet := by
  unfold Delta.encode at h
  rcases List.mem_append.mp h with h | h
  · exact Vlq.mem_alphabet_of_mem_encode h
  · cases hplace : delta.place with
    | none => simp [hplace] at h
    | some place =>
      simp only [hplace, List.mem_append] at h
      rcases h with (h | h) | h <;> exact Vlq.mem_alphabet_of_mem_encode h

theorem Checked.encodeDelta?_eq {delta : Delta} (h : delta.IsSmall) :
    encodeDelta? delta = some delta.encode := by
  obtain ⟨generated, place⟩ := delta
  obtain ⟨hgenerated, line, column, hplace, hline, hcolumn⟩ := h
  dsimp only at hgenerated hplace
  subst hplace
  have hword {n : Int} (hn : n.natAbs < 2 ^ 62) : word? n = some n :=
    word?_of_bounds (by omega) (by omega)
  have hzero : (0 : Int).natAbs < 2 ^ 62 := by decide
  simp only [encodeDelta?, hword hgenerated, hword hline, hword hcolumn, encode?_eq hgenerated,
    encode?_eq hzero, encode?_eq hline, encode?_eq hcolumn, Option.bind_eq_bind,
    Option.bind_some]
  rfl

theorem Checked.decodeDelta?_encode {delta : Delta} (h : delta.IsSmall) :
    decodeDelta? delta.encode = some delta := by
  obtain ⟨generated, place⟩ := delta
  obtain ⟨hgenerated, line, column, hplace, hline, hcolumn⟩ := h
  dsimp only at hgenerated hplace
  subst hplace
  have hzero : (0 : Int).natAbs < 2 ^ 62 := by decide
  have hne : Vlq.encode 0 ++ (Vlq.encode line ++ Vlq.encode column) ≠ [] := by
    simp [Vlq.encode_ne_nil]
  have hlast := decode?_encode_append hcolumn []
  rw [List.append_nil] at hlast
  simp only [decodeDelta?, Delta.encode, List.append_assoc, decode?_encode_append hgenerated,
    Option.bind_eq_bind, Option.bind_some, List.isEmpty_iff, hne, ↓reduceIte,
    decode?_encode_append hzero, decode?_encode_append hline, hlast]
  rfl

/-! ## Distances and segments -/

/-- Everything in a segment has 32 bits. -/
def Segment.Fits (s : Segment) : Prop :=
  s.generatedColumn < 2 ^ 32 ∧ s.sourceLine < 2 ^ 32 ∧ s.sourceColumn < 2 ^ 32

/-- The place in the source of the last of some segments, or else the place before them. -/
def placeBehind (line column : Nat) (segments : List Segment) : Nat × Nat :=
  match segments.getLast? with
  | none => (line, column)
  | some s => (s.sourceLine, s.sourceColumn)

theorem placeBehind_cons (line column : Nat) (s : Segment) (segments : List Segment) :
    placeBehind line column (s :: segments) =
      placeBehind s.sourceLine s.sourceColumn segments := by
  cases segments with
  | nil => rfl
  | cons t segments => simp [placeBehind, List.getLast?_cons]

theorem placeBehind_lt {line column : Nat} {segments : List Segment} (hline : line < 2 ^ 32)
    (hcolumn : column < 2 ^ 32) (h : ∀ s ∈ segments, s.Fits) :
    (placeBehind line column segments).1 < 2 ^ 32 ∧
      (placeBehind line column segments).2 < 2 ^ 32 := by
  unfold placeBehind
  split
  · exact ⟨hline, hcolumn⟩
  · rename_i s hs
    exact (h s (List.mem_of_getLast? hs)).2

theorem deltas_cons (line column : Nat) (segments : List Segment) (lines : List (List Segment)) :
    deltas line column (segments :: lines) =
      lineDeltas 0 line column segments ::
        deltas (placeBehind line column segments).1 (placeBehind line column segments).2 lines := by
  unfold placeBehind
  cases h : segments.getLast? <;> simp [deltas, h]

theorem lineDeltas_isSmall {generated line column : Nat} {segments : List Segment}
    (hgenerated : generated < 2 ^ 32) (hline : line < 2 ^ 32) (hcolumn : column < 2 ^ 32)
    (h : ∀ s ∈ segments, s.Fits) :
    ∀ delta ∈ lineDeltas generated line column segments, delta.IsSmall := by
  induction segments generalizing generated line column with
  | nil => simp [lineDeltas]
  | cons s segments ih =>
    have ⟨hs₁, hs₂, hs₃⟩ := h s (by simp)
    intro delta hd
    rcases List.mem_cons.mp hd with rfl | hd
    · exact ⟨by dsimp only; omega, _, _, rfl, by omega, by omega⟩
    · exact ih hs₁ hs₂ hs₃ (fun t ht => h t (by simp [ht])) delta hd

theorem deltas_isSmall (line column : Nat) {lines : List (List Segment)}
    (hline : line < 2 ^ 32) (hcolumn : column < 2 ^ 32)
    (h : ∀ segments ∈ lines, ∀ s ∈ segments, s.Fits) :
    ∀ distances ∈ deltas line column lines, ∀ delta ∈ distances, delta.IsSmall := by
  induction lines generalizing line column with
  | nil => simp [deltas]
  | cons segments lines ih =>
    have hs := h segments (by simp)
    have hplace := placeBehind_lt hline hcolumn hs
    intro distances hd
    rw [deltas_cons] at hd
    rcases List.mem_cons.mp hd with rfl | hd
    · exact lineDeltas_isSmall (by decide) hline hcolumn hs
    · exact ih _ _ hplace.1 hplace.2 (fun t ht => h t (by simp [ht])) distances hd

theorem position?_natCast {n : Nat} (h : n < 2 ^ 32) : position? (n : Int) = some n := by
  have hlt : (0 : Int) ≤ n ∧ (n : Int) < Nat.pow 2 32 :=
    ⟨Int.natCast_nonneg n, Int.ofNat_lt.mpr h⟩
  rw [position?, if_pos hlt, Int.toNat_natCast]

/-- A distance leads from one number of 32 bits to the other. -/
theorem Checked.word?_add_sub {m n : Nat} (h : n < 2 ^ 32) :
    word? ((m : Int) + ((n : Int) - m)) = some (n : Int) := by
  rw [show (m : Int) + ((n : Int) - m) = n by omega]
  exact word?_natCast (by omega)

theorem Checked.lineSegments?_lineDeltas (generated line column : Nat) {segments : List Segment}
    (h : ∀ s ∈ segments, s.Fits) :
    lineSegments? generated line column (lineDeltas generated line column segments) =
      some (segments, ((placeBehind line column segments).1 : Int),
        ((placeBehind line column segments).2 : Int)) := by
  induction segments generalizing generated line column with
  | nil => rfl
  | cons s segments ih =>
    have ⟨hs₁, hs₂, hs₃⟩ := h s (by simp)
    have htail := ih s.generatedColumn s.sourceLine s.sourceColumn fun t ht => h t (by simp [ht])
    simp -implicitDefEqProofs only [lineDeltas, lineSegments?, word?_add_sub hs₁, word?_add_sub hs₂,
      word?_add_sub hs₃, Option.bind_eq_bind, Option.bind_some, position?_natCast hs₁,
      position?_natCast hs₂, position?_natCast hs₃, htail, placeBehind_cons, Option.pure_def]

theorem Checked.segments?_deltas (line column : Nat) {lines : List (List Segment)}
    (h : ∀ segments ∈ lines, ∀ s ∈ segments, s.Fits) :
    segments? line column (deltas line column lines) = some lines := by
  induction lines generalizing line column with
  | nil => rfl
  | cons first lines ih =>
    have hline := lineSegments?_lineDeltas 0 line column (h first (by simp))
    have htail := ih (placeBehind line column first).1 (placeBehind line column first).2
      fun t ht => h t (by simp [ht])
    rw [deltas_cons]
    simp only [segments?]
    rw [show ((0 : Nat) : Int) = 0 from rfl] at hline
    simp only [hline, htail, Option.bind_eq_bind, Option.bind_some]
    rfl

/-! ## Whole texts -/

/-- A step that succeeds on every item of a list succeeds on the list. -/
theorem mapM_eq_map {α β : Type} {f : α → Option β} {g : α → β} {as : List α}
    (h : ∀ a ∈ as, f a = some (g a)) : as.mapM f = some (as.map g) := by
  induction as with
  | nil => rfl
  | cons a as ih =>
    rw [List.mapM_cons, h a (by simp), ih fun b hb => h b (by simp [hb])]
    rfl

/-- A reader that undoes a writer on every item reads a list of items back. -/
theorem mapM_map_of_left_inverse {α β : Type} {write : α → β} (read : β → Option α) {xs : List α}
    (h : ∀ x ∈ xs, read (write x) = some x) : (xs.map write).mapM read = some xs := by
  have hread : xs.mapM (read ∘ write) = some (xs.map id) := mapM_eq_map h
  rw [List.mapM_map, hread, List.map_id]

/-- The segments of one line, with the empty pieces of a line without segments left out. -/
theorem mapM_decode_line {distances : List Delta} (h : ∀ delta ∈ distances, delta.IsSmall) :
    ((splitAt ',' (List.intercalate [','] (distances.map Delta.encode))).filter
      fun s => !s.isEmpty).mapM Checked.decodeDelta? = some distances := by
  have hpieces : ((splitAt ',' (List.intercalate [','] (distances.map Delta.encode))).filter
      fun s => !s.isEmpty) = distances.map Delta.encode := by
    cases distances with
    | nil => rfl
    | cons first rest =>
      rw [splitAt_eq_splitOn, List.splitOn_intercalate ',' _ (by simp)]
      · apply List.filter_eq_self.mpr
        intro piece hp
        rcases List.mem_map.mp hp with ⟨delta, -, rfl⟩
        simp [Delta.encode_ne_nil]
      · intro piece hp hc
        rcases List.mem_map.mp hp with ⟨delta, -, rfl⟩
        exact Vlq.separator_not_mem_alphabet.1 (Delta.mem_alphabet_of_mem_encode hc)
  rw [hpieces]
  exact mapM_map_of_left_inverse _ fun delta hd => Checked.decodeDelta?_encode (h delta hd)

theorem semicolon_not_mem_line (distances : List Delta) :
    ';' ∉ List.intercalate [','] (distances.map Delta.encode) := by
  induction distances with
  | nil => simp
  | cons first rest ih =>
    have hfirst : ';' ∉ first.encode := fun h =>
      Vlq.separator_not_mem_alphabet.2 (Delta.mem_alphabet_of_mem_encode h)
    cases rest with
    | nil => simpa using hfirst
    | cons second rest =>
      rw [List.map_cons, List.map_cons, List.intercalate_cons_cons, ← List.map_cons]
      simp only [List.mem_append, not_or]
      exact ⟨⟨hfirst, by decide⟩, ih⟩

theorem Checked.readMappings?_writeMappings {lines : List (List Segment)} (hne : lines ≠ [])
    (h : ∀ segments ∈ lines, ∀ s ∈ segments, s.Fits) :
    readMappings? (writeMappings lines) = some lines := by
  have hsmall := deltas_isSmall 0 0 (by decide) (by decide) h
  have hnil : deltas 0 0 lines ≠ [] := by
    rcases List.exists_cons_of_ne_nil hne with ⟨first, rest, rfl⟩
    simp [deltas_cons]
  have hsplit : splitAt ';' (writeMappings lines) =
      (deltas 0 0 lines).map fun line => List.intercalate [','] (line.map Delta.encode) := by
    rw [splitAt_eq_splitOn, writeMappings, List.splitOn_intercalate ';' _ (by simpa using hnil)]
    intro piece hp
    rcases List.mem_map.mp hp with ⟨distances, -, rfl⟩
    exact semicolon_not_mem_line distances
  have hread := mapM_map_of_left_inverse
    (fun line => ((splitAt ',' line).filter fun s => !s.isEmpty).mapM decodeDelta?)
    fun distances hd => mapM_decode_line (hsmall distances hd)
  rw [readMappings?, hsplit, hread]
  exact segments?_deltas 0 0 h

/-- Segments with 32 bits in every place are read back from their spelling. -/
theorem readMappings_writeMappings {lines : List (List Segment)} (hne : lines ≠ [])
    (h : ∀ segments ∈ lines, ∀ s ∈ segments, s.Fits) :
    readMappings (writeMappings lines) = some lines :=
  Checked.readMappings_eq (Checked.readMappings?_writeMappings hne h)

theorem Checked.writeMappings?_eq {lines : List (List Segment)}
    (h : ∀ segments ∈ lines, ∀ s ∈ segments, s.Fits) :
    writeMappings? lines = some (writeMappings lines) := by
  have hsmall := deltas_isSmall 0 0 (by decide) (by decide) h
  have hwritten : (deltas 0 0 lines).mapM (fun line => line.mapM encodeDelta?) =
      some ((deltas 0 0 lines).map fun line => line.map Delta.encode) :=
    mapM_eq_map fun line hline =>
      mapM_eq_map fun delta hdelta => encodeDelta?_eq (hsmall line hline delta hdelta)
  rw [writeMappings?, hwritten, Option.bind_eq_bind, Option.bind_some, List.map_map]
  rfl

/-- Any lines of segments, in any order and with any gaps, are read back from their spelling, and
neither their writer nor their reader meets a number beyond 64 bits. -/
theorem lines_of_written {lines : List (List Segment)} (hne : lines ≠ [])
    (h : ∀ segments ∈ lines, ∀ s ∈ segments, s.Fits) :
    Checked.writeMappings? lines = some (writeMappings lines) ∧
      Checked.readMappings? (writeMappings lines) = some lines ∧
      readMappings (writeMappings lines) = some lines :=
  ⟨Checked.writeMappings?_eq h, Checked.readMappings?_writeMappings hne h,
    readMappings_writeMappings hne h⟩

/-- The largest steps there are, forth and back, with a repetition and an empty line. -/
theorem lines_of_written_extremes :
    let lines : List (List Segment) :=
      [[⟨4294967295, 0, 4294967295⟩, ⟨0, 4294967295, 0⟩, ⟨0, 4294967295, 0⟩], [],
        [⟨7, 0, 4294967295⟩]]
    lines ≠ [] ∧ (∀ segments ∈ lines, ∀ s ∈ segments, s.Fits) ∧
      readMappings (writeMappings lines) = some lines := by
  intro lines
  have hfits : ∀ segments ∈ lines, ∀ s ∈ segments, s.Fits := by simp [lines, Segment.Fits]
  exact ⟨by simp [lines], hfits, (lines_of_written (by simp [lines]) hfits).2.2⟩

end WebFonts.SourceMap
