import WebFonts.Proofs.SourceMap.Mappings
import WebFonts.SourceMap.Basic

/-! # Lookups in the map of a text with insertions

A position is looked up by its segment, and there is one segment for each character of the body.
-/

namespace WebFonts.Prepended

open SourceMap Text

/-! ## The characters behind the segments -/

/-- The segments of a body, given the column where it starts in the generated text and its place
in the source, lead from its characters in the one text to the same characters in the other. -/
theorem mem_bodySegments_iff {body first : List Char} {lines : List (List Char)}
    (h : splitAt '\n' body = first :: lines) (line generated column k : Nat) (s : Segment) :
    (∃ segments, (textSegments line generated column first ::
        bodySegments (line + 1) 0 lines)[k]? = some segments ∧ s ∈ segments) ↔
      ∃ i, (∃ c, body[i]? = some c ∧ c ≠ '\n') ∧
        advance (0, generated) (body.take i) = (k, s.generatedColumn) ∧
        advance (line, column) (body.take i) = (s.sourceLine, s.sourceColumn) := by
  induction body generalizing first lines line generated column k with
  | nil =>
    rcases List.cons.inj h with ⟨rfl, rfl⟩
    cases k <;> simp [textSegments, bodySegments]
  | cons c rest ih =>
    rcases exists_splitAt '\n' rest with ⟨next, others, hrest⟩
    rw [← Nat.or_exists_add_one]
    simp only [List.getElem?_cons_zero, List.getElem?_cons_succ, List.take_zero,
      List.take_succ_cons, Option.some.injEq, advance]
    by_cases hc : c = '\n'
    · rw [hc, splitAt_cons_self, hrest] at h
      rcases List.cons.inj h with ⟨rfl, rfl⟩
      simp only [hc, ↓reduceIte, ne_eq, exists_eq_left', not_true_eq_false, false_and, false_or,
        Nat.zero_add]
      cases k with
      | zero =>
        refine iff_of_false (by simp [textSegments]) ?_
        rintro ⟨i, -, hplace, -⟩
        have hle := (advance_le (1, 0) (rest.take i)).1
        simp [hplace] at hle
      | succ k =>
        rw [List.getElem?_cons_succ, bodySegments, ih hrest]
        refine exists_congr fun i => and_congr_right fun _ => and_congr_left fun _ => ?_
        have hline := advance_add_line 1 (0, 0) (rest.take i)
        rw [show (1, 0) = (1 + (0, 0).1, ((0, 0) : Nat × Nat).2) from rfl, hline, Prod.ext_iff,
          Prod.ext_iff]
        exact and_congr_left fun _ => by dsimp only; omega
    · rw [splitAt_cons_of_ne hc hrest] at h
      rcases List.cons.inj h with ⟨rfl, rfl⟩
      have hrec := ih hrest line (generated + utf16Size c) (column + utf16Size c) k
      simp only [hc, ↓reduceIte, ne_eq, exists_eq_left', not_false_eq_true, true_and]
      rw [← hrec]
      cases k with
      | zero =>
        obtain ⟨g, l, o⟩ := s
        simp [textSegments, eq_comm]
      | succ k => simp

theorem segments_eq (text : Prepended) {first : List Char} {lines : List (List Char)}
    (h : splitAt '\n' text.body.toList = first :: lines) :
    text.segments = List.replicate (placeAfter text.insertion.toList).1 [] ++
      (textSegments 0 (placeAfter text.insertion.toList).2 0 first :: bodySegments 1 0 lines) := by
  simp only [segments, h, bodySegments, placeAfter_splitAt, List.map_const']

/-- The segments of a line stand for the characters of the body that are shown there. -/
theorem mem_segments_iff (text : Prepended) (k : Nat) (s : Segment) :
    (∃ segments, text.segments[k]? = some segments ∧ s ∈ segments) ↔
      ∃ i, BeginsAt text.display.toList (text.insertion.toList.length + i)
          (k, s.generatedColumn) ∧
        BeginsAt text.body.toList i (s.sourceLine, s.sourceColumn) := by
  rcases exists_splitAt '\n' text.body.toList with ⟨first, lines, h⟩
  rw [segments_eq text h]
  have hbegins : ∀ i place, BeginsAt text.display.toList (text.insertion.toList.length + i) place ↔
      (∃ c, text.body.toList[i]? = some c ∧ c ≠ '\n') ∧
        advance (placeAfter text.insertion.toList) (text.body.toList.take i) = place := by
    intro i place
    simp only [BeginsAt, display, String.toList_append, List.getElem?_append_right,
      Nat.le_add_right, Nat.add_sub_cancel_left, List.take_length_add_append, placeAfter_append]
    simp only [← and_assoc, exists_and_right]
  have hsource : ∀ i place, BeginsAt text.body.toList i place ↔
      (∃ c, text.body.toList[i]? = some c ∧ c ≠ '\n') ∧
        advance (0, 0) (text.body.toList.take i) = place := by
    intro i place
    simp only [BeginsAt, placeAfter_eq_advance, ← and_assoc, exists_and_right]
  simp only [hbegins, hsource]
  generalize placeAfter text.insertion.toList = start
  by_cases hk : k < start.1
  · refine iff_of_false (by simp [List.getElem?_append_left, hk]) ?_
    rintro ⟨i, ⟨-, hplace⟩, -⟩
    have hle := (advance_le start (text.body.toList.take i)).1
    rw [hplace] at hle
    exact absurd hle (Nat.not_le_of_lt hk)
  · rcases Nat.exists_eq_add_of_le (Nat.le_of_not_lt hk) with ⟨d, rfl⟩
    rw [List.getElem?_append_right (by simp), List.length_replicate, Nat.add_sub_cancel_left,
      mem_bodySegments_iff h]
    refine exists_congr fun i => ?_
    have hline := advance_add_line start.1 (0, start.2) (text.body.toList.take i)
    rw [show advance start _ = _ from hline]
    simp only [Nat.add_left_cancel_iff, Prod.ext_iff]
    tauto

/-! ## At most one segment for each column -/

theorem le_generatedColumn_textSegments (line generated column : Nat) (text : List Char) :
    ∀ s ∈ textSegments line generated column text, generated ≤ s.generatedColumn := by
  induction text generalizing generated column with
  | nil => simp [textSegments]
  | cons c rest ih =>
    intro s hs
    rcases List.mem_cons.mp hs with rfl | hs
    · exact le_rfl
    · exact (Nat.le_add_right _ _).trans (ih _ _ s hs)

theorem pairwise_textSegments (line generated column : Nat) (text : List Char) :
    (textSegments line generated column text).Pairwise
      fun s t => s.generatedColumn < t.generatedColumn := by
  induction text generalizing generated column with
  | nil => exact .nil
  | cons c rest ih =>
    refine .cons (fun s hs => ?_) (ih _ _)
    have hle := le_generatedColumn_textSegments line _ _ rest s hs
    have hpos := utf16Size_pos c
    dsimp only
    omega

theorem pairwise_bodySegments (line column : Nat) (lines : List (List Char)) :
    ∀ segments ∈ bodySegments line column lines,
      segments.Pairwise fun s t => s.generatedColumn < t.generatedColumn := by
  induction lines generalizing line column with
  | nil => simp [bodySegments]
  | cons text lines ih =>
    intro segments hs
    rcases List.mem_cons.mp hs with rfl | hs
    · exact pairwise_textSegments line column 0 text
    · exact ih _ _ segments hs

theorem pairwise_segments (text : Prepended) :
    ∀ segments ∈ text.segments,
      segments.Pairwise fun s t => s.generatedColumn < t.generatedColumn := by
  intro line hl
  rcases List.mem_append.mp hl with hl | hl
  · rcases List.mem_map.mp hl with ⟨-, -, rfl⟩
    exact .nil
  · exact pairwise_bodySegments 0 _ _ line hl

theorem find?_column_iff {segments : List Segment}
    (h : segments.Pairwise fun s t => s.generatedColumn < t.generatedColumn) (column : Nat)
    (s : Segment) :
    segments.find? (·.generatedColumn == column) = some s ↔
      s ∈ segments ∧ s.generatedColumn = column := by
  induction h with
  | nil => simp
  | @cons t rest ht _ ih =>
    by_cases hc : t.generatedColumn = column
    · rw [List.find?_cons_of_pos (by simpa using hc)]
      constructor
      · intro h
        cases h
        exact ⟨by simp, hc⟩
      · intro ⟨hs, he⟩
        rcases List.mem_cons.mp hs with rfl | hs
        · rfl
        · have := ht s hs
          omega
    · rw [List.find?_cons_of_neg (by simpa using hc), ih, List.mem_cons]
      refine and_congr_left fun he => (or_iff_right ?_).symm
      rintro rfl
      exact hc he

/-! ## Lookups -/

theorem segments_ne_nil (text : Prepended) : text.segments ≠ [] := by
  rcases exists_splitAt '\n' text.body.toList with ⟨first, lines, h⟩
  simp [segments_eq text h]

theorem segments_fit {text : Prepended} (h : FitsIn32Bits text.display.toList) :
    ∀ segments ∈ text.segments, ∀ s ∈ segments, s.Fits := by
  intro segments hl s hs
  rcases List.mem_iff_getElem?.mp hl with ⟨k, hk⟩
  rcases (mem_segments_iff text k s).mp ⟨segments, hk, hs⟩ with ⟨i, hshown, hsource⟩
  have hfits := h.of_beginsAt hshown
  obtain ⟨-, -, -, hshown⟩ := hshown
  obtain ⟨-, -, -, hsource⟩ := hsource
  rw [display, String.toList_append, List.take_length_add_append, placeAfter_append] at hshown
  rw [placeAfter_eq_advance] at hsource
  have hmono := advance_mono (0, 0) (placeAfter text.insertion.toList) (Nat.zero_le _)
    (Nat.zero_le _) (text.body.toList.take i)
  rw [hshown, hsource] at hmono
  exact ⟨hfits.2, hmono.1.trans_lt hfits.1, hmono.2.trans_lt hfits.2⟩

/-- The map leads from each character of the body that is shown to the same character in the
source, and from nowhere else to anything. -/
theorem sourceOf?_sourceMap {text : Prepended} (h : FitsIn32Bits text.display.toList)
    (source file : Option String) (content : Bool) (line column : Nat) (place : Nat × Nat) :
    (text.sourceMap source file content).sourceOf? line column = some place ↔
      ∃ i, BeginsAt text.display.toList (text.insertion.toList.length + i) (line, column) ∧
        BeginsAt text.body.toList i place := by
  have hread := readMappings_writeMappings (segments_ne_nil text) (segments_fit h)
  have hlookup : (text.sourceMap source file content).sourceOf? line column = some place ↔
      ∃ segments, text.segments[line]? = some segments ∧
        ∃ s, segments.find? (·.generatedColumn == column) = some s ∧
          (s.sourceLine, s.sourceColumn) = place := by
    simp only [sourceOf?, sourceMap, String.toList_ofList, hread, Option.bind_eq_bind,
      Option.bind_some, Option.bind_eq_some_iff, Option.pure_def, Option.some.injEq]
  rw [hlookup]
  constructor
  · rintro ⟨segments, hsegments, s, hs, rfl⟩
    have hpairs := pairwise_segments text segments (List.mem_of_getElem? hsegments)
    rcases (find?_column_iff hpairs column s).mp hs with ⟨hmem, rfl⟩
    exact (mem_segments_iff text line s).mp ⟨segments, hsegments, hmem⟩
  · intro ⟨i, hshown, hsource⟩
    obtain ⟨segments, hsegments, hs⟩ :=
      (mem_segments_iff text line ⟨column, place.1, place.2⟩).mpr ⟨i, hshown, hsource⟩
    have hpairs := pairwise_segments text segments (List.mem_of_getElem? hsegments)
    exact ⟨segments, hsegments, _, (find?_column_iff hpairs column _).mpr ⟨hs, rfl⟩, rfl⟩

/-! ## Any number of insertions -/

theorem foldl_prepend (texts : List String) (text : Prepended) :
    (texts.foldl prepend text).body = text.body ∧
      (texts.foldl prepend text).insertion.toList =
        texts.reverse.flatMap String.toList ++ text.insertion.toList := by
  induction texts generalizing text with
  | nil => simp
  | cons more texts ih =>
    have h := ih (text.prepend more)
    refine ⟨h.1, h.2.trans ?_⟩
    simp [prepend]

/-- However many texts are inserted, what is shown is these, the latest first, and then the body;
a position is looked up exactly if a character of the body other than a line feed begins there,
and the answer is where that character begins in the body alone. -/
theorem sourceOf?_foldl_prepend (body : String) (texts : List String)
    (source file : Option String) (content : Bool)
    (h : FitsIn32Bits (texts.foldl prepend (ofBody body)).display.toList) :
    let text := texts.foldl prepend (ofBody body)
    let inserted := texts.reverse.flatMap String.toList
    text.display.toList = inserted ++ body.toList ∧
      ∀ line column place,
        (text.sourceMap source file content).sourceOf? line column = some place ↔
          ∃ i, BeginsAt text.display.toList (inserted.length + i) (line, column) ∧
            BeginsAt body.toList i place := by
  rcases foldl_prepend texts (ofBody body) with ⟨hbody, hinsertion⟩
  have hinserted : (texts.foldl prepend (ofBody body)).insertion.toList =
      texts.reverse.flatMap String.toList := by
    simpa [ofBody] using hinsertion
  refine ⟨?_, fun line column place => ?_⟩
  · rw [display, String.toList_append, hinserted, hbody]
    rfl
  · rw [sourceOf?_sourceMap h, hinserted, hbody]
    rfl

/-- A character beyond the basic plane takes two columns, also behind an unfinished line. -/
theorem sourceOf?_foldl_prepend_surrogates :
    let text := ["X", "\n\nY"].foldl prepend (ofBody "😀a\nb")
    FitsIn32Bits text.display.toList ∧
      (text.sourceMap none none false).sourceOf? 2 4 = some (0, 2) := by
  have hfits : FitsIn32Bits
      (["X", "\n\nY"].foldl prepend (ofBody "😀a\nb")).display.toList := by
    decide +kernel
  refine ⟨hfits, ((sourceOf?_foldl_prepend _ _ none none false hfits).2 2 4 (0, 2)).mpr ?_⟩
  exact ⟨1, ⟨'a', by decide +kernel, by decide, by decide +kernel⟩,
    ⟨'a', by decide +kernel, by decide, by decide +kernel⟩⟩

end WebFonts.Prepended
