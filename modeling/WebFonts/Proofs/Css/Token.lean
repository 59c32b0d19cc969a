import WebFonts.Proofs.Css.Equations

/-! # What tokens take of a text

A token is followed by the rest of its text, and only few characters can keep a text from being
read as tokens. -/

namespace WebFonts.Css

open Text

/-! ## The text behind a token -/

theorem untilClosed?_suffix {closers text inner rest : List Char}
    (h : untilClosed? closers text = some (inner, rest)) : rest <:+ text := by
  fun_induction untilClosed? closers text generalizing inner with
  | case1 => contradiction
  | case2 => contradiction
  | case3 closers c text scanned behind hunit hclosed =>
    obtain ⟨-, rfl⟩ := Prod.mk.inj (Option.some.inj h)
    exact ⟨scanned, unit_splits c text _ _ hunit⟩
  | case4 closers c text scanned behind hunit hopen ih =>
    obtain ⟨⟨last, rest'⟩, hlast, he⟩ := Option.map_eq_some_iff.mp h
    obtain ⟨-, rfl⟩ := Prod.mk.inj he
    exact (ih hlast).trans ⟨scanned, unit_splits c text _ _ hunit⟩

theorem quoted?_suffix {text rest : List Char} {token : Token}
    (h : quoted? text = some (token, rest)) : rest <:+ text := by
  unfold quoted? at h
  split at h
  · rename_i c text
    split at h
    · split at h
      · rename_i scanned behind hclosed
        obtain ⟨-, rfl⟩ := Prod.mk.inj (Option.some.inj h)
        exact ⟨c :: scanned, by rw [List.cons_append, closeString_splits c text _ _ hclosed]⟩
      · contradiction
    · contradiction
  · contradiction

theorem function?_suffix {text rest : List Char} {token : Token}
    (h : function? text = some (token, rest)) : rest <:+ text := by
  unfold function? at h
  split at h
  · rename_i word behind hword
    obtain ⟨⟨inner, last⟩, hclosed, he⟩ := Option.map_eq_some_iff.mp h
    obtain ⟨-, rfl⟩ := Prod.mk.inj he
    have htext := (identifier?_split hword).1
    exact (untilClosed?_suffix hclosed).trans ⟨word ++ ['('], by simp [← htext]⟩
  · contradiction

theorem sign?_suffix {text rest : List Char} {token : Token}
    (h : sign? text = some (token, rest)) : rest <:+ text := by
  unfold sign? at h
  split at h
  · contradiction
  · obtain ⟨⟨inner, last⟩, hclosed, he⟩ := Option.map_eq_some_iff.mp h
    obtain ⟨-, rfl⟩ := Prod.mk.inj he
    exact (untilClosed?_suffix hclosed).trans (List.suffix_cons _ _)
  · obtain ⟨⟨inner, last⟩, hclosed, he⟩ := Option.map_eq_some_iff.mp h
    obtain ⟨-, rfl⟩ := Prod.mk.inj he
    exact (untilClosed?_suffix hclosed).trans (List.suffix_cons _ _)
  · split at h
    · obtain ⟨-, rfl⟩ := Prod.mk.inj (Option.some.inj h)
      exact List.suffix_cons _ _
    · split at h
      · contradiction
      · obtain ⟨-, rfl⟩ := Prod.mk.inj (Option.some.inj h)
        exact List.suffix_cons _ _

/-- A token is read by one of the readers, with the text behind it. -/
theorem token?_cases {text rest : List Char} {token : Token}
    (h : token? text = some (token, rest)) :
    quoted? text = some (token, rest) ∨
      (∃ run, number? text = some (run, rest) ∧ token = .number (String.ofList run)) ∨
      function? text = some (token, rest) ∨
      (∃ run, identifier? text = some (run, rest) ∧
        token = .identifier (String.ofList (unescape run))) ∨
      (∃ run, hash? text = some (run, rest) ∧ token = .hash (String.ofList (unescape run))) ∨
      sign? text = some (token, rest) := by
  simp only [token?, Option.or_eq_some_iff, Option.map_eq_some_iff, Prod.mk.injEq] at h
  rcases h with h | ⟨-, ⟨⟨run, last⟩, hnumber, rfl, rfl⟩ | ⟨-, h |
    ⟨-, ⟨⟨run, last⟩, hword, rfl, rfl⟩ | ⟨-, ⟨⟨run, last⟩, hhash, rfl, rfl⟩ | ⟨-, h⟩⟩⟩⟩⟩
  · exact .inl h
  · exact .inr (.inl ⟨run, hnumber, rfl⟩)
  · exact .inr (.inr (.inl h))
  · exact .inr (.inr (.inr (.inl ⟨run, hword, rfl⟩)))
  · exact .inr (.inr (.inr (.inr (.inl ⟨run, hhash, rfl⟩))))
  · exact .inr (.inr (.inr (.inr (.inr h))))

theorem token?_suffix {text rest : List Char} {token : Token}
    (h : token? text = some (token, rest)) : rest <:+ text := by
  rcases token?_cases h with h | ⟨run, hnumber, -⟩ | h | ⟨run, hword, -⟩ | ⟨run, hhash, -⟩ | h
  · exact quoted?_suffix h
  · exact ⟨run, (number?_split hnumber).1⟩
  · exact function?_suffix h
  · exact ⟨run, (identifier?_split hword).1⟩
  · exact ⟨'#' :: run, (hash?_split hhash).1⟩
  · exact sign?_suffix h

/-! ## Texts that are no tokens -/

/-- The characters that can keep a text from being read as tokens: brackets and quotes that are not
closed, a backslash at the end, a comment without end, and what ends a value. -/
def obstacles : List Char := ['(', '[', '{', '}', ';', '"', '\'', '\\', '/']

theorem exists_sign_of_not_mem_obstacles {c : Char} (h : c ∉ obstacles) (text : List Char) :
    ∃ token, sign? (c :: text) = some (token, text) := by
  simp only [obstacles, List.mem_cons, List.not_mem_nil, or_false, not_or] at h
  unfold sign?
  split
  · contradiction
  · simp_all
  · simp_all
  · rename_i he
    obtain ⟨rfl, rfl⟩ := List.cons.inj he
    by_cases hcomma : c = ','
    · exact ⟨.operator c, if_pos (.inl hcomma)⟩
    · exact ⟨.delimiter c, by simp [h, hcomma]⟩

theorem exists_token_of_not_mem_obstacles {c : Char} (h : c ∉ obstacles) (text : List Char) :
    ∃ token rest, token? (c :: text) = some (token, rest) := by
  obtain ⟨token, hsign⟩ := exists_sign_of_not_mem_obstacles h text
  have hsome : (token? (c :: text)).isSome = true := by
    simp [token?, hsign]
  obtain ⟨⟨found, rest⟩, hfound⟩ := Option.isSome_iff_exists.mp hsome
  exact ⟨found, rest, hfound⟩

theorem slash_mem_of_gap_error {between : Bool} {text : List Char} {fault : Fault}
    (h : gap between text = .error fault) : '/' ∈ text := by
  fun_induction gap between text generalizing fault with
  | case1 => contradiction
  | case2 text found hspacing =>
    unfold spacing at hspacing
    split at hspacing
    · exact List.mem_cons_self
    all_goals simp at hspacing
  | case3 text scanned rest hspacing ih =>
    cases hrest : gap between rest with
    | error found =>
      rw [← spacing_splits hspacing]
      exact List.mem_append_right _ (ih hrest)
    | ok both => simp [hrest, Scan.after] at h

/-- A text that is no list of tokens has an obstacle in it. -/
theorem exists_obstacle_of_tokens? {text : List Char} (h : tokens? text = none) :
    ∃ c ∈ text, c ∈ obstacles := by
  fun_induction tokens? text with
  | case1 text fault hgap => exact ⟨'/', slash_mem_of_gap_error hgap, by decide⟩
  | case2 => contradiction
  | case3 text blank c rest hgap htoken =>
    refine ⟨c, ?_, ?_⟩
    · rw [← gap_splits _ _ _ _ hgap]
      exact List.mem_append_right _ List.mem_cons_self
    · apply Decidable.byContradiction
      intro hobstacle
      obtain ⟨token, behind, hsome⟩ := exists_token_of_not_mem_obstacles hobstacle rest
      rw [htoken] at hsome
      contradiction
  | case4 text blank c rest hgap token behind htoken ih =>
    obtain ⟨d, hd, hobstacle⟩ := ih (by simpa using h)
    refine ⟨d, ?_, hobstacle⟩
    rw [← gap_splits _ _ _ _ hgap]
    exact List.mem_append_right _ ((token?_suffix htoken).mem hd)

/-- A value that could not be read as tokens still shows an obstacle. -/
theorem exists_obstacle_of_raw {property written : List Char} {text : String}
    (hproperty : "--".toList.isPrefixOf property = false)
    (h : Value.read property written = .raw text) : ∃ c ∈ text.toList, c ∈ obstacles := by
  rw [Value.read, hproperty, if_neg Bool.false_ne_true] at h
  cases htokens : tokens? written with
  | some found => simp [htokens] at h
  | none =>
    simp only [htokens, Value.raw.injEq] at h
    obtain ⟨c, hc, hobstacle⟩ := exists_obstacle_of_tokens? htokens
    have hblank : (obstacles.all fun d => !isBlank d) = true := by decide
    have hnotBlank : isBlank c = false := by simpa using List.all_eq_true.mp hblank c hobstacle
    refine ⟨c, ?_, hobstacle⟩
    rw [← h, String.toList_ofList]
    exact (mem_trim hnotBlank).mpr hc

end WebFonts.Css
