import WebFonts.Proofs.Css.Equations

/-! # The outline of a stylesheet

Whether a text is a stylesheet can be told in one pass that knows nothing of rules and
declarations, and so can the fault of a text that is none. -/

namespace WebFonts.Css

open Text

/-! ## The scanner -/

namespace Outline

/-- What the scanner is inside of. A comment knows the place behind its opening. -/
inductive Mode where
  | plain
  | comment (start : Nat)
  | string (quote : Char)
  /-- The next character is passed over. -/
  | skip (next : Mode)

/-- The fault of a text that ends, with its message and its place. -/
def Mode.atEnd (opened : List Nat) (place : Nat) : Mode → Option (String × Nat)
  | plain => opened.head?.map fun brace => ("unterminated block", brace)
  | comment start => some ("unterminated comment", start)
  | string _ => some ("unterminated string", place)
  | skip next => next.atEnd opened place

/-- The first fault of a text that starts in this place, inside of the blocks whose braces stand
in the places `opened`, innermost first. -/
def scan (mode : Mode) (opened : List Nat) (place : Nat) : List Char → Option (String × Nat)
  | [] => mode.atEnd opened place
  | c :: rest =>
    let next := place + c.utf8Size
    match mode with
    | .skip mode => scan mode opened next rest
    | .comment start =>
      if c = '*' ∧ rest.head? = some '/' then scan (.skip .plain) opened next rest
      else scan (.comment start) opened next rest
    | .string quote =>
      if c = quote then scan .plain opened next rest
      else if c = '\n' ∨ c = '\\' ∧ rest = [] then some ("unterminated string", place)
      else if c = '\\' then scan (.skip (.string quote)) opened next rest
      else scan (.string quote) opened next rest
    | .plain =>
      if c = '\\' then scan (.skip .plain) opened next rest
      else if c = '/' ∧ rest.head? = some '*' then
        scan (.skip (.comment (place + 2))) opened next rest
      else if c = '"' ∨ c = '\'' then scan (.string c) opened next rest
      else if c = '{' then scan .plain (place :: opened) next rest
      else if c = '}' then
        match opened with
        | [] => some ("unexpected `\x7d` outside of a block", place)
        | _ :: outer => scan .plain outer next rest
      else scan .plain opened next rest

end Outline

open Outline

/-- A fault as the scanner reports it. -/
def Fault.report (fault : Fault) : String × Nat := (fault.cause.text, fault.offset)

/-- The scanner goes on behind what a reader took, or finds the fault that the reader found. -/
def Scan.FollowsOutline (text : List Char) (read : Scan) : Prop :=
  ∀ opened place, scan .plain opened place text =
    match read with
    | .error fault => some (fault.shift place).report
    | .ok (scanned, rest) => scan .plain opened (place + utf8Width scanned) rest

theorem Scan.FollowsOutline.after {front text : List Char} {read : Scan}
    (hfront : FollowsOutline (front ++ text) (.ok (front, text)))
    (h : FollowsOutline text read) : FollowsOutline (front ++ text) (read.after front) := by
  intro opened place
  rw [hfront opened place]
  dsimp only
  rw [h]
  cases read with
  | error fault => simp [Scan.after]
  | ok both => simp [Scan.after, Nat.add_assoc]

/-! ## Comments and strings -/

theorem scan_comment (start : Nat) (opened : List Nat) (place : Nat) (text : List Char) :
    scan (.comment start) opened place text =
      match closeComment text with
      | none => some ("unterminated comment", start)
      | some (scanned, rest) => scan .plain opened (place + utf8Width scanned) rest := by
  fun_induction closeComment text generalizing place with
  | case1 => rfl
  | case2 rest => simp [scan, utf8Width, Nat.add_assoc]
  | case3 c rest hc ih =>
    have hopen : ¬(c = '*' ∧ rest.head? = some '/') := by
      rintro ⟨rfl, hrest⟩
      rcases List.head?_eq_some_iff.mp hrest with ⟨rest, rfl⟩
      exact hc _ rfl rfl
    simp only [scan, hopen, ↓reduceIte, ih]
    cases closeComment rest with
    | none => rfl
    | some both => simp [utf8Width, Nat.add_assoc]

theorem comment_followsOutline (body : List Char) :
    (comment body).FollowsOutline ('/' :: '*' :: body) := by
  intro opened place
  have hscan : scan .plain opened place ('/' :: '*' :: body) =
      scan (.comment (place + 2)) opened (place + 2) body := rfl
  rw [hscan, scan_comment, comment]
  cases closeComment body with
  | none => rfl
  | some both =>
    have hwidth : utf8Width ('/' :: '*' :: both.1) = 2 + utf8Width both.1 := by
      rw [utf8Width, utf8Width, ← Nat.add_assoc]
      rfl
    simp [hwidth, Nat.add_assoc]

theorem scan_string {quote : Char} (hquote : isQuote quote = true) (opened : List Nat)
    (place : Nat) (text : List Char) :
    scan (.string quote) opened place text =
      match closeString quote text with
      | .error fault => some (fault.shift place).report
      | .ok (scanned, rest) => scan .plain opened (place + utf8Width scanned) rest := by
  have hslash : '\\' ≠ quote := by
    rintro rfl
    simp [isQuote] at hquote
  fun_induction closeString quote text generalizing place with
  | case1 => rfl
  | case2 => simp [scan, hslash, Fault.report, Fault.shift, Cause.text]
  | case3 c rest ih =>
    simp only [scan, hslash, ih]
    cases closeString quote rest <;>
      simp [Scan.after, utf8Width, Nat.add_assoc]
  | case4 rest => simp [scan, utf8Width]
  | case5 rest _ _ hline => simp [scan, hline, Fault.report, Fault.shift, Cause.text]
  | case6 c rest hlast hescape hclose hline ih =>
    have hc : c ≠ '\\' := by
      rintro rfl
      cases rest with
      | nil => exact hlast rfl rfl
      | cons d rest => exact hescape d rest rfl rfl
    simp only [scan, hclose, hline, hc, ih]
    cases closeString quote rest <;> simp [Scan.after, utf8Width, Nat.add_assoc]

/-! ## Pieces, white space and stretches -/

theorem unit_followsOutline {c : Char} {rest : List Char} (hopen : c ≠ '{') (hclose : c ≠ '}')
    (hcomment : ¬(c = '/' ∧ rest.head? = some '*')) :
    (unit c rest).FollowsOutline (c :: rest) := by
  intro opened place
  unfold unit
  by_cases hquote : isQuote c = true
  · have hc : c ≠ '\\' := by
      rintro rfl
      simp [isQuote] at hquote
    have hscan : scan .plain opened place (c :: rest) =
        scan (.string c) opened (place + c.utf8Size) rest := by
      have : c = '"' ∨ c = '\'' := by simpa [isQuote] using hquote
      simp [scan, hc, hcomment, this]
    rw [hscan, scan_string hquote, if_pos hquote]
    cases closeString c rest <;> simp [Scan.after, utf8Width, Nat.add_assoc]
  · have hquote' : ¬(c = '"' ∨ c = '\'') := by simpa [isQuote] using hquote
    by_cases hc : c = '\\'
    · subst hc
      cases rest <;> simp [scan, hquote, utf8Width, Nat.add_assoc, Mode.atEnd]
    · simp [scan, hquote, hquote', hc, hcomment, hopen, hclose, utf8Width]

theorem piece_followsOutline {c : Char} {rest : List Char} (hopen : c ≠ '{') (hclose : c ≠ '}') :
    (piece c rest).FollowsOutline (c :: rest) := by
  unfold piece
  split
  · exact comment_followsOutline _
  · rename_i hcomment
    refine unit_followsOutline hopen hclose ?_
    rintro ⟨rfl, hrest⟩
    rcases List.head?_eq_some_iff.mp hrest with ⟨rest, rfl⟩
    exact hcomment _ rfl rfl

/-- Characters that open and close nothing are passed over. -/
theorem scan_plain_of_forall (run text : List Char)
    (h : ∀ c ∈ run, c ∉ ['\\', '/', '"', '\'', '{', '}']) (opened : List Nat) (place : Nat) :
    scan .plain opened place (run ++ text) =
      scan .plain opened (place + utf8Width run) text := by
  induction run generalizing place with
  | nil => rfl
  | cons c run ih =>
    have hc := h c (by simp)
    simp only [List.mem_cons, List.not_mem_nil, or_false, not_or] at hc
    obtain ⟨h₁, h₂, h₃, h₄, h₅, h₆⟩ := hc
    rw [List.cons_append]
    simp [scan, h₁, h₂, h₃, h₄, h₅, h₆, ih fun d hd => h d (by simp [hd]), utf8Width,
      Nat.add_assoc]

theorem spacing_followsOutline {between : Bool} {text : List Char} {read : Scan}
    (h : spacing between text = some read) : read.FollowsOutline text := by
  have hrun : ∀ run rest : List Char, (∀ c ∈ run, c ∉ ['\\', '/', '"', '\'', '{', '}']) →
      Scan.FollowsOutline (run ++ rest) (.ok (run, rest)) :=
    fun run rest hrun opened place => scan_plain_of_forall run rest hrun opened place
  unfold spacing at h
  split at h
  · obtain rfl := Option.some.inj h
    exact comment_followsOutline _
  · split at h
    · obtain rfl := Option.some.inj h
      exact hrun ['<', '!', '-', '-'] _ (by simp)
    · contradiction
  · split at h
    · obtain rfl := Option.some.inj h
      exact hrun ['-', '-', '>'] _ (by simp)
    · contradiction
  · rename_i c rest _ _ _
    split at h
    · rename_i hspace
      obtain rfl := Option.some.inj h
      refine hrun [c] rest fun d hd => ?_
      obtain rfl := List.mem_singleton.mp hd
      simp only [isSpace, Bool.or_eq_true, beq_iff_eq] at hspace
      rcases hspace with ((rfl | rfl) | rfl) | rfl <;> decide
    · contradiction
  · contradiction

theorem gap_followsOutline (between : Bool) (text : List Char) :
    (gap between text).FollowsOutline text := by
  fun_induction gap between text with
  | case1 text h => exact fun opened place => rfl
  | case2 text fault h => exact spacing_followsOutline h
  | case3 text scanned rest h ih =>
    have hfront := spacing_followsOutline h
    have hsplit := spacing_splits h
    subst hsplit
    exact Scan.FollowsOutline.after hfront ih

theorem stretch_followsOutline (closers text : List Char) :
    (stretch closers text).FollowsOutline text := by
  fun_induction stretch closers text with
  | case1 => exact fun opened place => rfl
  | case2 => exact fun opened place => rfl
  | case3 closers c text hends fault h =>
    simp only [endsStretch, Bool.or_eq_true, beq_iff_eq, not_or] at hends
    exact h ▸ piece_followsOutline hends.1.1 hends.1.2
  | case4 closers c text hends scanned rest h ih =>
    simp only [endsStretch, Bool.or_eq_true, beq_iff_eq, not_or] at hends
    have hfront := h ▸ piece_followsOutline hends.1.1 hends.1.2
    have hsplit := piece_splits c text scanned rest h
    rw [← hsplit] at hfront ⊢
    exact Scan.FollowsOutline.after hfront ih

/-! ## Items -/

theorem name_followsOutline (text : List Char) :
    Scan.FollowsOutline text (.ok (name text)) := by
  intro opened place
  fun_induction name text generalizing place with
  | case1 c text ih => simp [scan, ih, utf8Width, Nat.add_assoc]
  | case2 c text _ hc ih =>
    have hplain : c ∉ ['\\', '/', '"', '\'', '{', '}'] := by
      intro hmem
      simp only [List.mem_cons, List.not_mem_nil, or_false] at hmem
      rcases hmem with rfl | rfl | rfl | rfl | rfl | rfl <;> simp [isNameCharacter] at hc
    have hone := scan_plain_of_forall [c] text (by simpa using hplain) opened place
    rw [List.singleton_append] at hone
    rw [hone, ih]
    simp [utf8Width, Nat.add_assoc]
  | case3 => rfl
  | case4 => rfl

theorem identifier?_followsOutline {text run rest : List Char}
    (h : identifier? text = some (run, rest)) :
    Scan.FollowsOutline (run ++ rest) (.ok (run, rest)) := by
  have hsplit := (identifier?_split h).1
  simp only [identifier?, Option.ite_none_left_eq_some, Option.some.injEq] at h
  rw [hsplit, ← h.2]
  exact name_followsOutline text

/-- A sign that opens and closes nothing goes with what was taken before it. -/
theorem Scan.FollowsOutline.snoc {text front rest : List Char} {c : Char}
    (h : Scan.FollowsOutline text (.ok (front, c :: rest)))
    (hc : c ∉ ['\\', '/', '"', '\'', '{', '}']) :
    Scan.FollowsOutline text (.ok (front ++ [c], rest)) := by
  intro opened place
  have hone := scan_plain_of_forall [c] rest (by simpa using hc)
  simp only [List.singleton_append] at hone
  rw [h opened place]
  dsimp only
  rw [hone]
  simp [Nat.add_assoc]

/-- The scanner goes on behind an item that was read, inside of the block that it opens. -/
def Item.FollowsOutline (text : List Char) (read : Except Fault Item.Reading) : Prop :=
  ∀ opened place, scan .plain opened place text =
    match read with
    | .error fault => some (fault.shift place).report
    | .ok ⟨.whole _, scanned, rest⟩ => scan .plain opened (place + utf8Width scanned) rest
    | .ok ⟨.opening _, scanned, rest⟩ =>
      scan .plain ((place + utf8Width scanned) :: opened) (place + utf8Width scanned + 1) rest

theorem Item.followsOutline_error {text : List Char} {scan : Scan} {fault : Fault}
    (h : scan.FollowsOutline text) (he : scan = .error fault) :
    Item.FollowsOutline text (.error fault) := by
  subst he
  exact h

theorem Item.followsOutline_ending {text front rest : List Char}
    (h : Scan.FollowsOutline text (.ok (front, rest))) (leaf : Option Leaf) (head : Option Head) :
    Item.FollowsOutline text (.ok (Item.ending leaf head front rest)) := by
  by_cases hbrace : rest.head? = some '{'
  · rcases List.head?_eq_some_iff.mp hbrace with ⟨rest, rfl⟩
    exact h
  · by_cases hsemicolon : rest.head? = some ';'
    · rcases List.head?_eq_some_iff.mp hsemicolon with ⟨rest, rfl⟩
      exact h.snoc (by decide)
    · rw [Item.ending_of_ne leaf head front hbrace hsemicolon]
      exact h

theorem declaration?_followsOutline {text : List Char} (read : Except Fault Item.Reading)
    (h : declaration? text = read.map some) : Item.FollowsOutline text read := by
  have hfault : ∀ fault, .error fault = read.map some → read = .error fault := by
    intro fault he
    cases read <;> simp_all [Except.map]
  have hreading : ∀ reading, .ok (some reading) = read.map some → read = .ok reading := by
    intro reading he
    cases read <;> simp_all [Except.map]
  have hnone : .ok none ≠ read.map some := by
    cases read <;> simp [Except.map]
  unfold declaration? at h
  split at h
  · exact (hnone h).elim
  · rename_i name rest hname
    have hsplit := (identifier?_split hname).1
    subst hsplit
    have hgap := Scan.FollowsOutline.after (identifier?_followsOutline hname)
      (gap_followsOutline false rest)
    split at h
    · rename_i fault he
      rw [hfault _ h]
      exact Item.followsOutline_error hgap he
    · rename_i scanned behind he
      have hcolon := (he ▸ hgap).snoc (by decide)
      have hbehind : (scanned ++ [':']) ++ behind = name ++ rest := by
        have := (gap_splits false rest).after name _ _ he
        simpa using this
      rw [← hbehind] at hcolon ⊢
      have hstretch := Scan.FollowsOutline.after hcolon (stretch_followsOutline [] behind)
      split at h
      · rename_i fault he
        rw [hfault _ h, show utf8Width scanned + 1 = utf8Width (scanned ++ [':']) by
          rw [utf8Width_append]; rfl]
        exact Item.followsOutline_error hstretch (by rw [he]; rfl)
      · exact (hnone h).elim
      · rename_i written last _ he
        rw [he] at hstretch
        rw [hreading _ h, show scanned ++ ':' :: written = scanned ++ [':'] ++ written by simp]
        exact Item.followsOutline_ending hstretch _ _
    · exact (hnone h).elim

theorem rule_followsOutline (text : List Char) : Item.FollowsOutline text (rule text) := by
  unfold rule
  split
  · rename_i behind
    have hat : Scan.FollowsOutline (['@'] ++ behind) (.ok (['@'], behind)) := fun opened place =>
      scan_plain_of_forall ['@'] behind (by simp) opened place
    split
    · have hstretch := Scan.FollowsOutline.after hat (stretch_followsOutline [] behind)
      split
      · rename_i fault hfault
        exact Item.followsOutline_error hstretch hfault
      · rename_i scanned rest hscanned
        exact Item.followsOutline_ending (hscanned ▸ hstretch) _ _
    · rename_i name rest hname
      have hsplit := (identifier?_split hname).1
      subst hsplit
      have hfront := Scan.FollowsOutline.after hat (identifier?_followsOutline hname)
      rw [← List.append_assoc] at hfront
      have hstretch := Scan.FollowsOutline.after hfront (stretch_followsOutline [] rest)
      split
      · rename_i fault hfault
        exact Item.followsOutline_error hstretch (by rw [hfault]; rfl)
      · rename_i written last hwritten
        rw [hwritten] at hstretch
        exact Item.followsOutline_ending hstretch _ _
  · have hstretch := stretch_followsOutline [] text
    split
    · rename_i fault hfault
      exact Item.followsOutline_error hstretch hfault
    · rename_i written rest hwritten
      exact Item.followsOutline_ending (hwritten ▸ hstretch) _ _

theorem Item.read_followsOutline (inBlock : Bool) (text : List Char) :
    Item.FollowsOutline text (Item.read inBlock text) := by
  unfold Item.read
  split
  · split
    · rename_i fault h
      exact declaration?_followsOutline (.error fault) h
    · rename_i reading h
      exact declaration?_followsOutline (.ok reading) h
    · exact rule_followsOutline text
  · exact rule_followsOutline text

/-! ## Whole texts -/

/-- The fault of a text that could not be read. -/
def reported {α : Type} : Except Fault α → Option (String × Nat)
  | .error fault => some fault.report
  | .ok _ => none

@[simp] theorem reported_map {α β : Type} (f : α → β) (read : Except Fault α) :
    reported (read.map f) = reported read := by
  cases read <;> rfl

theorem scan_gap {text blank rest : List Char} (opened : List Nat) (place : Nat)
    (h : gap opened.isEmpty text = .ok (blank, rest)) :
    scan .plain opened place text = scan .plain opened (place + utf8Width blank) rest := by
  have hgap := gap_followsOutline opened.isEmpty text
  rw [h] at hgap
  exact hgap opened place

theorem Item.followsOutline_of_read {inBlock : Bool} {text : List Char}
    {read : Except Fault Item.Reading} (h : Item.read inBlock text = read) :
    Item.FollowsOutline text read := by
  rw [← h]
  exact read_followsOutline inBlock text

/-- Reading finds the fault that the scanner finds, whatever items it tries. -/
theorem reported_read (opened : List Nat) (place : Nat) (text : List Char) :
    reported (Event.read opened place text) = scan .plain opened place text := by
  fun_induction Event.read opened place text with
  | case1 opened place text fault hgap =>
    exact (hgap ▸ gap_followsOutline opened.isEmpty text opened place).symm
  | case2 place text blank _ hgap => exact (scan_gap [] place hgap).symm
  | case3 place text blank brace outer _ hgap =>
    exact (scan_gap (brace :: outer) place hgap).symm
  | case4 place text blank rest start _ hgap => exact (scan_gap [] place hgap).symm
  | case5 place text blank rest start brace outer _ hgap ih =>
    rw [reported_map, ih, scan_gap (brace :: outer) place hgap]
    rfl
  | case6 opened place text blank rest start hgap _ ih =>
    rw [ih, scan_gap opened place hgap]
    rfl
  | case7 opened place text blank c rest hgap start _ _ fault hitem =>
    rw [scan_gap opened place hgap]
    exact (Item.followsOutline_of_read hitem opened start).symm
  | case8 opened place text blank c rest hgap start _ _ scanned behind hitem ih =>
    rw [ih, scan_gap opened place hgap]
    exact (Item.followsOutline_of_read hitem opened start).symm
  | case9 opened place text blank c rest hgap start _ _ found scanned behind hitem stop ih =>
    rw [reported_map, ih, scan_gap opened place hgap]
    exact (Item.followsOutline_of_read hitem opened start).symm
  | case10 opened place text blank c rest hgap start _ _ head scanned behind hitem brace ih =>
    rw [reported_map, ih, scan_gap opened place hgap]
    exact (Item.followsOutline_of_read hitem opened start).symm

/-! ## The place of a fault -/

theorem takeBytes_utf8Width (before after : List Char) :
    takeBytes (utf8Width before) (before ++ after) = before := by
  induction before with
  | nil => cases after <;> rfl
  | cons c before ih =>
    have hpos : c.utf8Size + utf8Width before ≠ 0 := by
      have := c.utf8Size_pos
      omega
    rw [List.cons_append, utf8Width, takeBytes, if_neg hpos, Nat.add_sub_cancel_left, ih]

namespace Outline

/-- A number of bytes at whose end a character of the source, or the source itself, ends. -/
def IsPlace (source : List Char) (offset : Nat) : Prop :=
  ∃ before, before <+: source ∧ utf8Width before = offset

/-- The places that a scanner remembers besides those of braces. -/
def Mode.Knows (source : List Char) : Mode → Prop
  | plain => True
  | comment start => IsPlace source start
  | string _ => True
  | skip next => next.Knows source

theorem isPlace_of_atEnd {mode : Mode} {opened : List Nat} {place : Nat} {source : List Char}
    {message : String} {offset : Nat} (hmode : mode.Knows source)
    (hopened : ∀ brace ∈ opened, IsPlace source brace) (hplace : IsPlace source place)
    (h : mode.atEnd opened place = some (message, offset)) : IsPlace source offset := by
  induction mode with
  | plain =>
    rcases Option.map_eq_some_iff.mp h with ⟨brace, hbrace, he⟩
    rcases Prod.mk.inj he with ⟨-, rfl⟩
    exact hopened _ (List.mem_of_head? hbrace)
  | comment start =>
    rcases Prod.mk.inj (Option.some.inj h) with ⟨-, rfl⟩
    exact hmode
  | string quote =>
    rcases Prod.mk.inj (Option.some.inj h) with ⟨-, rfl⟩
    exact hplace
  | skip next ih => exact ih hmode h

theorem isPlace_of_scan {mode : Mode} {opened : List Nat} {before text : List Char}
    {message : String} {offset : Nat}
    (h : scan mode opened (utf8Width before) text = some (message, offset))
    (hmode : mode.Knows (before ++ text))
    (hopened : ∀ brace ∈ opened, IsPlace (before ++ text) brace) :
    IsPlace (before ++ text) offset := by
  induction text generalizing mode opened before with
  | nil => exact isPlace_of_atEnd hmode hopened ⟨before, by simp, rfl⟩ h
  | cons c rest ih =>
    have hplace : IsPlace (before ++ c :: rest) (utf8Width before) := ⟨before, by simp, rfl⟩
    have hnext : ∀ {mode : Mode} {opened : List Nat},
        scan mode opened (utf8Width before + c.utf8Size) rest = some (message, offset) →
        mode.Knows (before ++ c :: rest) →
        (∀ brace ∈ opened, IsPlace (before ++ c :: rest) brace) →
        IsPlace (before ++ c :: rest) offset := by
      intro mode opened h hmode hopened
      rw [show before ++ c :: rest = before ++ [c] ++ rest by simp] at hmode hopened ⊢
      exact ih (by simpa [utf8Width] using h) hmode hopened
    cases mode with
    | skip mode => exact hnext h hmode hopened
    | comment start =>
      simp only [scan] at h
      split at h
      · exact hnext h trivial hopened
      · exact hnext h hmode hopened
    | string quote =>
      simp only [scan] at h
      split at h
      · exact hnext h trivial hopened
      · split at h
        · rcases Prod.mk.inj (Option.some.inj h) with ⟨-, rfl⟩
          exact hplace
        · split at h <;> exact hnext h trivial hopened
    | plain =>
      simp only [scan] at h
      split at h
      · exact hnext h trivial hopened
      · split at h
        · rename_i hcomment
          obtain ⟨rfl, hrest⟩ := hcomment
          rcases List.head?_eq_some_iff.mp hrest with ⟨rest, rfl⟩
          have hstart : IsPlace (before ++ '/' :: '*' :: rest) (utf8Width before + 2) :=
            ⟨before ++ ['/', '*'], by simp, by rw [utf8Width_append]; rfl⟩
          exact hnext h hstart hopened
        · split at h
          · exact hnext h trivial hopened
          · split at h
            · exact hnext h trivial (List.forall_mem_cons.mpr ⟨hplace, hopened⟩)
            · split at h
              · cases opened with
                | nil =>
                  rcases Prod.mk.inj (Option.some.inj h) with ⟨-, rfl⟩
                  exact hplace
                | cons brace outer =>
                  exact hnext h trivial (fun b hb => hopened b (by simp [hb]))
              · exact hnext h trivial hopened

end Outline

/-- A text is a stylesheet exactly if the scanner finds no fault in it. If it finds one, reading
fails with its message at its place; lines are counted by line feeds, and columns by the characters
since the last of them. -/
theorem parse_agrees_with_outline (source : List Char) :
    match scan .plain [] 0 source with
    | none => ∃ sheet, Stylesheet.parse source = .ok sheet
    | some (message, offset) =>
      ∃ e before after, Stylesheet.parse source = .error e ∧ e.cause.text = message ∧
        e.offset = offset ∧ source = before ++ after ∧ utf8Width before = offset ∧
        e.line = 1 + before.count '\n' ∧
        e.column = 1 + (before.reverse.takeWhile (· ≠ '\n')).length := by
  have hreported := reported_read [] 0 source
  cases hscan : scan .plain [] 0 source with
  | none =>
    rw [hscan] at hreported
    cases hread : Event.read [] 0 source with
    | error fault => simp [hread, reported] at hreported
    | ok events => exact ⟨⟨Event.assemble events⟩, by simp [Stylesheet.parse, hread]⟩
  | some report =>
    obtain ⟨message, offset⟩ := report
    have hplace : IsPlace ([] ++ source) offset := isPlace_of_scan hscan trivial (by simp)
    obtain ⟨before, ⟨after, hsource⟩, hwidth⟩ := hplace
    rw [hscan] at hreported
    cases hread : Event.read [] 0 source with
    | ok events => simp [hread, reported] at hreported
    | error fault =>
      simp only [hread, reported, Fault.report, Option.some.injEq, Prod.mk.injEq] at hreported
      obtain ⟨rfl, rfl⟩ := hreported
      have htake : takeBytes fault.offset source = before := by
        rw [← hwidth, ← List.nil_append source, ← hsource]
        exact takeBytes_utf8Width before after
      refine ⟨fault.locate source, before, after, by simp [Stylesheet.parse, hread], rfl, rfl,
        hsource.symm, hwidth, ?_, ?_⟩
      · simp only [Fault.locate, htake]
      · simp only [Fault.locate, htake]

end WebFonts.Css
