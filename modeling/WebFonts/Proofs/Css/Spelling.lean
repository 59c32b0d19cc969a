import WebFonts.Proofs.Css.Composition
import WebFonts.Proofs.Css.Site

/-! # How declarations are written

Each declaration in the tree of a stylesheet was read from the text at its span. -/

namespace WebFonts.Css

open Text

/-! ## Items that are declarations -/

/-- A declaration without its place. -/
def Declaration.toLeaf (declaration : Declaration) : Leaf :=
  .declaration declaration.property declaration.value declaration.important

theorem Item.leaf_of_ending {leaf found : Option Leaf} {head : Option Head}
    {scanned text taken rest : List Char}
    (h : Item.ending leaf head scanned text = ⟨.whole found, taken, rest⟩) : leaf = found := by
  unfold Item.ending at h
  split at h
  · simp at h
  · exact Item.whole.inj (congrArg Item.Reading.item h)
  · exact Item.whole.inj (congrArg Item.Reading.item h)

theorem leaf_ruleStart_ne (text written : List Char) (declaration : Declaration) :
    (ruleStart text).leaf written ≠ some declaration.toLeaf := by
  unfold ruleStart
  split
  · split
    · simp
    · simp [Declaration.toLeaf]
  · simp

theorem rule_ne_declaration {text scanned rest : List Char} {declaration : Declaration} :
    rule text ≠ .ok ⟨.whole (some declaration.toLeaf), scanned, rest⟩ := by
  intro h
  rw [rule_eq] at h
  cases hstretch : stretch [] (ruleStart text).rest with
  | error fault => simp [hstretch] at h
  | ok both =>
    obtain ⟨written, last⟩ := both
    simp only [hstretch, Except.ok.injEq] at h
    exact leaf_ruleStart_ne text written declaration (Item.leaf_of_ending h)

/-- An item that is a declaration was read as one. -/
theorem declaration?_of_read {inBlock : Bool} {text scanned rest : List Char}
    {declaration : Declaration}
    (h : Item.read inBlock text = .ok ⟨.whole (some declaration.toLeaf), scanned, rest⟩) :
    declaration? text = .ok (some ⟨.whole (some declaration.toLeaf), scanned, rest⟩) := by
  unfold Item.read at h
  split at h
  · split at h
    · contradiction
    · rename_i found hfound
      rw [hfound, Except.ok.inj h]
    · exact (rule_ne_declaration h).elim
  · exact (rule_ne_declaration h).elim

/-! ## Leaves -/

/-- A leaf was read from the text at a span, where the text starts in a place. -/
def Leaf.StandsIn (place : Nat) (text : List Char) (found : Leaf) (span : Span) : Prop :=
  ∃ before scanned behind inBlock, text = before ++ (scanned ++ behind) ∧
    span = ⟨place + utf8Width before, place + utf8Width before + utf8Width scanned⟩ ∧
    Item.read inBlock (scanned ++ behind) = .ok ⟨.whole (some found), scanned, behind⟩

theorem Leaf.StandsIn.append {place : Nat} {front text : List Char} {found : Leaf} {span : Span}
    (h : found.StandsIn (place + utf8Width front) text span) :
    found.StandsIn place (front ++ text) span := by
  obtain ⟨before, scanned, behind, inBlock, rfl, rfl, hread⟩ := h
  refine ⟨front ++ before, scanned, behind, inBlock, (List.append_assoc _ _ _).symm, ?_, hread⟩
  rw [utf8Width_append, Nat.add_assoc place]

/-- Every leaf among the events of a text was read from the text at its span. -/
theorem Derivation.standsIn_of_mem {opened : List Nat} {place : Nat} {text : List Char}
    {events : List Event} (h : Derivation opened place text events) {found : Leaf} {span : Span}
    (hmem : .leaf found span ∈ events) : found.StandsIn place text span := by
  induction h with
  | finish => contradiction
  | @closing place brace outer text blank rest events hgap _ ih =>
    have hrest := ih (by simpa using hmem)
    rw [← gap_splits _ _ _ _ hgap, List.append_cons]
    apply Leaf.StandsIn.append
    rw [utf8Width_append, ← Nat.add_assoc]
    exact hrest
  | @semicolon place opened text blank rest events hgap _ ih =>
    have hrest := ih hmem
    rw [← gap_splits _ _ _ _ hgap, List.append_cons]
    apply Leaf.StandsIn.append
    rw [utf8Width_append, ← Nat.add_assoc]
    exact hrest
  | @dropped place opened text blank rest scanned behind c events hgap _ _ hitem _ ih =>
    have hbehind := ih hmem
    have hsplits : c :: rest = scanned ++ behind := Item.read_splits hitem
    rw [← gap_splits _ _ _ _ hgap, hsplits]
    apply Leaf.StandsIn.append
    apply Leaf.StandsIn.append
    exact hbehind
  | @leaf place opened text blank rest scanned behind c first events hgap _ _ hitem _ ih =>
    have hsplits : c :: rest = scanned ++ behind := Item.read_splits hitem
    rw [← gap_splits _ _ _ _ hgap, hsplits]
    rcases List.mem_cons.mp hmem with he | hmem
    · obtain ⟨rfl, rfl⟩ := Event.leaf.inj he
      rw [hsplits] at hitem
      exact ⟨blank, scanned, behind, _, rfl, rfl, hitem⟩
    · apply Leaf.StandsIn.append
      apply Leaf.StandsIn.append
      exact ih hmem
  | @opening place opened text blank rest scanned behind c head events hgap _ _ hitem _ ih =>
    have hbehind := ih (by simpa using hmem)
    have hsplits : c :: rest = scanned ++ '{' :: behind := Item.read_splits hitem
    rw [← gap_splits _ _ _ _ hgap, hsplits, List.append_cons]
    apply Leaf.StandsIn.append
    apply Leaf.StandsIn.append
    rw [utf8Width_append, ← Nat.add_assoc]
    exact hbehind

/-! ## Declarations in a tree -/

/-- All declarations in nodes are leaves among events. -/
def AllRead (events : List Event) (nodes : List Node) : Prop :=
  ∀ around, ∀ site ∈ Node.sitesAll around nodes,
    .leaf site.declaration.toLeaf site.declaration.span ∈ events

theorem AllRead.nil (events : List Event) : AllRead events [] := by
  intro around site hsite
  contradiction

theorem AllRead.mono {events more : List Event} {nodes : List Node} (h : AllRead events nodes)
    (hsubset : events ⊆ more) : AllRead more nodes :=
  fun around site hsite => hsubset (h around site hsite)

theorem AllRead.cons {events : List Event} {node : Node} {nodes : List Node}
    (h : AllRead events [node]) (h' : AllRead events nodes) : AllRead events (node :: nodes) := by
  intro around site hsite
  rcases List.mem_append.mp hsite with hsite | hsite
  · exact h around site (List.mem_append_left _ hsite)
  · exact h' around site hsite

theorem AllRead.block {events : List Event} {body : List Node} (h : AllRead events body)
    (head : Head) (span : Span) : AllRead events [.block head body span] := by
  intro around site hsite
  rcases List.mem_append.mp hsite with hsite | hsite
  · exact h ((head, span) :: around) site hsite
  · contradiction

theorem allRead_toNode (found : Leaf) (span : Span) :
    AllRead [.leaf found span] [found.toNode span] := by
  intro around site hsite
  cases found with
  | declaration property value important =>
    obtain rfl := List.mem_singleton.mp hsite
    exact List.mem_singleton_self _
  | statement name prelude => contradiction

/-- The tree that is put together from events has no other declarations than these. -/
theorem allRead_following (events : List Event) :
    AllRead events (Event.following events).siblings ∧
      ∀ level ∈ (Event.following events).outer, AllRead events level.2 := by
  induction events with
  | nil => exact ⟨.nil [], by simp [Event.following]⟩
  | cons event events ih =>
    obtain ⟨hsiblings, houter⟩ := ih
    have hmore : events ⊆ event :: events := List.subset_cons_self event events
    have hsiblings := hsiblings.mono hmore
    have houter : ∀ level ∈ (Event.following events).outer, AllRead (event :: events) level.2 :=
      fun level hlevel => (houter level hlevel).mono hmore
    rw [Event.following, List.foldr_cons, ← Event.following]
    cases event with
    | leaf found span =>
      refine ⟨AllRead.cons ((allRead_toNode found span).mono ?_) hsiblings, houter⟩
      exact List.cons_subset_cons _ (List.nil_subset _)
    | closes stop =>
      refine ⟨.nil _, ?_⟩
      intro level hlevel
      rcases List.mem_cons.mp hlevel with rfl | hlevel
      · exact hsiblings
      · exact houter level hlevel
    | opens head start =>
      generalize Event.following events = following at hsiblings houter ⊢
      obtain ⟨siblings, outer⟩ := following
      cases outer with
      | nil => cases head <;> exact ⟨hsiblings, houter⟩
      | cons level outer =>
        have hlevel := houter level List.mem_cons_self
        have houter : ∀ level ∈ outer, AllRead (.opens head start :: events) level.2 :=
          fun other hother => houter other (List.mem_cons_of_mem _ hother)
        cases head with
        | none => exact ⟨hlevel, houter⟩
        | some head => exact ⟨AllRead.cons (hsiblings.block head _) hlevel, houter⟩

/-! ## The text of a declaration -/

theorem dropBytes_utf8Width (before after : List Char) :
    dropBytes (utf8Width before) (before ++ after) = after := by
  induction before with
  | nil => cases after <;> rfl
  | cons c before ih =>
    have hpos : c.utf8Size + utf8Width before ≠ 0 := by
      have := c.utf8Size_pos
      omega
    rw [List.cons_append, utf8Width, dropBytes, if_neg hpos, Nat.add_sub_cancel_left, ih]

/-- Every declaration of a stylesheet was read from the text at its span. -/
theorem exists_text_of_mem_sites {source : List Char} {sheet : Stylesheet}
    (h : Stylesheet.parse source = .ok sheet) {site : Site} (hsite : site ∈ sheet.sites) :
    ∃ before scanned behind, source = before ++ (scanned ++ behind) ∧
      site.declaration.span = ⟨utf8Width before, utf8Width before + utf8Width scanned⟩ ∧
      declaration? (scanned ++ behind) =
        .ok (some ⟨.whole (some site.declaration.toLeaf), scanned, behind⟩) := by
  rcases parse_eq_ok_iff.mp h with ⟨events, hevents, rfl⟩
  have hmem := (allRead_following events).1 [] site hsite
  obtain ⟨before, scanned, behind, inBlock, hsource, hspan, hread⟩ := hevents.standsIn_of_mem hmem
  refine ⟨before, scanned, behind, hsource, ?_, declaration?_of_read hread⟩
  rw [hspan, Nat.zero_add]

/-- How a declaration starts: with its name and white space up to a colon, behind which a stretch
of text holds its value. -/
structure Declaration.Starts (declaration : Declaration) (name blank behind written : List Char) :
    Prop where
  identifier_eq : identifier? (name ++ (blank ++ ':' :: behind)) =
    some (name, blank ++ ':' :: behind)
  gap_eq : gap false (blank ++ ':' :: behind) = .ok (blank, ':' :: behind)
  stretch_eq : ∃ last, stretch [] behind = .ok (written, last)
  toLeaf_eq : declaration.toLeaf = Leaf.ofWritten name written

theorem Declaration.Starts.property_eq {declaration : Declaration}
    {name blank behind written : List Char} (h : declaration.Starts name blank behind written) :
    declaration.property = String.ofList (unescape name) :=
  (Leaf.declaration.inj h.toLeaf_eq).1

theorem Declaration.Starts.value_eq {declaration : Declaration}
    {name blank behind written : List Char} (h : declaration.Starts name blank behind written) :
    declaration.value = Value.read (unescape name) (cutImportant written).1 :=
  (Leaf.declaration.inj h.toLeaf_eq).2.1

/-- The place of a declaration tells the text of its value. -/
theorem Declaration.Starts.written_eq {declaration : Declaration}
    {before name blank behind written before' name' blank' behind' written' : List Char}
    (h : declaration.Starts name blank behind written)
    (h' : declaration.Starts name' blank' behind' written')
    (hsource : before ++ (name ++ (blank ++ ':' :: behind)) =
      before' ++ (name' ++ (blank' ++ ':' :: behind')))
    (hplace : utf8Width before = utf8Width before') : written = written' := by
  have hrest := dropBytes_utf8Width before (name ++ (blank ++ ':' :: behind))
  rw [hsource, hplace, dropBytes_utf8Width] at hrest
  have hname := h.identifier_eq
  rw [← hrest, h'.identifier_eq] at hname
  obtain ⟨-, hgap⟩ := Prod.mk.inj (Option.some.inj hname)
  have hblank := h.gap_eq
  rw [← hgap, h'.gap_eq] at hblank
  obtain ⟨-, hbehind⟩ := Prod.mk.inj (Except.ok.inj hblank)
  obtain ⟨last, hwritten⟩ := h.stretch_eq
  obtain ⟨last', hwritten'⟩ := h'.stretch_eq
  rw [← (List.cons.inj hbehind).2, hwritten'] at hwritten
  exact (Prod.mk.inj (Except.ok.inj hwritten)).1.symm

/-- Every declaration of a stylesheet starts where its span does. -/
theorem exists_start_of_mem_sites {source : List Char} {sheet : Stylesheet}
    (h : Stylesheet.parse source = .ok sheet) {site : Site} (hsite : site ∈ sheet.sites) :
    ∃ before name blank behind written,
      source = before ++ (name ++ (blank ++ ':' :: behind)) ∧
      site.declaration.span.start = utf8Width before ∧
      site.declaration.Starts name blank behind written := by
  obtain ⟨before, scanned, last, hsource, hspan, hread⟩ := exists_text_of_mem_sites h hsite
  obtain ⟨name, rest, blank, behind, written, last, hname, hgap, hstretch, -, hreading⟩ :=
    exists_colon_of_declaration? hread
  have hrest := gap_splits false rest _ _ hgap
  have htext := (identifier?_split hname).1
  rw [← hrest] at hname hgap htext
  have hleaf := Item.leaf_of_ending hreading.symm
  refine ⟨before, name, blank, behind, written, ?_, ?_, ?_, hgap, ⟨last, hstretch⟩, ?_⟩
  · rw [hsource, htext]
  · rw [hspan]
  · rw [htext, hname]
  · exact (Option.some.inj hleaf).symm

end WebFonts.Css
