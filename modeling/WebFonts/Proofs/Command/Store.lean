import WebFonts.Command.Store
import WebFonts.Proofs.Text.Place

/-! # Reading what was written

A file that was written holds the text written to it, and all others hold what they held before. -/

namespace WebFonts.Command.Store

/-! ## Walks -/

theorem isDirectory_dropLast {store : Store} {path : List String}
    (h : store.isDirectory path = true) : store.isDirectory path.dropLast = true := by
  simp only [isDirectory, Bool.or_eq_true, List.isEmpty_iff, List.any_eq_true,
    List.isPrefixOf_iff_prefix] at h ⊢
  rcases h with rfl | ⟨file, hfile, hprefix⟩
  · exact .inl rfl
  · exact .inr ⟨file, hfile, (List.dropLast_prefix path).trans hprefix⟩

/-- A walk leads to a file in some directory, with the name that the walk ends in. -/
theorem exists_parent_of_walk {store : Store} {directory names file : List String}
    (hdirectory : store.isDirectory directory = true)
    (h : store.walk directory names = some file) :
    ∃ parent name, file = parent ++ [name] ∧ names.getLast? = some name ∧
      store.isDirectory parent = true := by
  fun_induction walk store directory names with
  | case1 => contradiction
  | case2 => contradiction
  | case3 directory name => exact ⟨directory, name, (Option.some.inj h).symm, rfl, hdirectory⟩
  | case4 directory name names hnames _ ih =>
    rw [List.getLast?_cons_of_ne_nil hnames]
    exact ih hdirectory h
  | case5 => contradiction
  | case6 directory names hnames _ _ ih =>
    rw [List.getLast?_cons_of_ne_nil hnames]
    exact ih (isDirectory_dropLast hdirectory) h
  | case7 directory name names hnames _ _ hinner ih =>
    rw [List.getLast?_cons_of_ne_nil hnames]
    exact ih hinner h
  | case8 => contradiction

/-- Walks depend on nothing but the directories. -/
theorem walk_congr {store store' : Store}
    (h : ∀ path, store'.isDirectory path = store.isDirectory path)
    (directory names : List String) : store'.walk directory names = store.walk directory names := by
  fun_induction walk store directory names <;> rw [walk] <;> simp_all

theorem locate?_congr {store store' : Store}
    (h : ∀ path, store'.isDirectory path = store.isDirectory path) (path : String) :
    store'.locate? path = store.locate? path := by
  rw [locate?, locate?, walk_congr h]

theorem exists_parent_of_locate? {store : Store} {path : String} {file : List String}
    (h : store.locate? path = some file) :
    ∃ parent name, file = parent ++ [name] ∧ (components path).getLast? = some name ∧
      store.isDirectory parent = true :=
  exists_parent_of_walk rfl (Option.ite_none_left_eq_some.mp h).2

/-! ## Writing -/

theorem exists_locate?_of_write {store store' : Store} {path text : String}
    (h : store.write path text = some store') : ∃ file, store.locate? path = some file ∧
      store' = ⟨(file, some text) :: store.files.filter (·.1 != file)⟩ := by
  unfold write at h
  split at h
  · contradiction
  · rename_i file hfile
    exact ⟨file, hfile, (Option.some.inj h).symm⟩

theorem isDirectory_write {store store' : Store} {path text : String}
    (h : store.write path text = some store') (other : List String) :
    store'.isDirectory other = store.isDirectory other := by
  obtain ⟨file, hfile, rfl⟩ := exists_locate?_of_write h
  obtain ⟨parent, name, rfl, -, hparent⟩ := exists_parent_of_locate? hfile
  rw [Bool.eq_iff_iff]
  simp only [isDirectory, Bool.or_eq_true, List.isEmpty_iff, List.any_cons, List.any_eq_true,
    List.isPrefixOf_iff_prefix, List.mem_filter, bne_iff_ne] at hparent ⊢
  constructor
  · rintro (rfl | hnew | ⟨file, ⟨hfile, -⟩, hprefix⟩)
    · exact .inl rfl
    · rw [List.dropLast_concat] at hnew
      rcases hparent with rfl | ⟨file, hfile, hprefix⟩
      · exact .inl (List.prefix_nil.mp hnew)
      · exact .inr ⟨file, hfile, hnew.trans hprefix⟩
    · exact .inr ⟨file, hfile, hprefix⟩
  · rintro (rfl | ⟨file, hfile, hprefix⟩)
    · exact .inl rfl
    · by_cases hsame : file.1 = parent ++ [name]
      · exact .inr (.inl (hsame ▸ hprefix))
      · exact .inr (.inr ⟨file, ⟨hfile, hsame⟩, hprefix⟩)

theorem locate?_write {store store' : Store} {path text : String}
    (h : store.write path text = some store') (other : String) :
    store'.locate? other = store.locate? other :=
  locate?_congr (isDirectory_write h) other

/-- What was written is read. -/
theorem read_write_self {store store' : Store} {path text : String}
    (h : store.write path text = some store') : store'.read path = some text := by
  have hlocate := locate?_write h path
  obtain ⟨file, hfile, rfl⟩ := exists_locate?_of_write h
  rw [read, hlocate, hfile]
  simp

theorem lookup_filter_of_ne {files : List (List String × Option String)} {file other : List String}
    (h : other ≠ file) : (files.filter (·.1 != file)).lookup other = files.lookup other := by
  induction files with
  | nil => rfl
  | cons entry files ih =>
    obtain ⟨path, text⟩ := entry
    by_cases hpath : path = file
    · subst hpath
      simp [List.lookup_cons, ih, beq_eq_false_iff_ne.mpr h]
    · simp [List.lookup_cons, ih, hpath]

/-- Paths that lead to other files are read as before. -/
theorem read_write_of_ne {store store' : Store} {path text other : String}
    (h : store.write path text = some store') (hne : store.locate? other ≠ store.locate? path) :
    store'.read other = store.read other := by
  have hlocate := locate?_write h other
  obtain ⟨file, hfile, rfl⟩ := exists_locate?_of_write h
  rw [read, hlocate, read]
  cases hother : store.locate? other with
  | none => rfl
  | some found =>
    have hfound : found ≠ file := by
      rintro rfl
      exact hne (hother.trans hfile.symm)
    simp [List.lookup_cons, beq_eq_false_iff_ne.mpr hfound, lookup_filter_of_ne hfound]

/-! ## Paths with an ending -/

theorem splitAt_of_not_mem {separator : Char} {text : List Char} (h : separator ∉ text) :
    Text.splitAt separator text = [text] := by
  induction text with
  | nil => rfl
  | cons c text ih =>
    rw [List.mem_cons, not_or] at h
    exact Text.splitAt_cons_of_ne (Ne.symm h.1) (ih h.2)

/-- What is put behind a text and has no separator in it belongs to the last piece. -/
theorem splitAt_append {separator : Char} {more : List Char} (h : separator ∉ more)
    (text : List Char) :
    Text.splitAt separator (text ++ more) = (Text.splitAt separator text).dropLast ++
      [(Text.splitAt separator text).getLastD [] ++ more] := by
  induction text with
  | nil => exact splitAt_of_not_mem h
  | cons c text ih =>
    obtain ⟨piece, pieces, hpieces⟩ := Text.exists_splitAt separator text
    rw [hpieces] at ih
    by_cases hc : c = separator
    · rw [List.cons_append, hc, Text.splitAt_cons_self, ih, Text.splitAt_cons_self, hpieces]
      rfl
    · rw [Text.splitAt_cons_of_ne hc hpieces]
      cases pieces with
      | nil => exact Text.splitAt_cons_of_ne hc ih
      | cons next pieces => exact Text.splitAt_cons_of_ne hc ih

/-- A path with something behind its last component leads to another file. -/
theorem locate?_append_ne {store : Store} {path ending : String} {file : List String}
    (hfile : store.locate? path = some file) (hslash : '/' ∉ ending.toList)
    (hending : ending ≠ "") :
    store.locate? (path ++ ending) ≠ store.locate? path := by
  intro hsame
  obtain ⟨parent, name, rfl, hname, -⟩ := exists_parent_of_locate? hfile
  obtain ⟨parent', name', hfile', hname', -⟩ := exists_parent_of_locate? (hsame.trans hfile)
  obtain ⟨rfl, hsame'⟩ := List.append_inj' hfile' rfl
  obtain rfl := (List.cons.inj hsame').1
  rw [components, List.getLast?_map] at hname
  obtain ⟨last, hlast, rfl⟩ := Option.map_eq_some_iff.mp hname
  rw [components, String.toList_append, splitAt_append hslash, List.map_append, List.map_singleton,
    List.getLast?_concat, List.getLastD_eq_getLast?, hlast] at hname'
  have hlonger := String.ofList_injective (Option.some.inj hname')
  exact hending (String.toList_eq_nil_iff.mp (List.append_right_eq_self.mp hlonger))

end WebFonts.Command.Store
