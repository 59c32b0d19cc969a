import Mathlib.Data.List.Nodup
import Mathlib.Data.List.TakeWhile
import WebFonts.Config

/-! # The table of a configuration

A configuration has a table exactly if each of its families has a name of its own and a face. The
table then serves these families and no others; else the first family that fails is reported. -/

namespace WebFonts

open Text

theorem Text.trim_eq_nil_iff (text : List Char) :
    trim text = [] ↔ ∀ c ∈ text, isBlank c = true := by
  constructor
  · intro h c hc
    by_contra hblank
    have hmem := (mem_trim (by simpa using hblank)).mpr hc
    simp [h] at hmem
  · intro h
    have hstart : trimStart text = [] := by
      rw [trimStart, List.dropWhile_eq_nil_iff]
      exact h
    rw [trim, hstart]
    rfl

/-! ## The checks of a family -/

/-- The name has a character that is not blank. -/
def Family.IsNamed (family : Family) : Prop := ∃ c ∈ family.name.toList, isBlank c = false

/-- There is at least one face. -/
def Family.HasFaces (family : Family) : Prop := family.faces.toList ≠ []

/-- What is wrong with a family that stands behind some others. A blank name counts before a lack
of faces, and that before the name of an earlier family. -/
inductive Family.Fails (before : List Family) (family : Family) : ConfigError → Prop where
  | blank (hname : ¬family.IsNamed) : Fails before family .blankName
  | faceless (hname : family.IsNamed) (hfaces : ¬family.HasFaces) :
      Fails before family (.noFaces family.trimmedName)
  | repeated (hname : family.IsNamed) (hfaces : family.HasFaces)
      (hrepeated : family.trimmedName ∈ before.map trimmedName) :
      Fails before family (.repeatedName family.trimmedName)

/-- All families have names and faces, and no two of them the same name. -/
structure Family.AllSound (families : List Family) : Prop where
  named : ∀ family ∈ families, family.IsNamed
  faced : ∀ family ∈ families, family.HasFaces
  distinct : (families.map trimmedName).Nodup

namespace Family

theorem isEmpty_trimmedName_iff (family : Family) :
    family.trimmedName.isEmpty = true ↔ ¬family.IsNamed := by
  rw [trimmedName, String.isEmpty_iff, String.ofList_eq_empty_iff, trim_eq_nil_iff]
  simp [IsNamed]

theorem isEmpty_faces_iff (family : Family) :
    family.faces.toList.isEmpty = true ↔ ¬family.HasFaces := by
  rw [List.isEmpty_iff, HasFaces, not_not]

theorem AllSound.of_append {families more : List Family} (h : AllSound (families ++ more)) :
    AllSound families := by
  refine ⟨fun f hf => h.named f (by simp [hf]), fun f hf => h.faced f (by simp [hf]), ?_⟩
  have hdistinct := h.distinct
  rw [List.map_append] at hdistinct
  exact hdistinct.of_append_left

theorem allSound_concat {families : List Family} {family : Family} :
    AllSound (families ++ [family]) ↔
      AllSound families ∧ family.IsNamed ∧ family.HasFaces ∧
        family.trimmedName ∉ families.map trimmedName := by
  constructor
  · intro h
    have hdistinct := h.distinct
    rw [List.map_append, List.map_singleton, ← List.concat_eq_append, List.nodup_concat]
      at hdistinct
    exact ⟨h.of_append, h.named family (by simp), h.faced family (by simp), hdistinct.1⟩
  · intro ⟨h, hname, hfaces, hnew⟩
    refine ⟨?_, ?_, ?_⟩
    · exact List.forall_mem_append.mpr ⟨h.named, by simpa using hname⟩
    · exact List.forall_mem_append.mpr ⟨h.faced, by simpa using hfaces⟩
    · rw [List.map_append, List.map_singleton, ← List.concat_eq_append, List.nodup_concat]
      exact ⟨hnew, h.distinct⟩

theorem allSound_nil : AllSound [] := ⟨by simp, by simp, by simp⟩

theorem Fails.unique {before : List Family} {family : Family} {error error' : ConfigError}
    (h : family.Fails before error) (h' : family.Fails before error') : error = error' := by
  cases h <;> cases h' <;> simp_all

/-- A family that fails behind others is not sound together with them. -/
theorem Fails.not_allSound {before : List Family} {family : Family} {error : ConfigError}
    (h : family.Fails before error) (rest : List Family) :
    ¬AllSound (before ++ family :: rest) := by
  intro hsound
  rw [List.append_cons] at hsound
  obtain ⟨-, hname, hfaces, hnew⟩ := allSound_concat.mp hsound.of_append
  cases h with
  | blank hblank => exact hblank hname
  | faceless _ hnone => exact hnone hfaces
  | repeated _ _ hrepeated => exact hnew hrepeated

end Family

/-! ## Tables -/

namespace Catalogue

theorem find?_remove_of_ne {family other : String} (h : other ≠ family) (catalogue : Catalogue) :
    (catalogue.remove family).find? other = catalogue.find? other := by
  obtain ⟨families⟩ := catalogue
  simp only [remove, find?]
  induction families with
  | nil => rfl
  | cons entry families ih =>
    obtain ⟨name, faces⟩ := entry
    by_cases hname : name = family
    · subst hname
      simp [List.lookup_cons, ih, beq_eq_false_iff_ne.mpr h]
    · simp [List.lookup_cons, ih, hname]

theorem find?_add (catalogue : Catalogue) (family : String) (faces : Faces) (other : String) :
    (catalogue.add family faces).find? other =
      if other = family then some faces else catalogue.find? other := by
  by_cases h : other = family
  · simp [add, find?, h]
  · rw [if_neg h, ← find?_remove_of_ne h catalogue]
    simp [add, find?, List.lookup_cons, beq_eq_false_iff_ne.mpr h]

theorem size_add_of_not_contains {catalogue : Catalogue} {family : String}
    (h : catalogue.contains family = false) (faces : Faces) :
    (catalogue.add family faces).size = catalogue.size + 1 := by
  have hkept : catalogue.families.filter (·.1 != family) = catalogue.families := by
    rw [List.filter_eq_self]
    intro entry hentry
    simp only [contains, find?, Option.isSome_eq_false_iff, Option.isNone_iff_eq_none,
      List.lookup_eq_none_iff] at h
    rw [bne_comm]
    exact h entry hentry
  simp [add, remove, size, hkept]

/-- A table holds some families under their trimmed names, and nothing else. -/
structure Serves (catalogue : Catalogue) (families : List Family) : Prop where
  size_eq : catalogue.size = families.length
  find?_eq_some_iff : ∀ name faces, catalogue.find? name = some faces ↔
    ∃ family ∈ families, family.trimmedName = name ∧ family.faces = faces

theorem Serves.contains_iff {catalogue : Catalogue} {families : List Family}
    (h : catalogue.Serves families) (name : String) :
    catalogue.contains name = true ↔ name ∈ families.map Family.trimmedName := by
  simp [contains, Option.isSome_iff_exists, h.find?_eq_some_iff]

theorem serves_empty : empty.Serves [] := ⟨rfl, by simp [empty, find?]⟩

theorem Serves.add {catalogue : Catalogue} {before : List Family} (h : catalogue.Serves before)
    {family : Family} (hnew : family.trimmedName ∉ before.map Family.trimmedName) :
    (catalogue.add family.trimmedName family.faces).Serves (before ++ [family]) := by
  have hcontains : catalogue.contains family.trimmedName = false := by
    rw [← Bool.not_eq_true, h.contains_iff]
    exact hnew
  refine ⟨?_, fun name faces => ?_⟩
  · rw [size_add_of_not_contains hcontains, h.size_eq, List.length_append]
    rfl
  · rw [find?_add]
    by_cases hname : name = family.trimmedName
    · subst hname
      simp only [↓reduceIte, Option.some.injEq, List.mem_append, List.mem_singleton]
      constructor
      · intro hfaces
        exact ⟨family, .inr rfl, rfl, hfaces⟩
      · rintro ⟨other, hother | rfl, hsame, hfaces⟩
        · exact absurd (List.mem_map.mpr ⟨other, hother, hsame⟩) hnew
        · exact hfaces
    · simp only [hname, ↓reduceIte, h.find?_eq_some_iff, List.mem_append, List.mem_singleton]
      constructor
      · rintro ⟨other, hother, hfound⟩
        exact ⟨other, .inl hother, hfound⟩
      · rintro ⟨other, hother | rfl, hsame, hfaces⟩
        · exact ⟨other, hother, hsame, hfaces⟩
        · exact absurd hsame.symm hname

/-! ## Adding families -/

/-- The next family fails a check and is reported, or it is added. -/
theorem addFamilies_cons_cases {catalogue : Catalogue} {before : List Family}
    (h : catalogue.Serves before) (hsound : Family.AllSound before) (family : Family)
    (rest : List Family) :
    (∃ error, family.Fails before error ∧
        catalogue.addFamilies (family :: rest) = .error error) ∨
      Family.AllSound (before ++ [family]) ∧
        catalogue.addFamilies (family :: rest) =
          (catalogue.add family.trimmedName family.faces).addFamilies rest := by
  rw [addFamilies]
  by_cases hname : family.IsNamed
  · rw [if_neg (by rwa [Family.isEmpty_trimmedName_iff, not_not])]
    by_cases hfaces : family.HasFaces
    · rw [if_neg (by rwa [Family.isEmpty_faces_iff, not_not])]
      by_cases hrepeated : family.trimmedName ∈ before.map Family.trimmedName
      · rw [if_pos ((h.contains_iff _).mpr hrepeated)]
        exact .inl ⟨_, .repeated hname hfaces hrepeated, rfl⟩
      · rw [if_neg (by rwa [h.contains_iff])]
        exact .inr ⟨Family.allSound_concat.mpr ⟨hsound, hname, hfaces, hrepeated⟩, rfl⟩
    · rw [if_pos ((Family.isEmpty_faces_iff _).mpr hfaces)]
      exact .inl ⟨_, .faceless hname hfaces, rfl⟩
  · rw [if_pos ((Family.isEmpty_trimmedName_iff _).mpr hname)]
    exact .inl ⟨_, .blank hname, rfl⟩

/-- All families are added, or the first one that fails is reported. -/
theorem addFamilies_cases {catalogue : Catalogue} {before : List Family}
    (h : catalogue.Serves before) (hsound : Family.AllSound before) (families : List Family) :
    (∃ result, catalogue.addFamilies families = .ok result ∧
        Family.AllSound (before ++ families) ∧ result.Serves (before ++ families)) ∨
      ∃ front family rest error, before ++ families = front ++ family :: rest ∧
        Family.AllSound front ∧ family.Fails front error ∧
        catalogue.addFamilies families = .error error := by
  induction families generalizing catalogue before with
  | nil => exact .inl ⟨catalogue, rfl, by simpa using hsound, by simpa using h⟩
  | cons family rest ih =>
    rcases addFamilies_cons_cases h hsound family rest with ⟨error, hfails, hadd⟩ | ⟨hnext, hadd⟩
    · exact .inr ⟨before, family, rest, error, rfl, hsound, hfails, hadd⟩
    · have hserves := h.add (Family.allSound_concat.mp hnext).2.2.2
      rw [hadd, List.append_cons]
      exact ih hserves hnext

theorem addFamilies_append {catalogue result : Catalogue} {families : List Family}
    (h : catalogue.addFamilies families = .ok result) (more : List Family) :
    catalogue.addFamilies (families ++ more) = result.addFamilies more := by
  induction families generalizing catalogue with
  | nil => cases h; rfl
  | cons family rest ih =>
    rw [List.cons_append]
    rw [addFamilies] at h ⊢
    split at h
    · cases h
    · split at h
      · cases h
      · split at h
        · cases h
        · simp_all

/-- Each name is answered with the faces of the one family that has it. -/
theorem Serves.answer_cases {catalogue : Catalogue} {families : List Family}
    (h : catalogue.Serves families) (hsound : Family.AllSound families) (name : String) :
    (∃ front family rest, families = front ++ family :: rest ∧ family.trimmedName = name ∧
        (∀ other ∈ front ++ rest, other.trimmedName ≠ name) ∧
        catalogue.answer name = .faces family.faces) ∨
      (∀ family ∈ families, family.trimmedName ≠ name) ∧ catalogue.answer name = .nothing := by
  cases hfind : catalogue.find? name with
  | none =>
    refine .inr ⟨fun family hfamily hname => ?_, by rw [answer, hfind]⟩
    have hsome := (h.find?_eq_some_iff name family.faces).mpr ⟨family, hfamily, hname, rfl⟩
    rw [hfind] at hsome
    contradiction
  | some faces =>
    obtain ⟨family, hfamily, hname, rfl⟩ := (h.find?_eq_some_iff name faces).mp hfind
    obtain ⟨front, rest, rfl⟩ := List.append_of_mem hfamily
    refine .inl ⟨front, family, rest, rfl, hname, fun other hother hsame => ?_, ?_⟩
    · have hdistinct := hsound.distinct
      rw [List.map_append, List.map_cons, List.nodup_middle, List.nodup_cons,
        ← List.map_append] at hdistinct
      exact hdistinct.1 (List.mem_map.mpr ⟨other, hother, hsame.trans hname.symm⟩)
    · rw [answer, hfind]

end Catalogue

/-! ## Configurations -/

theorem Config.catalogue_cases (config : Config) :
    (∃ catalogue, config.catalogue = .ok catalogue ∧ Family.AllSound config.families ∧
        catalogue.Serves config.families) ∨
      ∃ front family rest error, config.families = front ++ family :: rest ∧
        Family.AllSound front ∧ family.Fails front error ∧ config.catalogue = .error error :=
  Catalogue.addFamilies_cases Catalogue.serves_empty Family.allSound_nil config.families

/-- A family that fails behind sound ones is the one that is reported. -/
theorem Config.catalogue_eq_error {config : Config} {front rest : List Family} {family : Family}
    {error : ConfigError} (hfamilies : config.families = front ++ family :: rest)
    (hsound : Family.AllSound front) (hfails : family.Fails front error) :
    config.catalogue = .error error := by
  rcases Catalogue.addFamilies_cases Catalogue.serves_empty Family.allSound_nil front with
    ⟨table, hfront, -, hserves⟩ | ⟨earlier, failing, others, fault, hsplit, -, hfault, -⟩
  · rw [catalogue, hfamilies, Catalogue.addFamilies_append hfront]
    rcases Catalogue.addFamilies_cons_cases hserves hsound family rest with
      ⟨fault, hfault, hadd⟩ | ⟨hnext, -⟩
    · rw [hadd, hfault.unique hfails]
    · exact absurd hnext (hfails.not_allSound [])
  · rw [List.nil_append] at hsplit
    exact absurd (hsplit ▸ hsound) (hfault.not_allSound others)

/-- There is a table exactly if all families are sound. It has as many families as are configured
and answers each name with the faces of the one family of that name, or with nothing. Else the
error is that of the first family that is not sound together with those before it. -/
theorem Config.catalogue_serves_sound_families (config : Config) :
    ((∃ catalogue, config.catalogue = .ok catalogue) ↔ Family.AllSound config.families) ∧
    (∀ catalogue, config.catalogue = .ok catalogue →
      catalogue.size = config.families.length ∧
      ∀ name,
        (∃ front family rest, config.families = front ++ family :: rest ∧
            family.trimmedName = name ∧ (∀ other ∈ front ++ rest, other.trimmedName ≠ name) ∧
            catalogue.answer name = .faces family.faces) ∨
          (∀ family ∈ config.families, family.trimmedName ≠ name) ∧
            catalogue.answer name = .nothing) ∧
    ∀ error, config.catalogue = .error error ↔
      ∃ front family rest, config.families = front ++ family :: rest ∧
        Family.AllSound front ∧ family.Fails front error := by
  rcases config.catalogue_cases with
    ⟨table, htable, hsound, hserves⟩ | ⟨front, family, rest, error, hsplit, hsound, hfails, herror⟩
  · refine ⟨iff_of_true ⟨table, htable⟩ hsound, ?_, fun error => iff_of_false ?_ ?_⟩
    · intro catalogue hcatalogue
      obtain rfl := Except.ok.inj (htable.symm.trans hcatalogue)
      exact ⟨hserves.size_eq, hserves.answer_cases hsound⟩
    · simp [htable]
    · rintro ⟨front, family, rest, hsplit, -, hfails⟩
      exact hfails.not_allSound rest (hsplit ▸ hsound)
  · refine ⟨iff_of_false (by simp [herror]) ?_, by simp [herror], fun error' => ?_⟩
    · intro hall
      exact hfails.not_allSound rest (hsplit ▸ hall)
    · constructor
      · intro herror'
        obtain rfl := Except.error.inj (herror.symm.trans herror')
        exact ⟨front, family, rest, hsplit, hsound, hfails⟩
      · rintro ⟨front', family', rest', hsplit', hsound', hfails'⟩
        exact catalogue_eq_error hsplit' hsound' hfails'

/-- Names are compared without the blanks around them, and only the first family that fails is
reported. -/
example : Config.catalogue ⟨[⟨"A", .list [.ofSources (.list [])]⟩,
    ⟨"\u00a0A ", .lone (.ofSources (.list []))⟩, ⟨"A", .list []⟩], .discovery⟩ =
      .error (.repeatedName "A") := by
  decide +kernel

end WebFonts
