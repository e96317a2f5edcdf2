import ShellIndex.Catalog.Dependencies

set_option autoImplicit false

/-! # What a script is found to depend on

The dependencies of a script are gathered call by call. This file says which names and which
files are in them, first for one call and then for all the calls of a script.
-/

namespace ShellIndex

namespace Dependencies
variable (d : Dependencies) (name : String) (defining : NameSet)

theorem ext {d d' : Dependencies} (hfile : d.file = d'.file) (hfiles : d.files = d'.files)
    (hfunctions : d.functions = d'.functions) : d = d' := by
  cases d
  cases d'
  rw [mk.injEq]
  exact ⟨hfile, hfiles, hfunctions⟩

theorem file_record : (d.record name defining).file = d.file := by
  rw [record]
  split <;> rfl

theorem mem_functions_record (n : String) : n ∈ (d.record name defining).functions ↔
    n ∈ d.functions ∨ n = name ∧ ∃ f ∈ defining, f ≠ d.file := by
  have hsome : (defining.toList.filter (· ≠ d.file)).isEmpty = true ↔
      ¬ ∃ f ∈ defining, f ≠ d.file := by
    simp [List.isEmpty_iff, List.filter_eq_nil_iff]
  rw [record]
  by_cases h : ∃ f ∈ defining, f ≠ d.file
  · have hfull : ¬ (defining.toList.filter (· ≠ d.file)).isEmpty = true := by
      rw [hsome]
      exact fun hn => hn h
    rw [if_neg hfull]
    simp [h, or_comm, @eq_comm _ n name]
  · rw [if_pos (hsome.mpr h)]
    simp [h]

theorem mem_files_record (f : String) : f ∈ (d.record name defining).files ↔
    f ∈ d.files ∨ f ∈ defining ∧ f ≠ d.file := by
  rw [record]
  split
  · next h =>
      simp only [List.isEmpty_iff, List.filter_eq_nil_iff] at h
      constructor
      · exact Or.inl
      · rintro (hd | ⟨hf, hne⟩)
        · exact hd
        · exact absurd (by simpa using hne) (h f (by simpa using hf))
  · simp [or_comm]

end Dependencies

namespace Catalog
variable (catalog : Catalog)

/-! ## One call -/

theorem file_note (d : Dependencies) (name : String) : (catalog.note d name).file = d.file := by
  rw [note]
  split
  · exact d.file_record name _
  · rfl

theorem mem_functions_note (d : Dependencies) (name n : String) :
    n ∈ (catalog.note d name).functions ↔
      n ∈ d.functions ∨ n = name ∧ ∃ f, f ≠ d.file ∧ catalog.Defines name f := by
  rw [note]
  cases h : catalog.definingFiles? name with
  | none => simp [Defines, h]
  | some defining => simp [d.mem_functions_record, Defines, h, and_comm]

theorem mem_files_note (d : Dependencies) (name f : String) :
    f ∈ (catalog.note d name).files ↔ f ∈ d.files ∨ f ≠ d.file ∧ catalog.Defines name f := by
  rw [note]
  cases h : catalog.definingFiles? name with
  | none => simp [Defines, h]
  | some defining => simp [d.mem_files_record, Defines, h, and_comm]

/-! ## All calls -/

theorem file_foldl_note (names : List String) (d : Dependencies) :
    (names.foldl catalog.note d).file = d.file := by
  induction names generalizing d with
  | nil => rfl
  | cons name names ih => rw [List.foldl_cons, ih, file_note]

theorem mem_functions_foldl_note (names : List String) (d : Dependencies) (n : String) :
    n ∈ (names.foldl catalog.note d).functions ↔
      n ∈ d.functions ∨ n ∈ names ∧ ∃ f, f ≠ d.file ∧ catalog.Defines n f := by
  induction names generalizing d with
  | nil => simp
  | cons name names ih =>
      rw [List.foldl_cons, ih, mem_functions_note, file_note, List.mem_cons]
      constructor
      · rintro ((h | ⟨rfl, h⟩) | ⟨hn, h⟩)
        · exact Or.inl h
        · exact Or.inr ⟨Or.inl rfl, h⟩
        · exact Or.inr ⟨Or.inr hn, h⟩
      · rintro (h | ⟨rfl | hn, h⟩)
        · exact Or.inl (Or.inl h)
        · exact Or.inl (Or.inr ⟨rfl, h⟩)
        · exact Or.inr ⟨hn, h⟩

theorem mem_files_foldl_note (names : List String) (d : Dependencies) (f : String) :
    f ∈ (names.foldl catalog.note d).files ↔
      f ∈ d.files ∨ f ≠ d.file ∧ ∃ n ∈ names, catalog.Defines n f := by
  induction names generalizing d with
  | nil => simp
  | cons name names ih =>
      rw [List.foldl_cons, ih, mem_files_note, file_note]
      constructor
      · rintro ((h | ⟨hne, h⟩) | ⟨hne, n, hn, h⟩)
        · exact Or.inl h
        · exact Or.inr ⟨hne, name, by simp, h⟩
        · exact Or.inr ⟨hne, n, by simp [hn], h⟩
      · rintro (h | ⟨hne, n, hn, h⟩)
        · exact Or.inl (Or.inl h)
        · rcases List.mem_cons.mp hn with rfl | hn
          · exact Or.inl (Or.inr ⟨hne, h⟩)
          · exact Or.inr ⟨hne, n, hn, h⟩

theorem file_dependenciesOf (file text : String) :
    (catalog.dependenciesOf file text).file = file :=
  catalog.file_foldl_note (callsOf text) _

/-- A script depends on the functions that it calls and another file defines. -/
theorem mem_functions_dependenciesOf (file text n : String) :
    n ∈ (catalog.dependenciesOf file text).functions ↔
      n ∈ callsOf text ∧ ∃ f, f ≠ file ∧ catalog.Defines n f := by
  rw [dependenciesOf, mem_functions_foldl_note]
  simp [Dependencies.none]

/-- A script depends on the other files that define a function it calls. -/
theorem mem_files_dependenciesOf (file text f : String) :
    f ∈ (catalog.dependenciesOf file text).files ↔
      f ≠ file ∧ ∃ n ∈ callsOf text, catalog.Defines n f := by
  rw [dependenciesOf, mem_files_foldl_note]
  simp [Dependencies.none]

/-- Either another file defines a function, or a script does not depend on it. -/
theorem defined_elsewhere_or (file n : String) :
    (∃ f, f ≠ file ∧ catalog.Defines n f) ∨ ∀ f, catalog.Defines n f → f = file := by
  by_cases h : ∃ f, f ≠ file ∧ catalog.Defines n f
  · exact Or.inl h
  · exact Or.inr fun f hf => Classical.byContradiction fun hne => h ⟨f, hne, hf⟩

/-- Two scripts depend on the same if they call the same functions of other files. -/
theorem dependenciesOf_eq_iff (file text text' : String) :
    catalog.dependenciesOf file text = catalog.dependenciesOf file text' ↔
      ∀ n f, f ≠ file → catalog.Defines n f → (n ∈ callsOf text ↔ n ∈ callsOf text') := by
  constructor
  · intro hsame n f hne hf
    have hfunctions := catalog.mem_functions_dependenciesOf file text n
    rw [hsame, mem_functions_dependenciesOf] at hfunctions
    have hother : ∃ f, f ≠ file ∧ catalog.Defines n f := ⟨f, hne, hf⟩
    simpa [hother] using hfunctions.symm
  · intro hcalls
    have hfunctions : (catalog.dependenciesOf file text).functions =
        (catalog.dependenciesOf file text').functions := by
      refine Std.ExtTreeSet.ext_mem fun n => ?_
      rw [mem_functions_dependenciesOf, mem_functions_dependenciesOf]
      refine and_congr_left fun hother => ?_
      obtain ⟨f, hne, hf⟩ := hother
      exact hcalls n f hne hf
    have hfiles : (catalog.dependenciesOf file text).files =
        (catalog.dependenciesOf file text').files := by
      refine Std.ExtTreeSet.ext_mem fun f => ?_
      rw [mem_files_dependenciesOf, mem_files_dependenciesOf]
      refine and_congr_right fun hne => exists_congr fun n => ?_
      exact and_congr_left fun hf => hcalls n f hne hf
    refine Dependencies.ext ?_ hfiles hfunctions
    rw [file_dependenciesOf, file_dependenciesOf]

/-- What a script calls besides changes nothing if it calls it anyhow or no other file defines it. -/
theorem dependenciesOf_eq_iff_of_more {file text text' : String} {more : List String}
    (hcalls : ∀ n, n ∈ callsOf text' ↔ n ∈ callsOf text ∨ n ∈ more) :
    catalog.dependenciesOf file text' = catalog.dependenciesOf file text ↔
      ∀ n ∈ more, n ∈ callsOf text ∨ ∀ f, catalog.Defines n f → f = file := by
  rw [dependenciesOf_eq_iff]
  simp only [hcalls]
  constructor
  · intro hsame n hn
    rcases catalog.defined_elsewhere_or file n with ⟨f, hne, hf⟩ | hdefined
    · exact Or.inl ((hsame n f hne hf).mp (Or.inr hn))
    · exact Or.inr hdefined
  · intro hmore n f hne hf
    constructor
    · rintro (hn | hn)
      · exact hn
      · exact (hmore n hn).resolve_right fun hdefined => hne (hdefined f hf)
    · exact Or.inl

/-! ## A catalog of one function -/

/-- The function `warn`, which `warn.sh` defines. -/
def warnOnly : Catalog := empty.add "warn" "warn.sh" (by decide) (by decide)

theorem defines_warnOnly {name file : String} :
    warnOnly.Defines name file ↔ name = "warn" ∧ file = "warn.sh" := by
  rw [warnOnly, defines_add]
  simp [not_defines_empty]

theorem warn_mem_functions_dependenciesOf (text : String) :
    "warn" ∈ (warnOnly.dependenciesOf "main.sh" text).functions ↔ "warn" ∈ callsOf text := by
  rw [mem_functions_dependenciesOf]
  exact and_iff_left ⟨"warn.sh", by decide, defines_warnOnly.mpr ⟨rfl, rfl⟩⟩

end Catalog

end ShellIndex
