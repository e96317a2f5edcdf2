import ShellIndex.Proofs.Catalog.Dependencies
import ShellIndex.Proofs.Command.Scripts

set_option autoImplicit false

/-! # Which scripts are taken for a utility script

A script does not depend on the functions that only itself defines. Whether it is a given utility
script is decided by comparing labels, and labels are texts. The main statement says what the
comparison comes to. It agrees with the identity of files except in two cases: a path to the utility
script that steps back up below the directory is labelled differently, and a path to another file
that happens to be the label of the utility script is labelled alike.
-/

namespace ShellIndex

/-- Whether two paths lead to the same place. -/
def FileTree.SameFile (t : FileTree) (path path' : String) : Prop :=
  ∃ place, t.resolve path = .ok place ∧ t.resolve path' = .ok place

namespace Command

open FileTree

section
variable {t : FileTree} {dir script path : String} {patterns : List String}

theorem sameFile_iff {place place' : Location} (hplace : t.resolve path = .ok place)
    (hplace' : t.resolve script = .ok place') : t.SameFile path script ↔ place = place' := by
  constructor
  · rintro ⟨other, hother, hother'⟩
    rw [← Except.ok.inj (hother.symm.trans hplace), Except.ok.inj (hother'.symm.trans hplace')]
  · rintro rfl
    exact ⟨place, hplace, hplace'⟩

/-- What leads to a script directly in a directory leads below the directory. -/
theorem leadsBelow_of_sameFile (ht : t.HasEntryNames) (hscript : script ∈ scriptsIn t dir)
    (hsame : t.SameFile path script) : t.LeadsBelow path dir := by
  obtain ⟨above, habove, hentry, -, -⟩ := exists_entry ht hscript
  obtain ⟨place, hplace, hplace'⟩ := hsame
  obtain rfl := Except.ok.inj (hplace'.symm.trans hentry)
  exact ⟨_, above, _, hplace, habove, rfl⟩

/-- The paths of files that are labelled like a script directly in a directory. -/
theorem label_eq_label_iff (ht : t.HasEntryNames) (hscript : script ∈ scriptsIn t dir)
    (hfile : t.isFile path = true) :
    t.label path dir = t.label script dir ↔
      (t.SameFile path script ∧ ¬ Detours path dir) ∨
        (path = t.label script dir ∧ ¬ t.LeadsBelow path dir) := by
  obtain ⟨above, habove, hentry, hname, -⟩ := exists_entry ht hscript
  obtain ⟨place, _, hplace, -⟩ := isFile_iff.mp hfile
  rw [label_eq_name_iff hname hplace habove, sameFile_iff hplace hentry,
    leadsBelow_iff hplace habove]

/-- A script depends on a utility script exactly if it calls a function of it and is labelled
differently. -/
theorem label_mem_files_iff (catalog : Catalog) (text : String) :
    t.label script dir ∈ (catalog.dependenciesOf (t.label path dir) text).files ↔
      t.label path dir ≠ t.label script dir ∧
        ∃ name ∈ callsOf text, catalog.Defines name (t.label script dir) := by
  rw [catalog.mem_files_dependenciesOf, ne_comm]

/-- **A script is taken for a utility script** if its path leads there without stepping back up
below the directory, or if its path is the label of the utility script but leads elsewhere. So a
utility script depends on itself exactly if it is reached by stepping back up and calls a function
of its own, and another script loses its dependency on a utility script exactly if its path is the
label of the utility script and leads outside the directory. -/
theorem taken_for_utility_iff (ht : t.HasEntryNames) (hscript : script ∈ scriptsIn t dir)
    (hpath : IsInput t patterns path) :
    (t.label path dir = t.label script dir ↔
      (t.SameFile path script ∧ ¬ Detours path dir) ∨
        (path = t.label script dir ∧ ¬ t.LeadsBelow path dir)) ∧
    ∀ (catalog : Catalog) (text : String),
      (t.SameFile path script →
        (t.label script dir ∈ (catalog.dependenciesOf (t.label path dir) text).files ↔
          Detours path dir ∧ ∃ name ∈ callsOf text, catalog.Defines name (t.label script dir))) ∧
      (¬ t.SameFile path script →
        (t.label script dir ∈ (catalog.dependenciesOf (t.label path dir) text).files ↔
          ¬ (path = t.label script dir ∧ ¬ t.LeadsBelow path dir) ∧
            ∃ name ∈ callsOf text, catalog.Defines name (t.label script dir))) := by
  have hlabel := label_eq_label_iff ht hscript hpath.isFile
  refine ⟨hlabel, fun catalog text => ⟨fun hsame => ?_, fun hother => ?_⟩⟩
  · have hbelow := leadsBelow_of_sameFile ht hscript hsame
    rw [label_mem_files_iff, ne_eq, hlabel]
    simp [hsame, hbelow]
  · rw [label_mem_files_iff, ne_eq, hlabel]
    simp [hother]

end

/-! ## Two scripts of one name -/

/-- A utility script and a script beside the directory that have the same name. -/
def namesakes : FileTree :=
  ((FileTree.ofWork ["home"]).addFile ["home", "utils", "warn.sh"] .empty).addFile
    ["home", "warn.sh"] .empty

theorem namesakes_hasEntryNames : namesakes.HasEntryNames := by
  refine HasEntryNames.addFile (HasEntryNames.addFile (HasEntryNames.ofWork ?_) ?_ _) ?_ _ <;>
    decide

theorem namesakes_entries :
    namesakes.isDirectory "utils" = true ∧ "utils/warn.sh" ∈ scriptsIn namesakes "utils" ∧
      namesakes.isFile "utils/../utils/warn.sh" = true ∧ namesakes.isFile "warn.sh" = true := by
  decide +kernel

theorem namesakes_labels :
    namesakes.label "utils/warn.sh" "utils" = "warn.sh" ∧
      namesakes.label "utils/../utils/warn.sh" "utils" = "../utils/warn.sh" ∧
      namesakes.label "warn.sh" "utils" = "warn.sh" := by
  decide +kernel

theorem warn_mem_scriptsIn : "utils/warn.sh" ∈ scriptsIn namesakes "utils" := namesakes_entries.2.1

theorem isInput_detour : IsInput namesakes ["utils/../utils/warn.sh"] "utils/../utils/warn.sh" :=
  isInput_of_isFile namesakes_entries.2.2.1

theorem isInput_warn : IsInput namesakes ["warn.sh"] "warn.sh" :=
  isInput_of_isFile namesakes_entries.2.2.2

theorem sameFile_detour : namesakes.SameFile "utils/../utils/warn.sh" "utils/warn.sh" := by
  obtain ⟨place, _, hplace, -⟩ := isFile_iff.mp isInput_detour.isFile
  obtain ⟨_, -, hscript, -⟩ := exists_entry namesakes_hasEntryNames warn_mem_scriptsIn
  rw [sameFile_iff hplace hscript, eq_of_resolve hplace, eq_of_resolve hscript]
  decide

theorem not_sameFile_warn : ¬ namesakes.SameFile "warn.sh" "utils/warn.sh" := by
  obtain ⟨place, _, hplace, -⟩ := isFile_iff.mp isInput_warn.isFile
  obtain ⟨_, -, hscript, -⟩ := exists_entry namesakes_hasEntryNames warn_mem_scriptsIn
  rw [sameFile_iff hplace hscript, eq_of_resolve hplace, eq_of_resolve hscript]
  decide

theorem detours_warn : Detours "utils/../utils/warn.sh" "utils" :=
  ⟨[.parent, .name "utils", .name "warn.sh"], by decide, by decide⟩

theorem not_leadsBelow_warn : ¬ namesakes.LeadsBelow "warn.sh" "utils" := by
  obtain ⟨place, _, hplace, -⟩ := isFile_iff.mp isInput_warn.isFile
  obtain ⟨above, habove, -⟩ := isDirectory_iff.mp namesakes_entries.1
  rw [leadsBelow_iff hplace habove, eq_of_resolve hplace, eq_of_resolve habove]
  decide

/-- The utility script depends on itself when it is reached by stepping back up, and the script
beside the directory loses its dependency on the utility script. -/
theorem taken_for_utility_namesakes :
    (namesakes.HasEntryNames ∧ "utils/warn.sh" ∈ scriptsIn namesakes "utils" ∧
      IsInput namesakes ["utils/../utils/warn.sh"] "utils/../utils/warn.sh" ∧
      IsInput namesakes ["warn.sh"] "warn.sh") ∧
    "warn.sh" ∈ (Catalog.warnOnly.dependenciesOf
      (namesakes.label "utils/../utils/warn.sh" "utils") "warn x\n").files ∧
    "warn.sh" ∉ (Catalog.warnOnly.dependenciesOf (namesakes.label "warn.sh" "utils")
      "warn x\n").files := by
  refine ⟨⟨namesakes_hasEntryNames, warn_mem_scriptsIn, isInput_detour, isInput_warn⟩, ?_, ?_⟩
  · have htaken := (taken_for_utility_iff namesakes_hasEntryNames warn_mem_scriptsIn
      isInput_detour).2 Catalog.warnOnly "warn x\n"
    rw [namesakes_labels.1] at htaken
    refine (htaken.1 sameFile_detour).mpr ⟨detours_warn, "warn", ?_, ?_⟩
    · decide
    · exact Catalog.defines_warnOnly.mpr ⟨rfl, rfl⟩
  · have htaken := (taken_for_utility_iff namesakes_hasEntryNames warn_mem_scriptsIn
      isInput_warn).2 Catalog.warnOnly "warn x\n"
    rw [namesakes_labels.1] at htaken
    intro hlisted
    exact ((htaken.2 not_sameFile_warn).mp hlisted).1 ⟨rfl, not_leadsBelow_warn⟩

/-- Labels do not follow the identity of files, in either direction: two paths to one file may be
labelled differently, and paths to two files alike. -/
theorem labels_miss_identity :
    (¬ ∀ (t : FileTree) (dir script path : String) (patterns : List String), t.HasEntryNames →
      script ∈ scriptsIn t dir → IsInput t patterns path → t.SameFile path script →
        t.label path dir = t.label script dir) ∧
    ¬ ∀ (t : FileTree) (dir script path : String) (patterns : List String), t.HasEntryNames →
      script ∈ scriptsIn t dir → IsInput t patterns path →
        t.label path dir = t.label script dir → t.SameFile path script := by
  constructor
  · intro hsame
    have hlabel := hsame namesakes "utils" "utils/warn.sh" "utils/../utils/warn.sh" _
      namesakes_hasEntryNames warn_mem_scriptsIn isInput_detour sameFile_detour
    rw [namesakes_labels.1, namesakes_labels.2.1] at hlabel
    revert hlabel
    decide
  · intro hlabel
    have hsame := hlabel namesakes "utils" "utils/warn.sh" "warn.sh" _ namesakes_hasEntryNames
      warn_mem_scriptsIn isInput_warn
    exact not_sameFile_warn (hsame (namesakes_labels.2.2.trans namesakes_labels.1.symm))

end Command

end ShellIndex
