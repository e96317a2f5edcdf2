import ShellIndex.Proofs.Catalog.Pairs
import ShellIndex.Report.Markdown

set_option autoImplicit false

/-! # Closure of the dependencies

A catalog of definitions holds exactly the pairs of a name and a file that the definitions give.
Hence what a script is found to depend on is closed: every function comes with the files that
define it, every file with a function, and the script itself is never among the files, even if it
defines a function that other files define too.
-/

namespace ShellIndex

theorem mapDependencies_eq_ok {file text : String} {utilities : List Definition} {d : Dependencies}
    (h : mapDependencies file text utilities = .ok d) :
    ∃ catalog, Catalog.ofDefinitions utilities = .ok catalog ∧
      d = catalog.dependenciesOf file text := by
  unfold mapDependencies at h
  cases hc : Catalog.ofDefinitions utilities with
  | error e =>
      rw [hc] at h
      cases h
  | ok catalog =>
      rw [hc] at h
      cases h
      exact ⟨catalog, rfl, rfl⟩

/-! ## Closure -/

section
variable {file text : String} {utilities : List Definition} {d : Dependencies}

theorem mem_functions_mapDependencies (h : mapDependencies file text utilities = .ok d)
    (n : String) : n ∈ d.functions ↔
      n ∈ callsOf text ∧ ∃ r ∈ utilities, r.name = n ∧ r.file ≠ file := by
  obtain ⟨catalog, hcatalog, rfl⟩ := mapDependencies_eq_ok h
  rw [catalog.mem_functions_dependenciesOf]
  simp only [Catalog.defines_ofDefinitions hcatalog]
  constructor
  · rintro ⟨hn, _, hne, r, hr, rfl, rfl⟩
    exact ⟨hn, r, hr, rfl, hne⟩
  · rintro ⟨hn, r, hr, rfl, hne⟩
    exact ⟨hn, r.file, hne, r, hr, rfl, rfl⟩

theorem mem_files_mapDependencies (h : mapDependencies file text utilities = .ok d)
    (f : String) : f ∈ d.files ↔
      ∃ r ∈ utilities, r.file = f ∧ r.name ∈ d.functions ∧ r.file ≠ file := by
  simp only [mem_functions_mapDependencies h]
  obtain ⟨catalog, hcatalog, rfl⟩ := mapDependencies_eq_ok h
  rw [catalog.mem_files_dependenciesOf]
  simp only [Catalog.defines_ofDefinitions hcatalog]
  constructor
  · rintro ⟨hne, _, hn, r, hr, rfl, rfl⟩
    exact ⟨r, hr, rfl, ⟨hn, r, hr, rfl, hne⟩, hne⟩
  · rintro ⟨r, hr, rfl, ⟨hn, -⟩, hne⟩
    exact ⟨hne, r.name, hn, r, hr, rfl, rfl⟩

/-- Every function comes with a file that defines it. -/
theorem exists_file_of_mem_functions (h : mapDependencies file text utilities = .ok d) {n : String}
    (hn : n ∈ d.functions) : ∃ r ∈ utilities, r.name = n ∧ r.file ∈ d.files := by
  obtain ⟨r, hr, rfl, hne⟩ := ((mem_functions_mapDependencies h n).mp hn).2
  exact ⟨r, hr, rfl, (mem_files_mapDependencies h r.file).mpr ⟨r, hr, rfl, hn, hne⟩⟩

/-- Every file comes with a function that it defines. -/
theorem exists_function_of_mem_files (h : mapDependencies file text utilities = .ok d) {f : String}
    (hf : f ∈ d.files) : ∃ r ∈ utilities, r.file = f ∧ r.name ∈ d.functions := by
  obtain ⟨r, hr, rfl, hn, -⟩ := (mem_files_mapDependencies h f).mp hf
  exact ⟨r, hr, rfl, hn⟩

theorem functions_eq_empty_iff (h : mapDependencies file text utilities = .ok d) :
    d.functions = ∅ ↔ d.files = ∅ := by
  rw [Std.ExtTreeSet.eq_empty_iff_forall_not_mem, Std.ExtTreeSet.eq_empty_iff_forall_not_mem]
  constructor
  · intro hnone f hf
    obtain ⟨r, -, -, hn⟩ := exists_function_of_mem_files h hf
    exact hnone r.name hn
  · intro hnone n hn
    obtain ⟨r, -, -, hf⟩ := exists_file_of_mem_functions h hn
    exact hnone r.file hf

/-- A report shows the files of dependencies that have functions. -/
theorem mem_dependenciesSection (h : d.functions ≠ ∅) :
    "- Files: " ++ Report.codeList d.files ∈ Report.dependenciesSection d := by
  have hfull : d.isEmpty = false :=
    Bool.eq_false_iff.mpr fun he => h (Std.ExtTreeSet.isEmpty_iff.mp he)
  rw [Report.dependenciesSection, hfull]
  simp

/-- **The dependencies of a script are closed.** The functions come from records of other files,
and the files are exactly those of the records of other files whose function is listed. Neither
set is empty without the other, so that a report which looks at the functions alone shows every
file. -/
theorem mapDependencies_closed (h : mapDependencies file text utilities = .ok d) :
    d.file = file ∧
      (∀ n ∈ d.functions, ∃ r ∈ utilities, r.name = n ∧ r.file ≠ file) ∧
      (∀ f, f ∈ d.files ↔ ∃ r ∈ utilities, r.file = f ∧ r.name ∈ d.functions ∧ r.file ≠ file) ∧
      file ∉ d.files ∧
      (∀ n ∈ d.functions, ∃ r ∈ utilities, r.name = n ∧ r.file ∈ d.files) ∧
      (∀ f ∈ d.files, ∃ r ∈ utilities, r.file = f ∧ r.name ∈ d.functions) ∧
      (d.functions = ∅ ↔ d.files = ∅) ∧
      (d.files ≠ ∅ → "- Files: " ++ Report.codeList d.files ∈ Report.dependenciesSection d) := by
  have hempty := functions_eq_empty_iff h
  refine ⟨?_, fun n hn => ((mem_functions_mapDependencies h n).mp hn).2,
    mem_files_mapDependencies h, ?_, fun n => exists_file_of_mem_functions h,
    fun f => exists_function_of_mem_files h, hempty, ?_⟩
  · obtain ⟨catalog, -, rfl⟩ := mapDependencies_eq_ok h
    exact catalog.file_dependenciesOf file text
  · intro hself
    obtain ⟨r, -, heq, -, hne⟩ := (mem_files_mapDependencies h file).mp hself
    exact hne heq
  · intro hfiles
    exact mem_dependenciesSection fun hnone => hfiles (hempty.mp hnone)

end

/-- The script defines `log` itself, but another file does so too. -/
theorem mapDependencies_sample :
    let utility (name file : String) : Definition := ⟨name, none, none, file, 1, 1, 1⟩
    ∃ d, mapDependencies "main.sh" "trim x; log\n"
        [utility "log" "main.sh", utility "log" "log.sh", utility "pad" "log.sh"] = .ok d ∧
      "log" ∈ d.functions ∧ d.functions ≠ ∅ ∧ "log.sh" ∈ d.files ∧ "main.sh" ∉ d.files := by
  intro utility
  have hok : ∃ d, mapDependencies "main.sh" "trim x; log\n"
      [utility "log" "main.sh", utility "log" "log.sh", utility "pad" "log.sh"] = .ok d := by
    simp [mapDependencies, Catalog.ofDefinitions, Catalog.insertAll, Catalog.insert, utility,
      Except.map]
  obtain ⟨d, hd⟩ := hok
  obtain ⟨-, -, hfiles, hself, -, -, -, -⟩ := mapDependencies_closed hd
  have hlog : "log" ∈ d.functions :=
    (mem_functions_mapDependencies hd "log").mpr
      ⟨by decide +kernel, utility "log" "log.sh", by simp, rfl, by decide⟩
  refine ⟨_, hd, hlog, Std.ExtTreeSet.ne_empty_of_mem hlog, ?_, hself⟩
  · exact (hfiles _).mpr ⟨utility "log" "log.sh", by simp, rfl, hlog, by decide⟩

end ShellIndex
