import ShellIndex.Proofs.Command.Ensures
import ShellIndex.Proofs.Command.Tasks
import ShellIndex.Proofs.Duplicates.Groups

set_option autoImplicit false

/-! # Duplicates that are listed and duplicates that are reported

The list of the definitions and the report on the duplicates are made from the same definitions. So
the report on some inputs ends with the status for duplicates exactly if the list of the definitions
in these inputs names a duplicate. Only the list can also be made from the standard input.
-/

namespace ShellIndex.Command

/-! ## The two tasks -/

/-- Whether the list of the definitions names a duplicate. -/
def ListsDuplicate (t : FileTree) (input : ByteArray) (inputs : Inputs) (scope : Scope)
    (output : Output) : Prop :=
  ∃ format found warnings, Report.Format.parse output.format = .ok format ∧
    (listedDefinitions t input inputs).run.run [] = (.ok found, warnings) ∧
    ((Task.functions inputs scope output).result t input).run.run [] =
      (.ok ⟨0, format.summary (Summary.ofDefinitions scope found), output.path⟩, warnings) ∧
    (Summary.ofDefinitions scope found).duplicates ≠ ∅

section
variable {t : FileTree} {input : ByteArray} {inputs : Inputs} {scope : Scope} {output : Output}

theorem result_functions {format : Report.Format}
    (hformat : Report.Format.parse output.format = .ok format) {found : List Definition}
    {warnings : List Warning}
    (hfound : (listedDefinitions t input inputs).run.run [] = (.ok found, warnings)) :
    ((Task.functions inputs scope output).result t input).run.run [] =
      (.ok ⟨0, format.summary (Summary.ofDefinitions scope found), output.path⟩, warnings) := by
  have hread : formatOf output = pure format := by rw [formatOf, hformat]
  show (functionsTask t input inputs scope output).run.run [] = _
  rw [functionsTask_eq, hread, pure_bind, Run.run_bind, hfound]
  rfl

/-- The list names a duplicate if the definitions can be read and two of them clash. -/
theorem listsDuplicate_iff {format : Report.Format}
    (hformat : Report.Format.parse output.format = .ok format) :
    ListsDuplicate t input inputs scope output ↔
      ∃ found warnings, (listedDefinitions t input inputs).run.run [] = (.ok found, warnings) ∧
        duplicateNames scope found ≠ ∅ := by
  constructor
  · rintro ⟨_, found, warnings, -, hfound, -, hduplicates⟩
    exact ⟨found, warnings, hfound, hduplicates⟩
  · rintro ⟨found, warnings, hfound, hduplicates⟩
    exact ⟨format, found, warnings, hformat, hfound, result_functions hformat hfound, hduplicates⟩

/-- The report on the duplicates has one line for each group and ends with the status for duplicates
if there are any. -/
theorem run_reportDuplicates (scope : Scope) (found : List Definition) (warnings : List Warning) :
    ∃ result collected, (reportDuplicates scope found).run.run warnings = (.ok result, collected) ∧
      result.path = none ∧
      result.report = Report.ofLines ((duplicateGroups scope found).map groupLine) ∧
      (result.exit = 1 ↔ duplicateNames scope found ≠ ∅) := by
  rw [ne_eq, ← duplicateGroups_eq_nil_iff, reportDuplicates]
  cases duplicateGroups scope found with
  | nil => exact ⟨_, _, rfl, rfl, rfl, by simp⟩
  | cons group groups => exact ⟨_, _, rfl, rfl, rfl, by simp⟩

theorem stdout_duplicates (hinputs : inputs.patterns ≠ []) {found : List Definition}
    {warnings : List Warning}
    (hfound : (listedDefinitions t input inputs).run.run [] = (.ok found, warnings)) :
    ((Task.duplicates inputs scope).run t input).stdout =
      Report.ofLines ((duplicateGroups scope found).map groupLine) := by
  have hresult : (Task.duplicates inputs scope).result t input =
      listedDefinitions t input inputs >>= reportDuplicates scope := duplicatesTask_eq hinputs input
  obtain ⟨result, collected, hrun, hpath, hreport, -⟩ := run_reportDuplicates scope found warnings
  rw [Task.run, hresult, Run.run_bind, hfound]
  dsimp only
  rw [hrun]
  dsimp only
  rw [Result.commit, hpath]
  exact hreport

/-- The report on the duplicates needs inputs. -/
theorem failure_duplicates_of_no_inputs (hinputs : inputs.patterns = []) :
    ((Task.duplicates inputs scope).run t input).failure = some .noInputs := by
  have hresult : (Task.duplicates inputs scope).result t input = throw .noInputs :=
    duplicatesTask_of_no_inputs hinputs
  rw [Task.run, hresult]
  rfl

/-- The report on some inputs ends with the status for duplicates if the definitions in them can be
read and two of them clash. -/
theorem duplicates_exit_iff (hinputs : inputs.patterns ≠ []) :
    (((Task.duplicates inputs scope).run t input).exit = 1 ∧
        ((Task.duplicates inputs scope).run t input).failure = none) ↔
      ∃ found warnings, (listedDefinitions t input inputs).run.run [] = (.ok found, warnings) ∧
        duplicateNames scope found ≠ ∅ := by
  have hresult : (Task.duplicates inputs scope).result t input =
      listedDefinitions t input inputs >>= reportDuplicates scope := duplicatesTask_eq hinputs input
  rw [Task.run, hresult, Run.run_bind]
  rcases hread : (listedDefinitions t input inputs).run.run [] with ⟨failure | found, warnings⟩
  · constructor
    · rintro ⟨-, hfailure⟩
      cases hfailure
    · rintro ⟨_, _, hfound, -⟩
      cases hfound
  · obtain ⟨result, collected, hrun, hpath, -, hexit⟩ := run_reportDuplicates scope found warnings
    dsimp only
    rw [hrun]
    dsimp only
    rw [Result.commit, hpath]
    constructor
    · rintro ⟨hone, -⟩
      exact ⟨found, warnings, rfl, hexit.mp hone⟩
    · rintro ⟨_, _, hfound, hduplicates⟩
      cases hfound
      exact ⟨hexit.mpr hduplicates, rfl⟩

end

/-! ## Main statement -/

/-- **Duplicates are found exactly, whatever the order of the definitions.** The first part is about
any list of definitions, the second compares the two scopes, and the third compares the report on
the duplicates in some inputs with the list of the definitions in them. -/
theorem duplicates_exact :
    (∀ (scope : Scope) (definitions : List Definition),
      (∀ name, name ∈ duplicateNames scope definitions ↔
        ∃ (i j : Nat) (d d' : Definition), i < j ∧ definitions[i]? = some d ∧
          definitions[j]? = some d' ∧ d.name = name ∧ d'.name = name ∧
          (scope = .perFile → d.file = d'.file)) ∧
      (duplicateGroups scope definitions =
          (duplicateKeys scope definitions).map (groupOf scope definitions) ∧
        (duplicateKeys scope definitions).Pairwise (fun key key' => compare key key' = .lt) ∧
        ∀ key, key ∈ duplicateKeys scope definitions ↔
          2 ≤ (groupOf scope definitions key).sites.length) ∧
      (∀ name, name ∈ duplicateNames scope definitions ↔
        ∃ group ∈ duplicateGroups scope definitions, group.name = name) ∧
      ∀ definitions', definitions.Perm definitions' →
        duplicateNames scope definitions = duplicateNames scope definitions' ∧
          List.Forall₂
            (fun group group' => group.name = group'.name ∧ group.sites.Perm group'.sites)
            (duplicateGroups scope definitions) (duplicateGroups scope definitions')) ∧
    (∀ (definitions : List Definition) (name : String),
      name ∈ duplicateNames .perFile definitions →
        name ∈ duplicateNames .repository definitions) ∧
    ∀ (t : FileTree) (input : ByteArray) (inputs : Inputs) (scope : Scope) (output : Output)
      (format : Report.Format), Report.Format.parse output.format = .ok format →
      ((((Task.duplicates inputs scope).run t input).exit = 1 ∧
          ((Task.duplicates inputs scope).run t input).failure = none) ↔
        inputs.patterns ≠ [] ∧ ListsDuplicate t input inputs scope output) ∧
      (inputs.patterns = [] →
        ((Task.duplicates inputs scope).run t input).failure = some .noInputs) := by
  refine ⟨fun scope definitions => ⟨fun name => mem_duplicateNames_iff_positions,
    ⟨duplicateGroups_eq scope definitions, pairwise_duplicateKeys, fun key => ?_⟩,
    fun name => mem_duplicateNames_iff,
    fun definitions' h => ⟨duplicateNames_perm h, duplicateGroups_perm h⟩⟩,
    fun definitions name => duplicateNames_perFile_subset,
    fun t input inputs scope output format hformat =>
      ⟨?_, fun hinputs => failure_duplicates_of_no_inputs hinputs⟩⟩
  · rw [mem_duplicateKeys, groupOf, List.length_map]
  · by_cases hinputs : inputs.patterns = []
    · rw [failure_duplicates_of_no_inputs hinputs]
      simp [hinputs]
    · rw [duplicates_exit_iff hinputs, listsDuplicate_iff hformat]
      exact (and_iff_right hinputs).symm

/-- A script that defines one function twice. -/
def twice : String := "f() \x7b :; \x7d\nf() \x7b :; \x7d\n"

/-- The script as the only file. -/
def onlyTwice : FileTree := (FileTree.ofWork ["home"]).addFile ["home", "a.sh"] twice.toUTF8

/-- The duplicate in a script is listed and reported. -/
theorem duplicates_of_twice :
    (duplicateNames .perFile
        [⟨"f", none, none, "a.sh", 1, 1, 1⟩, ⟨"f", none, none, "a.sh", 2, 2, 2⟩] =
      duplicateNames .perFile
        [⟨"f", none, none, "a.sh", 2, 2, 2⟩, ⟨"f", none, none, "a.sh", 1, 1, 1⟩]) ∧
    Report.Format.parse "json" = .ok .json ∧
    ((Task.duplicates ⟨["a.sh"], false⟩ .perFile).run onlyTwice .empty).exit = 1 ∧
    ((Task.duplicates ⟨["a.sh"], false⟩ .perFile).run onlyTwice .empty).failure = none ∧
    ListsDuplicate onlyTwice .empty ⟨["a.sh"], false⟩ .perFile ⟨"json", none⟩ := by
  obtain ⟨hdefinitions, -, hruns⟩ := duplicates_exact
  have hformat : Report.Format.parse "json" = .ok .json := rfl
  have hexit : ((Task.duplicates ⟨["a.sh"], false⟩ .perFile).run onlyTwice .empty).exit = 1 ∧
      ((Task.duplicates ⟨["a.sh"], false⟩ .perFile).run onlyTwice .empty).failure = none := by
    decide +kernel
  have hiff := (hruns onlyTwice .empty ⟨["a.sh"], false⟩ .perFile ⟨"json", none⟩ .json hformat).1
  exact ⟨((hdefinitions _ _).2.2.2 _ (List.Perm.swap _ _ [])).1, hformat, hexit.1, hexit.2,
    (hiff.mp hexit).2⟩

/-- Without inputs a duplicate in the standard input is listed, but not reported. -/
theorem standard_input_not_reported :
    ¬ ∀ (t : FileTree) (input : ByteArray) (inputs : Inputs) (scope : Scope) (output : Output)
      (format : Report.Format), Report.Format.parse output.format = .ok format →
      ((((Task.duplicates inputs scope).run t input).exit = 1 ∧
          ((Task.duplicates inputs scope).run t input).failure = none) ↔
        ListsDuplicate t input inputs scope output) := by
  intro h
  have hread : readInput twice.toUTF8 = pure ⟨"-", "-", twice⟩ := by
    have htext : String.fromUTF8? twice.toUTF8 = some twice := by decide +kernel
    rw [readInput, htext]
  have hextract : Definition.extract "-" twice =
      .ok [⟨"f", none, none, "-", 1, 1, 1⟩, ⟨"f", none, none, "-", 2, 2, 2⟩] := by
    decide +kernel
  have hlists : ListsDuplicate (FileTree.ofWork ["home"]) twice.toUTF8 ⟨[], false⟩ .perFile
      ⟨"json", none⟩ := by
    refine (listsDuplicate_iff rfl).mpr
      ⟨[⟨"f", none, none, "-", 1, 1, 1⟩, ⟨"f", none, none, "-", 2, 2, 2⟩], [], ?_, ?_⟩
    · have hfound : definitionsIn false ⟨"-", "-", twice⟩ =
          pure [⟨"f", none, none, "-", 1, 1, 1⟩, ⟨"f", none, none, "-", 2, 2, 2⟩] := by
        rw [definitionsIn, hextract]
      show (((readInput twice.toUTF8 >>= fun source => pure [source]) >>=
        definitionsInAll false).run.run [] : Except Failure (List Definition) × List Warning) = _
      rw [hread, pure_bind, pure_bind, definitionsInAll, List.mapM_cons, hfound]
      rfl
    · decide +kernel
  have hexit := (h _ _ _ _ _ _ rfl).mpr hlists
  rw [failure_duplicates_of_no_inputs rfl] at hexit
  cases hexit.2

end ShellIndex.Command
