import ShellIndex.Command.Run

set_option autoImplicit false

/-! # What the tasks have in common

The list of the definitions and the report on the duplicates read their scripts in the same way and
find the same definitions in them. They differ in what they make of these, and in that only the
list can do without inputs.
-/

namespace ShellIndex.Command

/-- The scripts that are listed: the inputs, or the standard input if there are none. -/
def listedSources (t : FileTree) (input : ByteArray) (inputs : Inputs) : Run (List Source) :=
  if inputs.patterns.isEmpty then do
    let source ← readInput input
    pure [source]
  else readSources t inputs.patterns

/-- The definitions that are listed. -/
def listedDefinitions (t : FileTree) (input : ByteArray) (inputs : Inputs) :
    Run (List Definition) := do
  let sources ← listedSources t input inputs
  definitionsInAll inputs.strict sources

/-- What is reported about the duplicates in some definitions. -/
def reportDuplicates (scope : Scope) (found : List Definition) : Run Result :=
  let groups := duplicateGroups scope found
  let report := Report.ofLines (groups.map groupLine)
  if groups.isEmpty then return ⟨0, report, none⟩
  else do
    warn (.duplicates scope groups.length)
    return ⟨1, report, none⟩

/-- The catalog of some utility scripts. -/
def catalogIn (strict : Bool) (utilities : List Source) : Run Catalog := do
  match Catalog.ofDefinitions (← definitionsInAll strict utilities) with
  | .error e => throw (.badCatalog e)
  | .ok catalog => pure catalog

/-- The report on the dependencies of some scripts. -/
def reportDependencies (t : FileTree) (utils : String) (output : Output) (format : Report.Format)
    (catalog : Catalog) (scripts : List Source) : Result :=
  ⟨0, format.dependencies (scripts.map fun script =>
    catalog.dependenciesOf (t.label script.path utils) script.text), output.path⟩

variable {t : FileTree} {inputs : Inputs} {scope : Scope}

theorem functionsTask_eq (input : ByteArray) (output : Output) :
    functionsTask t input inputs scope output = (do
      let format ← formatOf output
      let found ← listedDefinitions t input inputs
      pure ⟨0, format.summary (Summary.ofDefinitions scope found), output.path⟩) := by
  refine bind_congr fun format => ?_
  rw [listedDefinitions, bind_assoc, listedSources]
  dsimp only
  split
  · rw [bind_assoc]
  · rfl

theorem duplicatesTask_eq (hinputs : inputs.patterns ≠ []) (input : ByteArray) :
    duplicatesTask t inputs scope = listedDefinitions t input inputs >>= reportDuplicates scope := by
  have hsome : inputs.patterns.isEmpty = false := by simpa using hinputs
  rw [duplicatesTask, listedDefinitions, listedSources, hsome, bind_assoc]
  rfl

theorem duplicatesTask_of_no_inputs (hinputs : inputs.patterns = []) :
    duplicatesTask t inputs scope = throw .noInputs := by
  have hnone : inputs.patterns.isEmpty = true := by simpa using hinputs
  rw [duplicatesTask, hnone]
  rfl

section
variable {utils : String} {output : Output}

theorem depsTask_eq (hinputs : inputs.patterns ≠ []) :
    depsTask t utils inputs output = (do
      let format ← formatOf output
      let utilities ← readUtilities t utils
      let catalog ← catalogIn inputs.strict utilities
      let scripts ← readSources t inputs.patterns
      pure (reportDependencies t utils output format catalog scripts)) := by
  have hsome : inputs.patterns.isEmpty = false := by simpa using hinputs
  unfold depsTask catalogIn
  refine bind_congr fun format => ?_
  rw [hsome]
  refine bind_congr fun utilities => ?_
  rw [bind_assoc]
  refine bind_congr fun found => ?_
  cases Catalog.ofDefinitions found with
  | error e => rfl
  | ok catalog =>
      rw [pure_bind]
      rfl

theorem depsTask_of_no_inputs (hinputs : inputs.patterns = []) :
    depsTask t utils inputs output = formatOf output >>= fun _ => throw .noInputs := by
  have hnone : inputs.patterns.isEmpty = true := by simpa using hinputs
  unfold depsTask
  rw [hnone]
  rfl

end

/-! ## Failures -/

/-- A run fails where its report cannot be worked out or cannot be written. -/
theorem Task.result_of_failure {input : ByteArray} {task : Task} {failure : Failure}
    (h : (task.run t input).failure = some failure) :
    (∃ after, (task.result t input).run.run [] = (.error failure, after)) ∨
      ∃ path fault, failure = .unwritable path fault := by
  rw [Task.run] at h
  rcases hresult : (task.result t input).run.run [] with ⟨failure' | result, after⟩
  · rw [hresult] at h
    obtain rfl := Option.some.inj h
    exact Or.inl ⟨after, rfl⟩
  · rw [hresult] at h
    dsimp only at h
    unfold Result.commit at h
    split at h
    · cases h
    · split at h
      · cases h
      · obtain rfl := Option.some.inj h
        exact Or.inr ⟨_, _, rfl⟩

/-- Whether warnings are shown does not decide whether a run fails. -/
theorem Invocation.failure_run (t : FileTree) (input : ByteArray) (inv : Invocation) :
    (inv.run t input).failure = (inv.task.run t input).failure := by
  unfold Invocation.run
  dsimp only
  split <;> rfl

end ShellIndex.Command
