import ShellIndex.Command.Arguments
import ShellIndex.Command.Sources

set_option autoImplicit false

/-! # Running a command line

A run first works out its whole report, reading the file tree and the standard input, and
only then writes it, either to the standard output or to one file. A run that fails has
written nothing.
-/

namespace ShellIndex.Command

/-- What a task comes to before anything is written. -/
structure Result where
  /-- The exit status. -/
  exit : Nat
  /-- The report. -/
  report : String
  /-- The file that the report goes to, if it does not go to the standard output. -/
  path : Option String
deriving DecidableEq, Repr

/-- The format of the report. -/
def formatOf (output : Output) : Run Report.Format :=
  match Report.Format.parse output.format with
  | .ok format => pure format
  | .error e => throw (.unknownFormat e)

/-- The report on the definitions in the inputs, or in the standard input if there are no
inputs. -/
def functionsTask (t : FileTree) (input : ByteArray) (inputs : Inputs) (scope : Scope)
    (output : Output) : Run Result := do
  let format ← formatOf output
  let sources ←
    if inputs.patterns.isEmpty then do
      let source ← readInput input
      pure [source]
    else readSources t inputs.patterns
  let found ← definitionsInAll inputs.strict sources
  return ⟨0, format.summary (Summary.ofDefinitions scope found), output.path⟩

/-- The report on the utility functions that the inputs call. -/
def depsTask (t : FileTree) (utils : String) (inputs : Inputs) (output : Output) :
    Run Result := do
  let format ← formatOf output
  if inputs.patterns.isEmpty then throw .noInputs
  let utilities ← readUtilities t utils
  let found ← definitionsInAll inputs.strict utilities
  match Catalog.ofDefinitions found with
  | .error e => throw (.badCatalog e)
  | .ok catalog =>
      let sources ← readSources t inputs.patterns
      let records := sources.map fun source =>
        catalog.dependenciesOf (t.label source.path utils) source.text
      return ⟨0, format.dependencies records, output.path⟩

/-- The line that reports a group of duplicates. -/
def groupLine (group : DuplicateGroup) : String :=
  let sites := group.sites.map fun (file, line) => file ++ ":" ++ toString line
  group.name ++ ": " ++ String.intercalate ", " sites

/-- The report on the duplicates in the inputs. Duplicates make the exit status one. -/
def duplicatesTask (t : FileTree) (inputs : Inputs) (scope : Scope) : Run Result := do
  if inputs.patterns.isEmpty then throw .noInputs
  let sources ← readSources t inputs.patterns
  let found ← definitionsInAll inputs.strict sources
  let groups := duplicateGroups scope found
  let report := Report.ofLines (groups.map groupLine)
  if groups.isEmpty then return ⟨0, report, none⟩
  else
    warn (.duplicates scope groups.length)
    return ⟨1, report, none⟩

/-- Works out the report of a task. -/
def Task.result (t : FileTree) (input : ByteArray) : Task → Run Result
  | functions inputs scope output => functionsTask t input inputs scope output
  | deps utils inputs output => depsTask t utils inputs output
  | duplicates inputs scope => duplicatesTask t inputs scope

/-- What a run leaves behind. -/
structure Outcome where
  /-- The exit status. -/
  exit : Nat
  /-- The standard output. -/
  stdout : String
  /-- The warnings, in order. -/
  warnings : List Warning
  /-- Why the run failed, if it did. -/
  failure : Option Failure
  /-- The file tree. -/
  tree : FileTree

/-- The outcome of a run that fails. -/
def Outcome.failed (t : FileTree) (warnings : List Warning) (failure : Failure) : Outcome :=
  ⟨1, "", warnings, some failure, t⟩

/-- Writes the report of a task. -/
def Result.commit (t : FileTree) (warnings : List Warning) (result : Result) : Outcome :=
  match result.path with
  | none => ⟨result.exit, result.report, warnings, none, t⟩
  | some path =>
      match t.writeText path result.report with
      | .ok t => ⟨result.exit, "", warnings, none, t⟩
      | .error fault => Outcome.failed t warnings (.unwritable path fault)

/-- Runs a task. -/
def Task.run (t : FileTree) (input : ByteArray) (task : Task) : Outcome :=
  match (task.result t input).run.run [] with
  | (.ok result, warnings) => result.commit t warnings
  | (.error failure, warnings) => Outcome.failed t warnings failure

/-- Runs an invocation. A quiet one shows no warnings. -/
def Invocation.run (t : FileTree) (input : ByteArray) (invocation : Invocation) : Outcome :=
  let outcome := invocation.task.run t input
  if invocation.quiet then { outcome with warnings := [] } else outcome

end ShellIndex.Command
