import ShellIndex.Proofs.Command.Ensures
import ShellIndex.Proofs.Command.OutputOption
import ShellIndex.Proofs.Command.Tasks
import ShellIndex.Proofs.FileTree.Write

set_option autoImplicit false

/-! # What a run leaves behind

A run that fails leaves nothing behind: no output, and the file tree as it was. A report that is
written to a file is the one that would have been printed, with the same warnings, and no other file
changes. The file may be one of the inputs, since the report is worked out before it is written.
-/

namespace ShellIndex.Command

variable {t : FileTree} {input : ByteArray} {task : Task} {out : String} {place : Location}
  {failure : Failure}

/-! ## A run that fails -/

theorem Result.commit_failed {result : Result} {warnings : List Warning}
    (h : (result.commit t warnings).failure = some failure) :
    result.commit t warnings = Outcome.failed t warnings failure := by
  unfold Result.commit at h ⊢
  split at h
  · cases h
  · next path =>
      split at h
      · cases h
      · obtain rfl := Option.some.inj h
        rfl

/-- A task that fails has written nothing. -/
theorem Task.run_failed (h : (task.run t input).failure = some failure) :
    ∃ warnings, task.run t input = Outcome.failed t warnings failure := by
  unfold Task.run at h ⊢
  split at h
  · next result warnings _ => exact ⟨warnings, Result.commit_failed h⟩
  · next warnings _ =>
      obtain rfl := Option.some.inj h
      exact ⟨warnings, rfl⟩

/-! ## A report written to a file -/

theorem functionsTask_writing (inputs : Inputs) (scope : Scope) (output : Output) :
    functionsTask t input inputs scope { output with path := some out } =
      functionsTask t input inputs scope output >>= fun result =>
        pure { result with path := some out } := by
  rw [functionsTask_eq, functionsTask_eq, bind_assoc]
  refine bind_congr fun format => ?_
  rw [bind_assoc]
  refine bind_congr fun found => ?_
  rw [pure_bind]

theorem depsTask_writing (utils : String) (inputs : Inputs) (output : Output) :
    depsTask t utils inputs { output with path := some out } =
      depsTask t utils inputs output >>= fun result => pure { result with path := some out } := by
  by_cases hinputs : inputs.patterns = []
  · rw [depsTask_of_no_inputs hinputs, depsTask_of_no_inputs hinputs, bind_assoc]
    rfl
  · rw [depsTask_eq hinputs, depsTask_eq hinputs]
    simp only [bind_assoc, pure_bind]
    rfl

/-- The file of the report is chosen when everything else has been done. -/
theorem Task.result_writingTo (h : task.IsPrinted) (out : String) :
    (task.writingTo out).result t input =
      task.result t input >>= fun result => pure { result with path := some out } := by
  cases task with
  | functions inputs scope output => exact functionsTask_writing inputs scope output
  | deps utils inputs output => exact depsTask_writing utils inputs output
  | duplicates inputs scope => exact h.elim

theorem ensures_path_functionsTask (inputs : Inputs) (scope : Scope) (output : Output) :
    (functionsTask t input inputs scope output).Ensures
      (fun result => result.path = output.path) fun _ => True := by
  rw [functionsTask_eq]
  refine (Run.ensures_trivial _).bind fun format _ => ?_
  exact (Run.ensures_trivial _).bind fun found _ => Run.ensures_pure rfl

theorem ensures_path_depsTask (utils : String) (inputs : Inputs) (output : Output) :
    (depsTask t utils inputs output).Ensures (fun result => result.path = output.path)
      fun _ => True := by
  by_cases hinputs : inputs.patterns = []
  · rw [depsTask_of_no_inputs hinputs]
    exact (Run.ensures_trivial _).bind fun _ _ => Run.ensures_throw trivial
  · rw [depsTask_eq hinputs]
    refine (Run.ensures_trivial _).bind fun format _ => ?_
    refine (Run.ensures_trivial _).bind fun utilities _ => ?_
    refine (Run.ensures_trivial _).bind fun catalog _ => ?_
    exact (Run.ensures_trivial _).bind fun scripts _ => Run.ensures_pure rfl

theorem Task.ensures_no_path (h : task.IsPrinted) :
    (task.result t input).Ensures (fun result => result.path = none) fun _ => True := by
  cases task with
  | functions inputs scope output =>
      exact (ensures_path_functionsTask inputs scope output).imp fun _ hpath => hpath.trans h
  | deps utils inputs output =>
      exact (ensures_path_depsTask utils inputs output).imp fun _ hpath => hpath.trans h
  | duplicates inputs scope => exact h.elim

/-- **A report that is written to a file** is the one that is printed without it. -/
theorem Task.run_writingTo (hprinted : task.IsPrinted) (h : (task.run t input).failure = none) :
    (task.writingTo out).run t input =
      Result.commit t (task.run t input).warnings
        ⟨(task.run t input).exit, (task.run t input).stdout, some out⟩ := by
  -- Both runs work out the same result, which is printed in one and written in the other.
  rcases hrun : (task.result t input).run.run [] with ⟨failure | result, warnings⟩
  · rw [Task.run, hrun] at h
    cases h
  · have hpath : result.path = none :=
      Run.Ensures.of_ok (Task.ensures_no_path hprinted)
        (show ((task.result t input).run.run []).1 = .ok result by rw [hrun])
    have hprint : task.run t input = ⟨result.exit, result.report, warnings, none, t⟩ := by
      rw [Task.run, hrun]
      dsimp only
      rw [Result.commit, hpath]
    have hwriting : ((task.writingTo out).result t input).run.run [] =
        (.ok { result with path := some out }, warnings) := by
      rw [Task.result_writingTo hprinted, Run.run_bind, hrun]
      rfl
    rw [hprint, Task.run, hwriting]

namespace Result
variable {exit : Nat} {report : String} {warnings : List Warning}

theorem commit_of_target (hplace : t.target out = .ok place) :
    commit t warnings ⟨exit, report, some out⟩ =
      ⟨exit, "", warnings, none, t.put place report.toUTF8⟩ := by
  rw [commit]
  dsimp only
  rw [FileTree.writeText_of_target hplace]

theorem commit_of_not_target {fault : PathFault} (hfault : t.target out = .error fault) :
    commit t warnings ⟨exit, report, some out⟩ =
      Outcome.failed t warnings (.unwritable out fault) := by
  rw [commit]
  dsimp only
  rw [FileTree.writeText_of_not_target hfault]

theorem commit_quiet (result : Result) :
    { result.commit t warnings with warnings := [] } = result.commit t [] := by
  unfold commit
  split
  · rfl
  · split
    · rfl
    · rfl

end Result

/-! ## The command line -/

namespace Invocation
variable {inv : Invocation}

theorem run_failed (h : (inv.run t input).failure = some failure) :
    (inv.run t input).exit = 1 ∧ (inv.run t input).stdout = "" ∧ (inv.run t input).tree = t := by
  rw [failure_run] at h
  obtain ⟨warnings, hfailed⟩ := Task.run_failed h
  unfold run
  rw [hfailed]
  split
  · exact ⟨rfl, rfl, rfl⟩
  · exact ⟨rfl, rfl, rfl⟩

theorem run_writingTo (hprinted : inv.task.IsPrinted) (h : (inv.run t input).failure = none) :
    run t input ⟨inv.quiet, inv.task.writingTo out⟩ =
      Result.commit t (inv.run t input).warnings
        ⟨(inv.run t input).exit, (inv.run t input).stdout, some out⟩ := by
  rw [failure_run] at h
  unfold run
  dsimp only
  rw [Task.run_writingTo hprinted h]
  split
  · exact Result.commit_quiet _
  · rfl

end Invocation

/-- **A run either commits or leaves everything as it was.** A run that fails prints nothing and
changes no file. Where the list of the definitions or the map of the dependencies is printed, the
same command line with the file of the report named in addition (by a path that is not empty) has the
same warnings. If the file may be written, it succeeds with the same exit status and prints nothing,
and leaves in the file what would have been printed, with all else as it was; if not, it fails for
that reason. -/
theorem runs_commit_or_change_nothing {args : List String} {inv : Invocation}
    (hinv : Invocation.parse args = .ok inv) (t : FileTree) (input : ByteArray) :
    (∀ failure, (inv.run t input).failure = some failure → (inv.run t input).exit = 1 ∧
      (inv.run t input).stdout = "" ∧ (inv.run t input).tree = t) ∧
    (inv.task.IsPrinted → (inv.run t input).failure = none → ∀ out, out ≠ "" →
      (∃ args', AddsOutput out args args') ∧
      ∀ args', AddsOutput out args args' → ∃ inv', Invocation.parse args' = .ok inv' ∧
        (inv'.run t input).warnings = (inv.run t input).warnings ∧
        (∀ place, t.target out = .ok place →
          (inv'.run t input).failure = none ∧
          (inv'.run t input).exit = (inv.run t input).exit ∧
          (inv'.run t input).stdout = "" ∧
          (inv'.run t input).tree.readText out = .ok (inv.run t input).stdout ∧
          (inv'.run t input).tree.work = t.work ∧
          ∀ other, other ≠ place → (inv'.run t input).tree.node? other = t.node? other) ∧
        ∀ fault, t.target out = .error fault →
          (inv'.run t input).failure = some (.unwritable out fault)) := by
  refine ⟨fun failure => Invocation.run_failed, fun hprinted h out hout =>
    ⟨Invocation.exists_addsOutput hinv out, fun args' hargs' => ?_⟩⟩
  refine ⟨_, Invocation.parse_addsOutput hargs' hout hinv hprinted, ?_⟩
  rw [Invocation.run_writingTo hprinted h]
  refine ⟨?_, fun place hplace => ?_, fun fault hfault => ?_⟩
  · cases htarget : t.target out with
    | error fault => rw [Result.commit_of_not_target htarget, Outcome.failed]
    | ok place => rw [Result.commit_of_target htarget]
  · rw [Result.commit_of_target hplace]
    exact ⟨rfl, rfl, rfl, FileTree.readText_put hplace _, rfl,
      fun other hother => FileTree.node?_put_of_ne hother _⟩
  · rw [Result.commit_of_not_target hfault]
    rfl

/-! ## A report in place of its own input -/

/-- A script with one function. -/
def oneFunction : String := "f() \x7b :; \x7d\n"

/-- The script as the only file. -/
def onlyOneFunction : FileTree :=
  (FileTree.ofWork ["home"]).addFile ["home", "a.sh"] oneFunction.toUTF8

theorem runs_commit_or_change_nothing_in_place :
    ∃ (inv inv' : Invocation) (report : String),
      Invocation.parse ["functions", "a.sh", "-f", "json"] = .ok inv ∧
      Invocation.parse ["functions", "-o", "a.sh", "a.sh", "-f", "json"] = .ok inv' ∧
      (inv.run onlyOneFunction .empty).stdout = report ∧ report ≠ "" ∧
      (inv'.run onlyOneFunction .empty).stdout = "" ∧
      (inv'.run onlyOneFunction .empty).tree.readText "a.sh" = .ok report := by
  let inv : Invocation := ⟨false, .functions ⟨["a.sh"], false⟩ .perFile ⟨"json", none⟩⟩
  have hinv : Invocation.parse ["functions", "a.sh", "-f", "json"] = .ok inv := rfl
  obtain ⟨-, hprints⟩ := runs_commit_or_change_nothing hinv onlyOneFunction .empty
  have hplace : onlyOneFunction.target "a.sh" = .ok ["home", "a.sh"] := rfl
  have hadds : AddsOutput "a.sh" ["functions", "a.sh", "-f", "json"]
      ["functions", "-o", "a.sh", "a.sh", "-f", "json"] :=
    .task (a := []) rfl rfl ⟨rfl, rfl⟩ (.separate (by decide))
  obtain ⟨-, hwrites⟩ := hprints rfl (by decide +kernel) "a.sh" (by decide)
  obtain ⟨inv', hinv', -, hcommits, -⟩ := hwrites _ hadds
  obtain ⟨-, -, hstdout, hread, -⟩ := hcommits _ hplace
  exact ⟨inv, inv', _, hinv, hinv', rfl, by decide +kernel, hstdout, hread⟩

end ShellIndex.Command
