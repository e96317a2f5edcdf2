import ShellIndex.Command.Failure
import ShellIndex.Definition.Extract
import ShellIndex.FileTree.Label
import ShellIndex.Glob.Walk

set_option autoImplicit false

/-! # Scripts to be read

The inputs of a task are files, directories and patterns. A file stands for itself, a
directory for the scripts directly in it, and a pattern for the files that match it. The
scripts are read in the order of their paths, each once; of equal paths the first spelling
is kept.
-/

namespace ShellIndex.Command

/-- A computation that may fail and that collects warnings, which a failure keeps. -/
abbrev Run := ExceptT Failure (StateM (List Warning))

/-- Collects a warning. -/
def warn (warning : Warning) : Run Unit := modify (· ++ [warning])

/-- A script that has been read. -/
structure Source where
  /-- The path that it was found under. -/
  path : String
  /-- Its label in reports. -/
  label : String
  /-- Its text. -/
  text : String
deriving DecidableEq, Repr

/-- The extensions of scripts. -/
def scriptExtensions : List String := ["sh", "bash", "bats"]

/-- Whether a name is that of a script. -/
def isScriptName (name : String) : Bool := (Path.extension? name).any scriptExtensions.contains

/-- The paths of the scripts directly in a directory, in ascending order. -/
def scriptsIn (t : FileTree) (dir : String) : List String :=
  match t.resolve dir with
  | .error _ => []
  | .ok place =>
      ((t.namesAt place).filter isScriptName).map (Path.join dir) |>.filter t.isFile

/-- The paths that one input stands for. -/
def pathsOf (t : FileTree) (pattern : String) : Run (List String) :=
  if t.isFile pattern then pure [pattern]
  else if t.isDirectory pattern then pure (scriptsIn t pattern)
  else
    match Glob.PathPattern.parse pattern with
    | .error fault => throw (.badPattern pattern fault)
    | .ok parsed => do
        let found := (parsed.paths t).filter t.isFile
        if found.isEmpty then warn (.noMatch pattern)
        return found

/-- Sorted paths without those that equal the path before. -/
def dropRepeated : List String → List String
  | [] => []
  | path :: paths =>
      path :: dropRepeated (paths.dropWhile fun other =>
        Path.components other == Path.components path)
termination_by paths => paths.length
decreasing_by
  exact Nat.lt_succ_of_le (List.dropWhile_suffix _).length_le

/-- Paths in ascending order, each once. -/
def canonical (paths : List String) : List String :=
  dropRepeated (paths.mergeSort fun p q => (Path.order p q).isLE)

/-- The paths that some inputs stand for, in ascending order, each once. -/
def expand (t : FileTree) (patterns : List String) : Run (List String) := do
  let found ← patterns.mapM (pathsOf t)
  return canonical found.flatten

/-- Reads the script at a path. -/
def load (t : FileTree) (path label : String) : Run Source :=
  match t.readText path with
  | .ok text => pure ⟨path, label, text⟩
  | .error fault => throw (.unreadable path fault)

/-- Reads the scripts that some inputs stand for, labelled by their paths. -/
def readSources (t : FileTree) (patterns : List String) : Run (List Source) := do
  (← expand t patterns).mapM fun path => load t path path

/-- Reads the scripts directly in a directory, labelled with regard to it. -/
def readUtilities (t : FileTree) (dir : String) : Run (List Source) :=
  if t.isDirectory dir then (scriptsIn t dir).mapM fun path => load t path (t.label path dir)
  else throw (.noUtilities dir)

/-- Reads the standard input. -/
def readInput (input : ByteArray) : Run Source :=
  match String.fromUTF8? input with
  | some text => pure ⟨"-", "-", text⟩
  | none => throw (.unreadableInput .notText)

/-- The definitions in one script. When a definition in it is malformed, the script is
skipped with a warning, or the run fails if it is strict. -/
def definitionsIn (strict : Bool) (source : Source) : Run (List Definition) :=
  match Definition.extract source.label source.text with
  | .ok found => pure found
  | .error e =>
      if strict then throw (.malformed e)
      else do
        warn (.skipped source.label e)
        return []

/-- The definitions in some scripts, in order. -/
def definitionsInAll (strict : Bool) (sources : List Source) : Run (List Definition) := do
  return (← sources.mapM (definitionsIn strict)).flatten

end ShellIndex.Command
