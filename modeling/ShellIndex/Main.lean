import ShellIndex.Command.Run

set_option autoImplicit false

/-! # The program

The program reads the part of the disk that its command line speaks of into a file tree,
runs the command line on it, and writes what the outcome says.
-/

namespace ShellIndex

open Command

/-- The text shown when the usage is asked for. -/
def usage : String :=
  "Inventory of shell functions, duplicate definitions and script dependencies\n\n" ++
  "  functions [FILES]... [--scope SCOPE] [-f FORMAT] [-o FILE] [--strict]\n" ++
  "  deps -u DIR FILES... [-f FORMAT] [-o FILE] [--strict]\n" ++
  "  duplicates FILES... [--scope SCOPE] [--strict]\n\n" ++
  "Every command takes -v, -q and -h.\n"

/-- How far below a directory the entries matter. -/
inductive Reach where
  /-- So many levels. -/
  | levels (n : Nat)
  /-- All levels. -/
  | everything

/-- The reach that is left one level further down, if any is. -/
def Reach.down : Reach → Option Reach
  | .levels 0 => none
  | .levels (n + 1) => some (.levels n)
  | .everything => some .everything

/-- Adds what the disk holds at `path` to the tree. Entries that are missing or cannot be
read are left out. -/
partial def readDisk (t : FileTree) (place : Location) (path : String) (reach : Reach) :
    IO FileTree := do
  try
    let real ← IO.FS.realPath path
    if ← real.isDir then
      let mut t := t.addDirectory place
      if let some less := reach.down then
        for entry in ← real.readDir do
          t ← readDisk t (place ++ [entry.fileName]) (Path.join path entry.fileName) less
      return t
    else return t.addFile place (← IO.FS.readBinFile real)
  catch _ => return t

/-- Whether a piece of a path contains a wildcard. -/
def hasWildcard (piece : List Char) : Bool :=
  piece.any fun c => c == '*' || c == '?' || c == '['

/-- Adds what the disk holds at the path or pattern `operand`. -/
def readOperand (t : FileTree) (operand : String) : IO FileTree := do
  let ps := Path.pieces operand.toList
  let lead := ps.takeWhile (!hasWildcard ·)
  let rest := ps.drop lead.length
  let reach := if rest.contains ['*', '*'] then .everything else .levels (max 1 rest.length)
  let mut t := t
  let mut place := t.origin operand
  for piece in lead do
    match Path.component? piece with
    | some .parent => place := place.dropLast
    | some (.name name) =>
        place := place ++ [name]
        t ← readDisk t place ("/" ++ String.intercalate "/" place) (.levels 0)
    | _ => pure ()
  readDisk t place ("/" ++ String.intercalate "/" place) reach

/-- The paths and patterns that a task speaks of. -/
def Command.Task.operands : Task → List String
  | .functions inputs _ output => inputs.patterns ++ output.path.toList
  | .deps utils inputs output => utils :: inputs.patterns ++ output.path.toList
  | .duplicates inputs _ => inputs.patterns

/-- The file that a task writes its report to. -/
def Command.Task.outputPath? : Task → Option String
  | .functions _ _ output | .deps _ _ output => output.path
  | .duplicates _ _ => none

/-- Whether a task reads the standard input. -/
def Command.Task.readsInput : Task → Bool
  | .functions inputs _ _ => inputs.patterns.isEmpty
  | _ => false

/-- Reads a stream to its end. -/
partial def readAll (stream : IO.FS.Stream) (read : ByteArray) : IO ByteArray := do
  let chunk ← stream.read 65536
  if chunk.isEmpty then return read else readAll stream (read ++ chunk)

/-- Runs an invocation and returns the exit status. -/
def perform (invocation : Invocation) : IO UInt32 := do
  let here ← IO.currentDir
  let start := FileTree.ofWork (Path.pieces here.toString.toList |>.filterMap fun piece =>
    if piece.isEmpty then none else some (String.ofList piece))
  let t ← invocation.task.operands.foldlM readOperand start
  let input ← if invocation.task.readsInput then readAll (← IO.getStdin) .empty else pure .empty
  let outcome := invocation.run t input
  for warning in outcome.warnings do
    IO.eprintln ("WARN " ++ warning.message)
  match outcome.failure, invocation.task.outputPath? with
  | some failure, _ => IO.eprintln ("Error: " ++ failure.message)
  | none, some path =>
      if let .ok text := outcome.tree.readText path then IO.FS.writeFile path text
  | none, none => IO.print outcome.stdout
  return outcome.exit.toUInt32

end ShellIndex

/-- Runs the command line. -/
def main (args : List String) : IO UInt32 :=
  match ShellIndex.Command.Invocation.parse args with
  | .ok invocation => ShellIndex.perform invocation
  | .error .help => do
      IO.print ShellIndex.usage
      return 0
  | .error .usage => do
      IO.eprint ShellIndex.usage
      return 2
