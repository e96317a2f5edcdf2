import ShellIndex.FileTree.Basic
import ShellIndex.Glob.Pattern

set_option autoImplicit false

/-! # Paths that match a pattern

The components of a pattern are matched with the entries of a file tree. A component
without wildcards is followed as it is written, whether it is a name, `.` or `..`. A
component with wildcards is matched with the names in the directory reached so far, and
with `.` and `..` if it starts with a dot. The component `**` leads to everything below
that directory.

Matches are listed depth first and in ascending order, where `..` and `.` come before the
names. A relative pattern gives paths without a leading `./`.
-/

namespace ShellIndex.Glob

open ShellIndex.Path

/-- A component of a pattern. -/
inductive Segment where
  /-- A name without wildcards. -/
  | literal (name : String)
  /-- A name with wildcards. -/
  | wild (tokens : List Token)
  /-- Directories of any depth. -/
  | anyDepth
deriving DecidableEq, Repr

namespace Segment

/-- The component made of some tokens. -/
def ofTokens (text : List Char) (tokens : List Token) : Segment :=
  if tokens = [.anyDepth] then anyDepth
  else if tokens = text.map .char then literal (String.ofList text)
  else wild tokens

/-- Whether a name matches a component. -/
def accepts (segment : Segment) (name : String) : Bool :=
  match segment with
  | literal name' => name == name'
  | wild tokens => matchTokens tokens name.toList
  | anyDepth => true

/-- Whether a component can match `.` and `..`. -/
def startsWithDot : Segment → Bool
  | wild (.char '.' :: _) => true
  | _ => false

end Segment

/-- A pattern for paths. -/
structure PathPattern where
  /-- Whether the pattern starts at the root. -/
  absolute : Bool
  /-- Whether only directories match. -/
  onlyDirectories : Bool
  /-- The components. -/
  segments : List Segment
deriving DecidableEq, Repr

namespace PathPattern

/-- The pieces of a pattern behind the root. A slash at the end adds no piece. -/
def piecesOf (rest : List Char) : List (List Char) :=
  if rest.isEmpty then [[]]
  else
    let ps := pieces rest
    if ps.getLast? = some [] then ps.dropLast else ps

/-- Adjacent components `**` are worth one. -/
def collapse : List Segment → List Segment
  | [] => []
  | segment :: rest =>
      let rest := collapse rest
      if segment = .anyDepth ∧ rest.head? = some .anyDepth then rest else segment :: rest

/-- Reads a pattern. The whole pattern has to be well formed, and so has each component. -/
def parse (pattern : String) : Except PatternFault PathPattern := do
  let text := pattern.toList
  let _ ← tokens text
  let absolute := text.head? == some '/'
  let segments ← (piecesOf (if absolute then text.tail else text)).mapM fun piece =>
    (tokens piece).map (Segment.ofTokens piece)
  return ⟨absolute, text.getLast? == some '/', collapse segments⟩

end PathPattern

/-- The path of a name in a directory; the current directory is left out. -/
def enter (dir name : String) : String := if isCurrent dir then name else join dir name

/-- The location of a directory. -/
def directory? (t : FileTree) (path : String) : Option Location :=
  match t.resolve path with
  | .ok place => if t.isDirectoryAt place then some place else none
  | .error _ => none

/-- The paths of everything below a directory, each with its last name. -/
def everythingBelow (t : FileTree) (path : String) (place : Location) : List (String × String) :=
  (t.below place).filterMap fun names =>
    names.getLast?.map fun name => (enter path (String.intercalate "/" names), name)

/-- The paths below `path` that match some components. -/
def walk (t : FileTree) (path : String) : List Segment → List String
  | [] => [path]
  | .literal name :: rest =>
      let next := enter path name
      let found := if name = "." ∨ name = ".." then t.isDirectory path else t.exists? next
      if found then walk t next rest else []
  | .wild tokens :: rest =>
      match directory? t path with
      | none => []
      | some place =>
          let segment := Segment.wild tokens
          -- A wildcard does not match the dot of `.` and `..`.
          let dots := if segment.startsWithDot then ["..", "."] else []
          ((dots.filter segment.accepts).flatMap fun dot => walk t (join path dot) rest) ++
            ((t.namesAt place).filter segment.accepts).flatMap fun name =>
              walk t (enter path name) rest
  | [.anyDepth] =>
      match directory? t path with
      | none => []
      | some place => ((everythingBelow t path place).map Prod.fst).filter t.isDirectory
  | .anyDepth :: segment :: rest =>
      match directory? t path with
      | none => []
      | some place =>
          ((everythingBelow t path place).filter fun entry => segment.accepts entry.2).flatMap
            fun entry => walk t entry.1 rest

/-- The paths of a tree that match a pattern. -/
def PathPattern.paths (pattern : PathPattern) (t : FileTree) : List String :=
  (walk t (if pattern.absolute then "/" else ".") pattern.segments).filter fun path =>
    !pattern.onlyDirectories || t.isDirectory path

end ShellIndex.Glob
