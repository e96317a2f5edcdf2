import Std.Data.ExtTreeMap
import ShellIndex.Path.Component

set_option autoImplicit false

/-! # File trees

A file tree without links, with a working directory in it. A location is the list of names
that lead to a file or directory from the root. Paths are resolved piece by piece: every
piece asks for a directory to start from, a name asks for an entry in it.
-/

namespace ShellIndex

/-- The names that lead from the root to a file or directory. -/
abbrev Location := List String

/-- What stands at a location. -/
inductive Node where
  /-- A file with its content. -/
  | file (content : ByteArray)
  /-- A directory. -/
  | directory

instance : DecidableEq Node
  | .file a, .file b =>
      match ByteArray.decEq a b with
      | isTrue h => isTrue (congrArg Node.file h)
      | isFalse h => isFalse fun e => h (Node.file.inj e)
  | .directory, .directory => isTrue rfl
  | .file _, .directory => isFalse fun e => nomatch e
  | .directory, .file _ => isFalse fun e => nomatch e

/-- Why a path cannot be used. -/
inductive PathFault where
  /-- There is no such entry. -/
  | missing
  /-- Something other than a directory is used as one. -/
  | notDirectory
  /-- A directory is used as a file. -/
  | isDirectory
  /-- A name is too long. -/
  | nameTooLong
  /-- The content of the file is not UTF-8. -/
  | notText
deriving DecidableEq, Repr

/-- The wording of a fault. -/
def PathFault.message : PathFault → String
  | missing => "No such file or directory (os error 2)"
  | notDirectory => "Not a directory (os error 20)"
  | isDirectory => "Is a directory (os error 21)"
  | nameTooLong => "File name too long (os error 36)"
  | notText => "stream did not contain valid UTF-8"

/-- A file tree with a working directory. -/
structure FileTree where
  /-- What stands at each location other than the root. -/
  nodes : Std.ExtTreeMap Location Node
  /-- The working directory. -/
  work : Location

namespace FileTree

open ShellIndex.Path

/-! ## Entries -/

/-- What stands at a location. -/
def node? (t : FileTree) (place : Location) : Option Node :=
  if place = [] then some .directory else t.nodes[place]?

/-- Whether a directory stands at a location. -/
def isDirectoryAt (t : FileTree) (place : Location) : Bool := t.node? place == some .directory

/-- The names in a directory, in ascending order. -/
def namesAt (t : FileTree) (place : Location) : List String :=
  t.nodes.keys.filterMap fun other =>
    if other.dropLast = place then other.getLast? else none

/-- Everything below a directory, each directory before what it contains and entries of a
directory in ascending order. Each is given by the names that lead to it from there. -/
def below (t : FileTree) (place : Location) : List Location :=
  t.nodes.keys.filterMap fun other =>
    if place.isPrefixOf other && other.length != place.length then
      some (other.drop place.length)
    else none

/-- The locations from the root to the given one, without the root. -/
def passed : Location → List Location
  | [] => []
  | name :: rest => [name] :: (passed rest).map (name :: ·)

/-- The tree with one directory more, and those on the way to it. -/
def addDirectory (t : FileTree) (place : Location) : FileTree :=
  { t with nodes := t.nodes.insertMany ((passed place).map fun l => (l, Node.directory)) }

/-- The tree with one file more, and the directories on the way to it. -/
def addFile (t : FileTree) (place : Location) (content : ByteArray) : FileTree :=
  let t := t.addDirectory place.dropLast
  { t with nodes := t.nodes.insert place (.file content) }

/-- The tree that holds nothing but its working directory. -/
def ofWork (work : Location) : FileTree := addDirectory ⟨∅, work⟩ work

/-! ## Resolving paths -/

/-- The number of bytes that a name may have. -/
def nameLimit : Nat := 255

/-- The number of bytes that a path may have. -/
def pathLimit : Nat := 4095

/-- Follows one piece of a path. -/
def follow (t : FileTree) (place : Location) (piece : List Char) : Except PathFault Location :=
  if t.isDirectoryAt place then
    match component? piece with
    | some .parent => .ok place.dropLast
    | some (.name name) =>
        if nameLimit < name.utf8ByteSize then .error .nameTooLong
        else if (t.node? (place ++ [name])).isSome then .ok (place ++ [name])
        else .error .missing
    | _ => .ok place
  else .error .notDirectory

/-- Follows some pieces of a path. -/
def followAll (t : FileTree) (place : Location) (ps : List (List Char)) :
    Except PathFault Location :=
  ps.foldlM t.follow place

/-- Where a path starts from. -/
def origin (t : FileTree) (path : String) : Location :=
  if path.toList.head? = some '/' then [] else t.work

/-- The location that a path leads to. -/
def resolve (t : FileTree) (path : String) : Except PathFault Location :=
  if path.isEmpty then .error .missing
  else if pathLimit < path.utf8ByteSize then .error .nameTooLong
  else t.followAll (t.origin path) (pieces path.toList)

/-- What a path leads to. -/
def find? (t : FileTree) (path : String) : Option Node :=
  match t.resolve path with
  | .ok place => t.node? place
  | .error _ => none

/-- Whether a path leads to something. -/
def exists? (t : FileTree) (path : String) : Bool := (t.find? path).isSome

/-- Whether a path leads to a directory. -/
def isDirectory (t : FileTree) (path : String) : Bool := t.find? path == some .directory

/-- Whether a path leads to a file. -/
def isFile (t : FileTree) (path : String) : Bool :=
  match t.find? path with
  | some (.file _) => true
  | _ => false

/-! ## Reading and writing -/

/-- The text of the file that a path leads to. -/
def readText (t : FileTree) (path : String) : Except PathFault String :=
  match t.resolve path with
  | .error fault => .error fault
  | .ok place =>
      match t.node? place with
      | some (.file content) =>
          match String.fromUTF8? content with
          | some text => .ok text
          | none => .error .notText
      | some .directory => .error .isDirectory
      | none => .error .missing

/-- The location of a file that may be written, given its place and the last piece of its
path, which may be followed by a slash. -/
def entryIn (t : FileTree) (place : Location) (last : List Char) (slash : Bool) :
    Except PathFault Location :=
  if !t.isDirectoryAt place then .error .notDirectory
  else
    match component? last with
    | some (.name name) =>
        if slash then .error .isDirectory
        else if nameLimit < name.utf8ByteSize then .error .nameTooLong
        else if t.isDirectoryAt (place ++ [name]) then .error .isDirectory
        else .ok (place ++ [name])
    | _ => .error .isDirectory

/-- The location that a file may be written to by a path: an entry, present or not, of a
directory. -/
def target (t : FileTree) (path : String) : Except PathFault Location :=
  if path.isEmpty then .error .missing
  else if pathLimit < path.utf8ByteSize then .error .nameTooLong
  else
    let ps := pieces path.toList
    match ps.reverse.dropWhile List.isEmpty with
    | [] => .error .isDirectory
    | last :: before =>
        match t.followAll (t.origin path) before.reverse with
        | .error fault => .error fault
        | .ok place => t.entryIn place last (ps.getLast? == some [])

/-- The tree after a text has been written to the file that a path names. A file that is
there is replaced, one that is not is created. -/
def writeText (t : FileTree) (path text : String) : Except PathFault FileTree :=
  match t.target path with
  | .error fault => .error fault
  | .ok place => .ok { t with nodes := t.nodes.insert place (.file text.toUTF8) }

end FileTree

end ShellIndex
