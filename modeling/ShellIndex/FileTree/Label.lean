import ShellIndex.FileTree.Basic
import ShellIndex.Path.Remainder

set_option autoImplicit false

/-! # Labels of scripts

A script is labelled by the rest of its path below a directory. When the path does not show
that the script lies there, its location does; a script that lies elsewhere is labelled by
its path as it is written.
-/

namespace ShellIndex.FileTree

/-- The names that lead from one location to another below it. -/
def between? (dir place : Location) : Option Location :=
  if dir.isPrefixOf place then some (place.drop dir.length) else none

/-- The label of a path with regard to a directory. -/
def label (t : FileTree) (path dir : String) : String :=
  match Path.remainder? path dir with
  | some rest => rest
  | none =>
      match t.resolve path, t.resolve dir with
      | .ok place, .ok above =>
          match between? above place with
          | some names => String.intercalate "/" names
          | none => path
      | _, _ => path

end ShellIndex.FileTree
