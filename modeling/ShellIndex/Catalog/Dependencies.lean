import ShellIndex.Call.Tracker
import ShellIndex.Catalog.Basic
import ShellIndex.Source.Scan

set_option autoImplicit false

/-! # Dependencies of a script

A script depends on the utility functions that it calls and that some other file defines.
It depends on all the other files that define such a function.
-/

namespace ShellIndex

/-- What a script depends on. -/
structure Dependencies where
  /-- The label of the script. -/
  file : String
  /-- The files that define the functions. -/
  files : NameSet
  /-- The functions that are called. -/
  functions : NameSet

namespace Dependencies

/-- The script depends on nothing. -/
def none (file : String) : Dependencies := ⟨file, ∅, ∅⟩

/-- Whether the script depends on nothing. -/
def isEmpty (d : Dependencies) : Bool := d.functions.isEmpty

/-- Records a call of `name`, which the files in `defining` define. -/
def record (d : Dependencies) (name : String) (defining : NameSet) : Dependencies :=
  let others := defining.toList.filter (· ≠ d.file)
  if others.isEmpty then d
  else { d with files := d.files.insertMany others, functions := d.functions.insert name }

end Dependencies

/-- The words in command position of a script, in order. -/
def callsOf (text : String) : List String :=
  Call.Tracker.start.calls ((Source.scan text).map Source.Line.code)

namespace Catalog

/-- Records a call of `name` if it is known. -/
def note (catalog : Catalog) (d : Dependencies) (name : String) : Dependencies :=
  match catalog.definingFiles? name with
  | some defining => d.record name defining
  | none => d

/-- What a script depends on. Functions that only the script itself defines do not count. -/
def dependenciesOf (catalog : Catalog) (file text : String) : Dependencies :=
  (callsOf text).foldl catalog.note (Dependencies.none file)

end Catalog

/-- What a script depends on when the utility functions are the given definitions. -/
def mapDependencies (file text : String) (utilities : List Definition) :
    Except CatalogError Dependencies :=
  (Catalog.ofDefinitions utilities).map fun catalog => catalog.dependenciesOf file text

end ShellIndex
