import ShellIndex.Definition.Basic
import ShellIndex.NameSet
import ShellIndex.Scope

set_option autoImplicit false

/-! # Duplicate definitions

Two definitions clash in a scope when they agree in everything the scope compares: in name
and file within one file, in name alone within all files. Clashing definitions form groups,
which are listed in ascending order of what they agree in; each group lists its definitions
in the order in which they were given.
-/

namespace ShellIndex

/-- What has to differ between two definitions for them not to clash. -/
def Scope.key : Scope → Definition → List String
  | .perFile, d => [d.file, d.name]
  | .repository, d => [d.name]

/-- A name that is defined more than once, with the place of each definition. -/
structure DuplicateGroup where
  /-- The name. -/
  name : String
  /-- The file and the line of each definition. -/
  sites : List (String × Nat)
deriving DecidableEq, Repr

namespace DuplicateGroup

/-- The group of some definitions that agree in name, if there are at least two. -/
def ofMembers? : List Definition → Option DuplicateGroup
  | d :: d' :: more => some ⟨d.name, (d :: d' :: more).map fun d => (d.file, d.start)⟩
  | _ => none

end DuplicateGroup

/-- What the definitions are compared by, in ascending order. -/
def scopeKeys (scope : Scope) (definitions : List Definition) : List (List String) :=
  (Std.ExtTreeSet.ofList (definitions.map scope.key)).toList

/-- The groups of clashing definitions. -/
def duplicateGroups (scope : Scope) (definitions : List Definition) : List DuplicateGroup :=
  (scopeKeys scope definitions).filterMap fun key =>
    DuplicateGroup.ofMembers? (definitions.filter fun d => scope.key d == key)

/-- The names that are defined more than once. -/
def duplicateNames (scope : Scope) (definitions : List Definition) : NameSet :=
  NameSet.ofList ((duplicateGroups scope definitions).map DuplicateGroup.name)

/-- The definitions of some scripts, with the names that clash. -/
structure Summary where
  /-- The definitions, in order. -/
  definitions : List Definition
  /-- The names that are defined more than once. -/
  duplicates : NameSet

/-- The summary of some definitions. -/
def Summary.ofDefinitions (scope : Scope) (definitions : List Definition) : Summary :=
  ⟨definitions, duplicateNames scope definitions⟩

end ShellIndex
