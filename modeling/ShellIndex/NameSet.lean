import Std.Data.ExtTreeSet

set_option autoImplicit false

/-! # Sets of names

A finite set of function names or file labels. Its members are listed in ascending order of
their code points, and two sets with the same members are equal.
-/

namespace ShellIndex

/-- A finite set of names, listed in ascending order. -/
abbrev NameSet := Std.ExtTreeSet String

namespace NameSet

/-- The set of the names in a list. -/
def ofList (names : List String) : NameSet := Std.ExtTreeSet.ofList names

@[simp] theorem mem_ofList {names : List String} {name : String} :
    name ∈ ofList names ↔ name ∈ names := by
  simp [ofList]

/-- The members of a set are listed in ascending order, each once. -/
theorem pairwise_toList (names : NameSet) : names.toList.Pairwise (· < ·) :=
  names.ordered_toList.imp fun h => compareOfLessAndEq_eq_lt.mp h

end NameSet

end ShellIndex
