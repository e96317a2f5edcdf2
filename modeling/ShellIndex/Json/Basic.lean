set_option autoImplicit false

/-! # JSON values

The values that a structured report is made of: texts, counts, arrays, and objects with
their fields in order.
-/

namespace ShellIndex

/-- A JSON value without fractions, truth values and null. -/
inductive Json where
  /-- A string. -/
  | text (s : String)
  /-- A number. -/
  | number (n : Nat)
  /-- An array. -/
  | array (items : List Json)
  /-- An object. -/
  | object (fields : List (String × Json))
deriving Repr

end ShellIndex
