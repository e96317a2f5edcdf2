set_option autoImplicit false

/-! # Function definitions

What is recorded about a function that a script defines: its name, the texts of the comment
above it, and the lines it spans.
-/

namespace ShellIndex

/-- A function defined at the top level of a script. Lines are counted from one. -/
structure Definition where
  /-- The name of the function. -/
  name : String
  /-- What the comment above the definition says about the arguments. -/
  arguments : Option String
  /-- What the comment above the definition says about the function. -/
  description : Option String
  /-- The label of the script. -/
  file : String
  /-- The first line of the comment above the definition, or else of the definition. -/
  startBlock : Nat
  /-- The line of the header. -/
  start : Nat
  /-- The line of the brace that closes the body. -/
  stop : Nat
deriving DecidableEq, Repr

namespace Definition

/-- The number of lines from the comment above the definition to the closing brace. -/
def lineCount (d : Definition) : Nat := d.stop - d.startBlock + 1

end Definition

end ShellIndex
