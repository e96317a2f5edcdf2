set_option autoImplicit false

/-! # Malformed definitions

The ways in which a definition can fail to have a body, and their wording.
-/

namespace ShellIndex

/-- What is wrong with a definition. -/
inductive Fault where
  /-- The header is followed by something other than the brace of a body. -/
  | missingBrace (name : String)
  /-- The script ends before the brace of the body; the header is in line `start`. -/
  | missingBody (name : String) (start : Nat)
  /-- The script ends inside the body; the header is in line `start`. -/
  | unterminatedBody (name : String) (start : Nat)
deriving DecidableEq, Repr

namespace Fault

/-- The wording of a fault. -/
def detail : Fault → String
  | missingBrace name => "expected `\x7b` to open the body of function `" ++ name ++ "`"
  | missingBody name start =>
      "reached end of input before the body of function `" ++ name ++ "` (line " ++
        toString start ++ ")"
  | unterminatedBody name start =>
      "unterminated body of function `" ++ name ++ "` starting at line " ++ toString start

end Fault

/-- A fault at a line of a script. -/
structure ParseError where
  /-- The label of the script. -/
  file : String
  /-- The line where the fault shows. -/
  line : Nat
  /-- What is wrong. -/
  fault : Fault
deriving DecidableEq, Repr

namespace ParseError

/-- The wording of a fault with its place. -/
def message (e : ParseError) : String :=
  e.file ++ ":" ++ toString e.line ++ ": " ++ e.fault.detail

end ParseError

end ShellIndex
