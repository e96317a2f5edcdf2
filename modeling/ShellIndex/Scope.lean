set_option autoImplicit false

/-! # Scopes of uniqueness

Where the name of a function has to be unique: in its file or in all files together.
-/

namespace ShellIndex

/-- Where a name has to be unique. -/
inductive Scope where
  /-- Within one file. -/
  | perFile
  /-- Within all files together. -/
  | repository
deriving DecidableEq, Repr

/-- A text that names no scope. -/
structure UnknownScope where
  /-- The text. -/
  text : String
deriving DecidableEq, Repr

/-- The wording of the error. -/
def UnknownScope.message (e : UnknownScope) : String :=
  "unknown scope: " ++ e.text ++ ". Use file or repo"

namespace Scope

/-- The scope that a text names, in its short or its long form. -/
def parse (text : String) : Except UnknownScope Scope :=
  if text = "file" ∨ text = "per-file" then .ok perFile
  else if text = "repo" ∨ text = "repository" then .ok repository
  else .error ⟨text⟩

/-- The short form of a scope. -/
def name : Scope → String
  | perFile => "file"
  | repository => "repo"

theorem parse_name (s : Scope) : parse s.name = .ok s := by
  cases s <;> simp [parse, name]

end Scope

end ShellIndex
