import ShellIndex.Report.Markdown
import ShellIndex.Report.Structured

set_option autoImplicit false

/-! # Report formats

The formats in which a report can be written, and their names.
-/

namespace ShellIndex.Report

/-- A format of reports. -/
inductive Format where
  /-- For readers. -/
  | markdown
  /-- For other programs. -/
  | json
deriving DecidableEq, Repr

/-- A text that names no format. -/
structure UnknownFormat where
  /-- The text. -/
  text : String
deriving DecidableEq, Repr

/-- The wording of the error. -/
def UnknownFormat.message (e : UnknownFormat) : String :=
  "unknown format: " ++ e.text ++ ". Use markdown or json"

namespace Format

/-- The format that a text names. -/
def parse (text : String) : Except UnknownFormat Format :=
  if text = "markdown" ∨ text = "md" then .ok markdown
  else if text = "json" then .ok json
  else .error ⟨text⟩

/-- The report on some definitions. -/
def summary : Format → Summary → String
  | markdown => markdownSummary
  | json => structuredSummary

/-- The report on the dependencies of some scripts. -/
def dependencies : Format → List Dependencies → String
  | markdown => markdownDependencies
  | json => structuredDependencies

end Format

end ShellIndex.Report
