import ShellIndex.Catalog.Basic
import ShellIndex.Definition.Error
import ShellIndex.FileTree.Basic
import ShellIndex.Glob.Pattern
import ShellIndex.Report.Format

set_option autoImplicit false

/-! # Failures and warnings

Why a run ends without a report, and what it warns about, with the wording of both.
-/

namespace ShellIndex.Command

/-- Why a run ends without a report. -/
inductive Failure where
  /-- The format of the report is unknown. -/
  | unknownFormat (e : Report.UnknownFormat)
  /-- No scripts are given. -/
  | noInputs
  /-- The directory of the utility scripts does not exist. -/
  | noUtilities (dir : String)
  /-- A pattern is malformed. -/
  | badPattern (pattern : String) (fault : Glob.PatternFault)
  /-- A script cannot be read. -/
  | unreadable (path : String) (fault : PathFault)
  /-- The standard input cannot be read. -/
  | unreadableInput (fault : PathFault)
  /-- A definition is malformed, and malformed definitions are not tolerated. -/
  | malformed (e : ParseError)
  /-- A utility function cannot be put into the catalog. -/
  | badCatalog (e : CatalogError)
  /-- The report cannot be written. -/
  | unwritable (path : String) (fault : PathFault)
deriving DecidableEq, Repr

namespace Failure

/-- What failed. -/
def headline : Failure → String
  | unknownFormat e => e.message
  | noInputs => "no input files given"
  | noUtilities dir => "utility directory not found: " ++ dir
  | badPattern pattern _ => "invalid glob pattern: " ++ pattern
  | unreadable path _ => "failed to read " ++ path
  | unreadableInput _ => "failed to read stdin"
  | malformed _ => "parse failed (--strict)"
  | badCatalog _ => "invalid utility catalog"
  | unwritable path _ => "failed to write " ++ path

/-- What lies behind the failure. -/
def cause? : Failure → Option String
  | badPattern _ fault => some fault.message
  | unreadable _ fault => some fault.message
  | unreadableInput fault => some fault.message
  | malformed e => some e.message
  | badCatalog e => some e.message
  | unwritable _ fault => some fault.message
  | _ => none

/-- A text whose lines after the first are indented like the first. -/
def indent (text : String) : String :=
  String.ofList (text.toList.flatMap fun c => if c = '\n' then "\n    ".toList else [c])

/-- The wording of a failure: what failed, and below it what lies behind. -/
def message (failure : Failure) : String :=
  match failure.cause? with
  | none => failure.headline
  | some cause => failure.headline ++ "\n\nCaused by:\n    " ++ indent cause

end Failure

/-- What a run warns about. -/
inductive Warning where
  /-- A pattern matches no file. -/
  | noMatch (pattern : String)
  /-- A script is skipped, because a definition in it is malformed. -/
  | skipped (label : String) (e : ParseError)
  /-- Names are defined more than once. -/
  | duplicates (scope : Scope) (count : Nat)
deriving DecidableEq, Repr

namespace Warning

/-- What a warning says. -/
def text : Warning → String
  | noMatch pattern => "no files matched: " ++ pattern
  | skipped label e => "skipping " ++ label ++ ": " ++ e.message
  | duplicates scope count =>
      "duplicate function names scope=" ++ scope.name ++ " count=" ++ toString count

/-- A character of a warning as it is shown: the control characters that could steer a
terminal are written as escapes. -/
def shownChar (c : Char) : List Char :=
  let n := c.toNat
  if n = 7 ∨ n = 8 ∨ n = 12 ∨ n = 27 ∨ n = 127 then
    ['\\', 'x', Nat.digitChar (n / 16), Nat.digitChar (n % 16)]
  else if 0x80 ≤ n ∧ n ≤ 0x9F then
    ['\\', 'u', '{'] ++ Nat.toDigits 16 n ++ ['}']
  else [c]

/-- The wording of a warning. -/
def message (warning : Warning) : String :=
  String.ofList (warning.text.toList.flatMap shownChar)

end Warning

end ShellIndex.Command
