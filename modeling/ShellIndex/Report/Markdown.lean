import ShellIndex.Catalog.Dependencies
import ShellIndex.Duplicates

set_option autoImplicit false

/-! # Markdown reports

Reports for readers. Definitions are listed in a table with one row each, dependencies in
one section for each script. A report is a list of lines, each of which is ended by a line
feed.

Texts from a script are put into table cells: there a vertical bar is escaped and a line
feed becomes a line break of the table.
-/

namespace ShellIndex.Report

/-- A character inside a table cell. -/
def cellChar (c : Char) : List Char :=
  match c with
  | '|' => ['\\', '|']
  | '\n' => ['<', 'b', 'r', '>']
  | _ => [c]

/-- A text inside a table cell. -/
def cell (text : String) : String := String.ofList (text.toList.flatMap cellChar)

/-- A name set as code. -/
def code (name : String) : String := "`" ++ name ++ "`"

/-- The members of a set, set as code. -/
def codeList (names : NameSet) : String := String.intercalate ", " (names.toList.map code)

/-- The lines that a definition spans, with the first line of its comment if it has one. -/
def span (d : Definition) : String :=
  let lines := toString d.start ++ "-" ++ toString d.stop
  if d.startBlock = d.start then lines
  else lines ++ " (doc " ++ toString d.startBlock ++ ")"

/-- A row of the table of definitions. -/
def row (d : Definition) : String :=
  "| " ++ code d.name ++ " | " ++ cell d.file ++ " | " ++ span d ++ " | " ++
    cell (d.arguments.getD "") ++ " | " ++ cell (d.description.getD "") ++ " |"

/-- The head of the table of definitions. -/
def tableHead : List String :=
  ["| Name | File | Lines | Arguments | Description |",
    "|------|------|-------|-----------|-------------|"]

/-- The table of definitions. -/
def table (definitions : List Definition) : List String :=
  if definitions.isEmpty then ["_No functions found._"]
  else tableHead ++ definitions.map row

/-- The section on names that are defined more than once. -/
def duplicatesSection (names : NameSet) : List String :=
  if names.isEmpty then []
  else ["", "## Duplicates", ""] ++ names.toList.map fun name => "- " ++ code name

/-- The lines of the report on some definitions. -/
def summaryLines (summary : Summary) : List String :=
  ["## Functions", ""] ++ table summary.definitions ++ duplicatesSection summary.duplicates

/-- The section on the dependencies of one script. -/
def dependenciesSection (d : Dependencies) : List String :=
  ["## " ++ d.file, ""] ++
    if d.isEmpty then ["_No utility dependencies._"]
    else ["- Files: " ++ codeList d.files, "- Functions: " ++ codeList d.functions]

/-- The lines of the report on the dependencies of some scripts, with an empty line between
two sections. -/
def dependenciesLines (records : List Dependencies) : List String :=
  List.intercalate [""] (records.map dependenciesSection)

/-- The text made of some lines. -/
def ofLines (lines : List String) : String := String.join (lines.map (· ++ "\n"))

/-- The markdown report on some definitions. -/
def markdownSummary (summary : Summary) : String := ofLines (summaryLines summary)

/-- The markdown report on the dependencies of some scripts. -/
def markdownDependencies (records : List Dependencies) : String :=
  ofLines (dependenciesLines records)

end ShellIndex.Report
