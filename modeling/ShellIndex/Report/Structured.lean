import ShellIndex.Catalog.Dependencies
import ShellIndex.Duplicates
import ShellIndex.Json.Printer

set_option autoImplicit false

/-! # Structured reports

Reports for other programs, in JSON. A text that a definition does not have is the empty
string, and a set is the array of its members in ascending order.
-/

namespace ShellIndex.Report

/-- The members of a set. -/
def namesValue (names : NameSet) : Json := .array (names.toList.map Json.text)

/-- A definition. -/
def definitionValue (d : Definition) : Json :=
  .object [("name", .text d.name),
    ("arguments", .text (d.arguments.getD "")),
    ("description", .text (d.description.getD "")),
    ("file", .text d.file),
    ("startBlock", .number d.startBlock),
    ("start", .number d.start),
    ("end", .number d.stop)]

/-- A summary of definitions. -/
def summaryValue (summary : Summary) : Json :=
  .object [("functions", .array (summary.definitions.map definitionValue)),
    ("duplicates", namesValue summary.duplicates)]

/-- What a script depends on. -/
def dependenciesValue (d : Dependencies) : Json :=
  .object [("file", .text d.file),
    ("files", namesValue d.files),
    ("functions", namesValue d.functions)]

/-- The structured report on some definitions. -/
def structuredSummary (summary : Summary) : String := (summaryValue summary).pretty ++ "\n"

/-- The structured report on the dependencies of some scripts. -/
def structuredDependencies (records : List Dependencies) : String :=
  (Json.array (records.map dependenciesValue)).pretty ++ "\n"

end ShellIndex.Report
