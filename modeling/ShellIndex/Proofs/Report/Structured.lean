import ShellIndex.Proofs.Json.Reader
import ShellIndex.Report.Structured

set_option autoImplicit false

/-! # What a structured report says

The value that a structured report writes is the only one, so the report is taken back from its
text: the definitions in order, with an empty text for one that is absent, and the sets
(`read?_structuredSummary`, `read?_structuredDependencies`). Two reports are the same text only if
they say the same.
-/

namespace ShellIndex

/-! ## Absent texts -/

/-- The definition with an empty text for one that is absent. -/
def Definition.filled (d : Definition) : Definition :=
  { d with arguments := some (d.arguments.getD ""), description := some (d.description.getD "") }

/-- The summary with an empty text for one that is absent. -/
def Summary.filled (summary : Summary) : Summary :=
  { summary with definitions := summary.definitions.map Definition.filled }

theorem NameSet.ofList_toList (names : NameSet) : NameSet.ofList names.toList = names :=
  Std.ExtTreeSet.ext_mem fun name => by rw [NameSet.mem_ofList, Std.ExtTreeSet.mem_toList]

namespace Report

/-! ## Taking values back -/

def textOf? : Json → Option String
  | .text s => some s
  | _ => none

def namesOf? : Json → Option NameSet
  | .array items => (items.mapM textOf?).map NameSet.ofList
  | _ => none

def definitionOf? : Json → Option Definition
  | .object [("name", .text name), ("arguments", .text arguments),
      ("description", .text description), ("file", .text file), ("startBlock", .number startBlock),
      ("start", .number start), ("end", .number stop)] =>
      some ⟨name, some arguments, some description, file, startBlock, start, stop⟩
  | _ => none

def summaryOf? : Json → Option Summary
  | .object [("functions", .array definitions), ("duplicates", duplicates)] =>
      (definitions.mapM definitionOf?).bind fun definitions =>
        (namesOf? duplicates).map fun duplicates => ⟨definitions, duplicates⟩
  | _ => none

def dependenciesOf? : Json → Option Dependencies
  | .object [("file", .text file), ("files", files), ("functions", functions)] =>
      (namesOf? files).bind fun files =>
        (namesOf? functions).map fun functions => ⟨file, files, functions⟩
  | _ => none

def recordsOf? : Json → Option (List Dependencies)
  | .array records => records.mapM dependenciesOf?
  | _ => none

/-- What is taken back from each value is taken back from a list of them. -/
theorem mapM_map_of {α β : Type} {value : α → Json} {of? : Json → Option β} {f : α → β}
    (h : ∀ a, of? (value a) = some (f a)) (as : List α) :
    (as.map value).mapM of? = some (as.map f) := by
  have hpure : of? ∘ value = fun a => pure (f a) := funext h
  rw [List.mapM_map, hpure, List.mapM_pure]
  rfl

theorem namesOf?_namesValue (names : NameSet) : namesOf? (namesValue names) = some names := by
  have htext (name : String) : textOf? (.text name) = some (id name) := rfl
  have hnames : (names.toList.map Json.text).mapM textOf? = some (names.toList.map id) :=
    mapM_map_of htext _
  rw [namesValue, namesOf?, hnames, List.map_id, Option.map_some, NameSet.ofList_toList]

theorem definitionOf?_definitionValue (d : Definition) :
    definitionOf? (definitionValue d) = some d.filled := rfl

theorem summaryOf?_summaryValue (summary : Summary) :
    summaryOf? (summaryValue summary) = some summary.filled := by
  rw [summaryValue, summaryOf?, mapM_map_of definitionOf?_definitionValue, namesOf?_namesValue]
  rfl

theorem dependenciesOf?_dependenciesValue (d : Dependencies) :
    dependenciesOf? (dependenciesValue d) = some (id d) := by
  rw [dependenciesValue, dependenciesOf?, namesOf?_namesValue, namesOf?_namesValue]
  rfl

/-- An absent text is written like an empty one. -/
theorem structuredSummary_filled (summary : Summary) :
    structuredSummary summary.filled = structuredSummary summary := by
  have hdefinitions : summary.filled.definitions.map definitionValue =
      summary.definitions.map definitionValue := by
    rw [Summary.filled, List.map_map]
    rfl
  rw [structuredSummary, structuredSummary, summaryValue, summaryValue, hdefinitions]
  rfl

/-! ## The value of a report -/

open Json.Grammar

/-- A report is the text of its value alone. -/
theorem padded_report_iff {value value' : Json} :
    Padded (value.pretty ++ "\n").toList value' ↔ value' = value := by
  have hspaces : Spaces "\n".toList := by simp [Spaces, isSpace]
  have hvalue : Padded (value.pretty ++ "\n").toList value := by
    rw [String.toList_append]
    exact padded_pretty value hspaces
  constructor
  · intro h
    exact Json.eq_of_padded h hvalue
  · rintro rfl
    exact hvalue

theorem read?_report (value : Json) : Json.read? (value.pretty ++ "\n").toList = some value :=
  Json.read?_of_padded (padded_report_iff.mpr rfl)

theorem read?_structuredSummary (summary : Summary) :
    (Json.read? (structuredSummary summary).toList).bind summaryOf? = some summary.filled := by
  rw [structuredSummary, read?_report, Option.bind_some, summaryOf?_summaryValue]

theorem structuredSummary_eq_iff {summary summary' : Summary} :
    structuredSummary summary = structuredSummary summary' ↔ summary.filled = summary'.filled := by
  constructor
  · intro h
    have hread := read?_structuredSummary summary
    rw [h, read?_structuredSummary summary'] at hread
    exact (Option.some.inj hread).symm
  · intro h
    rw [← structuredSummary_filled, h, structuredSummary_filled]

theorem read?_structuredDependencies (records : List Dependencies) :
    (Json.read? (structuredDependencies records).toList).bind recordsOf? = some records := by
  rw [structuredDependencies, read?_report, Option.bind_some, recordsOf?,
    mapM_map_of dependenciesOf?_dependenciesValue, List.map_id]

theorem structuredDependencies_inj {records records' : List Dependencies} :
    structuredDependencies records = structuredDependencies records' ↔ records = records' := by
  constructor
  · intro h
    have hread := read?_structuredDependencies records
    rw [h, read?_structuredDependencies records'] at hread
    exact (Option.some.inj hread).symm
  · intro h
    rw [h]

/-- **A structured report loses nothing**: its text writes one value, from which everything that the
report is about is read, except that an absent text cannot be told from an empty one. -/
theorem structured_reports_lose_nothing :
    (∀ summary : Summary,
      ∃ value : Json, value = .object
          [("functions", .array (summary.definitions.map fun d => .object
            [("name", .text d.name), ("arguments", .text (d.arguments.getD "")),
              ("description", .text (d.description.getD "")), ("file", .text d.file),
              ("startBlock", .number d.startBlock), ("start", .number d.start),
              ("end", .number d.stop)])),
            ("duplicates", .array (summary.duplicates.toList.map .text))] ∧
        Json.read? (structuredSummary summary).toList = some value ∧
        ∀ value', Padded (structuredSummary summary).toList value' ↔ value' = value) ∧
    (∀ records : List Dependencies,
      ∃ value : Json, value = .array (records.map fun d => .object
          [("file", .text d.file), ("files", .array (d.files.toList.map .text)),
            ("functions", .array (d.functions.toList.map .text))]) ∧
        Json.read? (structuredDependencies records).toList = some value ∧
        ∀ value', Padded (structuredDependencies records).toList value' ↔ value' = value) ∧
    (∀ names : NameSet, names.toList.Pairwise (· < ·) ∧ ∀ name, name ∈ names.toList ↔ name ∈ names) ∧
    (∀ summary summary' : Summary, structuredSummary summary = structuredSummary summary' ↔
      summary.filled = summary'.filled) ∧
    ∀ records records' : List Dependencies,
      structuredDependencies records = structuredDependencies records' ↔ records = records' := by
  refine ⟨fun summary => ⟨summaryValue summary, rfl, read?_report _, fun _ => padded_report_iff⟩,
    fun records => ⟨.array (records.map dependenciesValue), rfl, read?_report _,
      fun _ => padded_report_iff⟩,
    fun names => ⟨names.pairwise_toList, fun _ => Std.ExtTreeSet.mem_toList⟩,
    fun _ _ => structuredSummary_eq_iff, fun _ _ => structuredDependencies_inj⟩

end Report

end ShellIndex
