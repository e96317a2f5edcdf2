import ShellIndex.Proofs.Catalog.NextLine
import ShellIndex.Proofs.Source.Concatenation

set_option autoImplicit false

/-! # Dependencies of a text below another

A part of a script that leaves nothing open (`SelfContained`) may stand above any other: what the
script calls is what the two parts call on their own. Of all that the tracker carries from line to
line only an open `case` command, an open array and a continuation can reach the part below; whether
a command was expected at the end of the part above makes no difference.

Hence the dependencies of a script are the unions of those of its parts, whatever their order.
-/

namespace ShellIndex

open Call Source Text

namespace Call.Tracker

/-- What is carried into a line shows in how the line starts. -/
theorem calls_congr {t t' : Tracker} (h : t.startLine = t'.startLine) (codes : List (List Char)) :
    t.calls codes = t'.calls codes := by
  cases codes with
  | nil => rfl
  | cons code codes => rw [calls, calls, readLine, readLine, h]

/-- Outside of `case` commands and arrays a line that continues no other starts like a script. -/
theorem startLine_eq_start {t : Tracker} (hcases : t.cases = []) (harray : t.inArray = false)
    (hcontinued : t.continued = false) : t.startLine = start.startLine := by
  rw [startLine, hcases, harray, hcontinued, Bool.not_false, Bool.or_true]
  rfl

end Call.Tracker

/-! ## Parts of a script -/

/-- Whole lines of a script that leave nothing open. -/
structure SelfContained (text : String) : Prop where
  ends : text.toList = [] ∨ text.toList.getLast? = some '\n'
  scanned : Open.nothing.after (lines text.toList) = Open.nothing
  cases_eq : (trackerBehind (lines text.toList)).cases = []
  inArray_eq : (trackerBehind (lines text.toList)).inArray = false
  continued_eq : (trackerBehind (lines text.toList)).continued = false

theorem SelfContained.callsOf_append {above : String} (h : SelfContained above) (below : String) :
    callsOf (above ++ below) = callsOf above ++ callsOf below := by
  have hcodes : (scan (above ++ below)).map Line.code =
      (scan above).map Line.code ++ (scan below).map Line.code := by
    rw [scan_append h.ends h.scanned, List.map_append, List.map_map]
    rfl
  have hstart := Tracker.startLine_eq_start h.cases_eq h.inArray_eq h.continued_eq
  rw [callsOf, hcodes, Tracker.calls_append]
  exact congrArg (callsOf above ++ ·) (Tracker.calls_congr hstart _)

/-- The calls of a script in parts are the calls of its parts. -/
theorem callsOf_join {parts : List String} (h : ∀ part ∈ parts, SelfContained part)
    (below : String) :
    callsOf (String.join parts ++ below) = parts.flatMap callsOf ++ callsOf below := by
  induction parts with
  | nil => rw [String.join_nil, String.empty_append, List.flatMap_nil, List.nil_append]
  | cons part parts ih =>
      have hrest := ih fun part' hpart' => h part' (List.mem_cons_of_mem part hpart')
      rw [String.join_cons, String.append_assoc, (h part List.mem_cons_self).callsOf_append, hrest,
        List.flatMap_cons, List.append_assoc]

namespace Catalog
variable (catalog : Catalog) (file : String)

/-! ## Unions -/

/-- Calls of two texts come to the union of what the texts depend on. -/
theorem dependenciesOf_union {text above below : String}
    (h : ∀ n, n ∈ callsOf text ↔ n ∈ callsOf above ∨ n ∈ callsOf below) :
    (catalog.dependenciesOf file text).functions =
        (catalog.dependenciesOf file above).functions ∪
          (catalog.dependenciesOf file below).functions ∧
      (catalog.dependenciesOf file text).files =
        (catalog.dependenciesOf file above).files ∪ (catalog.dependenciesOf file below).files := by
  constructor
  · refine Std.ExtTreeSet.ext_mem fun n => ?_
    simp only [Std.ExtTreeSet.mem_union_iff, mem_functions_dependenciesOf, h, or_and_right]
  · refine Std.ExtTreeSet.ext_mem fun f => ?_
    simp only [Std.ExtTreeSet.mem_union_iff, mem_files_dependenciesOf, h, or_and_right, exists_or,
      and_or_left]

/-- **The dependencies of a script are the unions of those of its parts.** Below a part that leaves
nothing open any text adds its own dependencies. Such parts may therefore be put into another order,
and be repeated, without any change. -/
theorem dependenciesOf_append :
    (∀ above below : String, SelfContained above →
      (catalog.dependenciesOf file (above ++ below)).functions =
          (catalog.dependenciesOf file above).functions ∪
            (catalog.dependenciesOf file below).functions ∧
        (catalog.dependenciesOf file (above ++ below)).files =
          (catalog.dependenciesOf file above).files ∪
            (catalog.dependenciesOf file below).files) ∧
    ∀ (parts parts' : List String) (below : String), (∀ part ∈ parts, SelfContained part) →
      (∀ part, part ∈ parts ↔ part ∈ parts') →
        catalog.dependenciesOf file (String.join parts ++ below) =
          catalog.dependenciesOf file (String.join parts' ++ below) := by
  refine ⟨fun above below habove => ?_, fun parts parts' below hparts hsame => ?_⟩
  · refine catalog.dependenciesOf_union file fun n => ?_
    rw [habove.callsOf_append, List.mem_append]
  · have hparts' : ∀ part ∈ parts', SelfContained part := fun part hpart =>
      hparts part ((hsame part).mpr hpart)
    rw [dependenciesOf_eq_iff]
    intro n f _ _
    rw [callsOf_join hparts, callsOf_join hparts']
    simp only [List.mem_append, List.mem_flatMap, hsame]

/-- A command is expected behind the bar at the end of the first part, but also below any other. -/
theorem dependenciesOf_parts :
    SelfContained "warn x |\n" ∧ SelfContained "run a\n" ∧
      (warnOnly.dependenciesOf "main.sh" ("warn x |\n" ++ "run warn\n")).functions =
        (warnOnly.dependenciesOf "main.sh" "warn x |\n").functions ∪
          (warnOnly.dependenciesOf "main.sh" "run warn\n").functions ∧
      warnOnly.dependenciesOf "main.sh"
          (String.join ["warn x |\n", "run a\n"] ++ "run warn\n") =
        warnOnly.dependenciesOf "main.sh"
          (String.join ["run a\n", "warn x |\n", "run a\n"] ++ "run warn\n") := by
  have hbar : SelfContained "warn x |\n" := by
    constructor <;> decide +kernel
  have hrun : SelfContained "run a\n" := by
    constructor <;> decide +kernel
  obtain ⟨hunion, hparts⟩ := dependenciesOf_append warnOnly "main.sh"
  refine ⟨hbar, hrun, (hunion _ _ hbar).1, hparts _ _ _ ?_ ?_⟩
  · simp [hbar, hrun]
  · simp [or_comm]

end Catalog

end ShellIndex
