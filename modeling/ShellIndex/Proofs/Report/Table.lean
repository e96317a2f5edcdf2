import Mathlib.Data.List.Forall2
import ShellIndex.Definition.Extract
import ShellIndex.Proofs.Definition.Names
import ShellIndex.Proofs.Duplicates.Groups
import ShellIndex.Proofs.Report.Bars
import ShellIndex.Proofs.Text.FirstLine

set_option autoImplicit false

/-! # The table of definitions

The report on some definitions has one line for each of them, whatever their texts hold: no cell has a
line feed. A row has five cells, and one more for each bar that a label or a comment has escaped: the
backslash that is put before such a bar escapes the one that stood there, and the bar ends the cell.
-/

namespace ShellIndex.Report

open Text Definition

/-! ## The lines of a report -/

theorem toList_ofLines (ls : List String) :
    (ofLines ls).toList = (ls.map String.toList).flatMap (· ++ ['\n']) := by
  induction ls with
  | nil => rfl
  | cons l ls ih =>
      have hcons : ofLines (l :: ls) = l ++ "\n" ++ ofLines ls := by
        simp [ofLines, String.join_cons]
      rw [hcons, String.toList_append, String.toList_append, ih]
      rfl

/-- A line that a report can have: it has no line feed and does not end in a carriage return, which
would belong to the line's end. -/
def IsLine (l : String) : Prop := '\n' ∉ l.toList ∧ l.toList.getLast? ≠ some '\r'

theorem lines_ofLines {ls : List String} (h : ∀ l ∈ ls, IsLine l) :
    lines (ofLines ls).toList = ls.map String.toList := by
  rw [toList_ofLines, lines_flatMap]
  · rw [List.map_map]
    refine List.map_congr_left fun l hl => ?_
    exact withoutReturn_of_getLast? (h l hl).2
  · intro line hline
    obtain ⟨l, hl, rfl⟩ := List.mem_map.mp hline
    exact (h l hl).1

/-! ## The columns of a definition -/

/-- The cells of a definition. -/
def columns (d : Definition) : List (List Char) :=
  [(code d.name).toList, (cell d.file).toList, (span d).toList,
    (cell (d.arguments.getD "")).toList, (cell (d.description.getD "")).toList]

theorem toList_row (d : Definition) : (row d).toList = rowOf (columns d) := by
  delta row
  simp [rowOf, columns, padded]

theorem toList_code (name : String) : (code name).toList = '`' :: (name.toList ++ ['`']) := by
  simp [code]

theorem not_isNamePart : isNamePart '|' = false ∧ isNamePart '\n' = false := by decide +kernel

/-- What is no part of a name is in the cell of the name only if it is a backquote. -/
theorem not_mem_code {d : Definition} (h : Header.IsName d.name.toList) {c : Char}
    (hc : isNamePart c = false) (hquote : c ≠ '`') : c ∉ (code d.name).toList := by
  rw [toList_code]
  intro hmem
  rcases List.mem_cons.mp hmem with hopen | hmem
  · exact hquote hopen
  rcases List.mem_append.mp hmem with hname | hclose
  · rw [h.plain c hname] at hc
    cases hc
  · exact hquote (List.mem_singleton.mp hclose)

theorem isDigit_of_mem_toString {n : Nat} {c : Char} (h : c ∈ (toString n).toList) :
    c.isDigit = true := by
  rw [Nat.toString_eq_repr, Nat.toList_repr] at h
  exact Nat.isDigit_of_mem_toDigits (by decide) (by decide) h

theorem mem_span {d : Definition} {c : Char} (h : c ∈ (span d).toList) :
    c.isDigit = true ∨ c ∈ "- (doc )".toList := by
  have hdash : ∀ c ∈ "-".toList, c ∈ "- (doc )".toList := by simp
  have hdoc : ∀ c ∈ " (doc ".toList, c ∈ "- (doc )".toList := by simp
  have hclose : ∀ c ∈ ")".toList, c ∈ "- (doc )".toList := by simp
  unfold span at h
  dsimp only at h
  split at h
  · rw [String.toList_append, String.toList_append, List.mem_append, List.mem_append] at h
    rcases h with (h | h) | h
    · exact Or.inl (isDigit_of_mem_toString h)
    · exact Or.inr (hdash c h)
    · exact Or.inl (isDigit_of_mem_toString h)
  · simp only [String.toList_append, List.mem_append] at h
    rcases h with ((((h | h) | h) | h) | h) | h
    · exact Or.inl (isDigit_of_mem_toString h)
    · exact Or.inr (hdash c h)
    · exact Or.inl (isDigit_of_mem_toString h)
    · exact Or.inr (hdoc c h)
    · exact Or.inl (isDigit_of_mem_toString h)
    · exact Or.inr (hclose c h)

theorem not_mem_span {d : Definition} {c : Char} (hdigit : c.isDigit = false)
    (hmarks : c ∉ "- (doc )".toList) : c ∉ (span d).toList := by
  intro h
  rcases mem_span h with h | h
  · rw [h] at hdigit
    cases hdigit
  · exact hmarks h

/-- The bars that separate cells within a row are those that its texts have escaped. -/
theorem sum_bars_columns {d : Definition} (h : Header.IsName d.name.toList) :
    ((columns d).map (bars 0 0)).sum =
      escapedBars d.file + escapedBars (d.arguments.getD "") +
        escapedBars (d.description.getD "") := by
  have hname : bars 0 0 (code d.name).toList = 0 :=
    bars_of_no_bar (not_mem_code h not_isNamePart.1 (by decide))
  have hspan : bars 0 0 (span d).toList = 0 :=
    bars_of_no_bar (not_mem_span (by decide) (by decide))
  simp only [columns, List.map_cons, List.map_nil, List.sum_cons, List.sum_nil, hname, hspan,
    bars_cell]
  omega

theorem isLine_row {d : Definition} (h : Header.IsName d.name.toList) : IsLine (row d) := by
  have hcells : ∀ s ∈ columns d, '\n' ∉ s := by
    intro s hs
    simp only [columns, List.mem_cons, List.not_mem_nil, or_false] at hs
    rcases hs with hs | hs | hs | hs | hs <;> rw [hs]
    · exact not_mem_code h not_isNamePart.2 (by decide)
    · exact no_lineFeed_cell _
    · exact not_mem_span (by decide) (by decide)
    · exact no_lineFeed_cell _
    · exact no_lineFeed_cell _
  constructor
  · rw [toList_row]
    intro hmem
    rcases List.mem_cons.mp hmem with hbar | hmem
    · exact absurd hbar (by decide)
    obtain ⟨s, hs, hmem⟩ := List.mem_flatMap.mp hmem
    have hfeed := hcells s hs
    simp [padded] at hmem
    exact hfeed hmem
  · delta row
    rw [String.toList_append, List.getLast?_append]
    show some '|' ≠ some '\r'
    decide

theorem isLine_name {d : Definition} (h : Header.IsName d.name.toList) :
    IsLine ("- " ++ code d.name) := by
  constructor
  · rw [String.toList_append, List.mem_append, not_or]
    exact ⟨by decide, not_mem_code h not_isNamePart.2 (by decide)⟩
  · rw [code, String.toList_append, String.toList_append, List.getLast?_append,
      List.getLast?_append]
    show some '`' ≠ some '\r'
    decide

/-! ## The report on some scripts -/

theorem isName_of_mem_flatten {scripts : List (String × String)} {found : List (List Definition)}
    (h : List.Forall₂ (fun script ds => Definition.extract script.1 script.2 = .ok ds) scripts found)
    {d : Definition} (hd : d ∈ found.flatten) : Header.IsName d.name.toList := by
  induction h with
  | nil => cases hd
  | cons hextract _ ih =>
      rw [List.flatten_cons] at hd
      rcases List.mem_append.mp hd with hd | hd
      · exact isName_of_extract hextract d hd
      · exact ih hd

theorem exists_of_mem_duplicateNames {scope : Scope} {definitions : List Definition} {name : String}
    (h : name ∈ duplicateNames scope definitions) : ∃ d ∈ definitions, d.name = name := by
  obtain ⟨i, -, d, -, -, hi, -, hname, -⟩ := mem_duplicateNames_iff_positions.mp h
  exact ⟨d, List.mem_of_getElem? hi, hname⟩

theorem isLine_summaryLines {scope : Scope} {definitions : List Definition}
    (h : ∀ d ∈ definitions, Header.IsName d.name.toList) :
    ∀ l ∈ summaryLines (Summary.ofDefinitions scope definitions), IsLine l := by
  have hfixed : ∀ l ∈ ["## Functions", "", "_No functions found._", "## Duplicates"] ++ tableHead,
      IsLine l := by
    simp only [IsLine]
    decide
  intro l hl
  rw [summaryLines, List.mem_append, List.mem_append] at hl
  rcases hl with (hl | hl) | hl
  · exact hfixed l (by simp at hl ⊢; tauto)
  · unfold table at hl
    split at hl
    · exact hfixed l (by simp at hl ⊢; tauto)
    · rcases List.mem_append.mp hl with hl | hl
      · exact hfixed l (List.mem_append_right _ hl)
      · obtain ⟨d, hd, rfl⟩ := List.mem_map.mp hl
        exact isLine_row (h d hd)
  · unfold duplicatesSection at hl
    split at hl
    · cases hl
    · rcases List.mem_append.mp hl with hl | hl
      · exact hfixed l (by simp at hl ⊢; tauto)
      · obtain ⟨name, hname, rfl⟩ := List.mem_map.mp hl
        obtain ⟨d, hd, rfl⟩ := exists_of_mem_duplicateNames (Std.ExtTreeSet.mem_toList.mp hname)
        exact isLine_name (h d hd)

/-- What stands between the outer bars of a row when it is split at its unescaped bars. -/
def IsRow (line : List Char) (cells : List (List Char)) : Prop :=
  parts 0 line = [] :: (cells ++ [[]])

/-- **The report on the definitions in some scripts keeps its shape.** -/
theorem table_keeps_shape (scope : Scope) {scripts : List (String × String)}
    {found : List (List Definition)}
    (h : List.Forall₂ (fun script ds => Definition.extract script.1 script.2 = .ok ds) scripts
      found) :
    lines (markdownSummary (Summary.ofDefinitions scope found.flatten)).toList =
      (["## Functions", ""] ++
        (if found.flatten = [] then ["_No functions found._"]
        else
          ["| Name | File | Lines | Arguments | Description |",
            "|------|------|-------|-----------|-------------|"] ++ found.flatten.map row) ++
        (if (duplicateNames scope found.flatten).toList = [] then []
        else
          ["", "## Duplicates", ""] ++
            (duplicateNames scope found.flatten).toList.map fun name => "- `" ++ name ++ "`")).map
        String.toList ∧
    (duplicateNames scope found.flatten).toList.Pairwise (· < ·) ∧
    ∀ d ∈ found.flatten, ∃ cells, IsRow (row d).toList cells ∧
      cells.length = 5 + (escapedBars d.file + escapedBars (d.arguments.getD "") +
        escapedBars (d.description.getD "")) ∧
      (cells.length = 5 → cells = (columns d).map padded) := by
  have hnames := fun d (hd : d ∈ found.flatten) => isName_of_mem_flatten h hd
  refine ⟨?_, NameSet.pairwise_toList _, fun d hd => ?_⟩
  · have hcode : ∀ name, "- " ++ code name = "- `" ++ name ++ "`" := fun name => by
      rw [code, ← String.append_assoc, ← String.append_assoc]
      rfl
    rw [markdownSummary, lines_ofLines (isLine_summaryLines hnames)]
    simp [summaryLines, table, tableHead, duplicatesSection, Summary.ofDefinitions, hcode]
  · have hsum := sum_bars_columns (hnames d hd)
    have hlength := length_flatMap_parts (columns d)
    rw [hsum] at hlength
    refine ⟨_, (congrArg (parts 0) (toList_row d)).trans (parts_rowOf _), hlength, fun hfive => ?_⟩
    have hnone : ((columns d).map (bars 0 0)).sum = 0 := by
      have hcolumns : (columns d).length = 5 := rfl
      omega
    apply flatMap_parts_of_bars
    intro s hs
    exact List.sum_eq_zero_iff_forall_eq_nat.mp hnone _ (List.mem_map_of_mem hs)

/-! ## A bar behind a backslash

In a comment `a\|b` the bar is escaped. In the table it separates two cells. -/

/-- A script whose comments have bars and backslashes. -/
def documented : String :=
  "# Cuts | and trims\n# Arguments: a\\\\|b\ncut() \x7b :; \x7d\ncut() \x7b :; \x7d\n"

/-- Its definitions when it is labelled `lib|x.sh`. -/
def documentedDefinitions : List Definition :=
  [⟨"cut", some "a\\\\|b", some "Cuts | and trims", "lib|x.sh", 1, 3, 3⟩,
    ⟨"cut", none, none, "lib|x.sh", 4, 4, 4⟩]

theorem table_keeps_shape_of_documented :
    List.Forall₂ (fun script ds => Definition.extract script.1 script.2 = .ok ds)
      [("lib|x.sh", documented)] [documentedDefinitions] ∧
    lines (markdownSummary (Summary.ofDefinitions .perFile documentedDefinitions)).toList =
      ["## Functions", "", "| Name | File | Lines | Arguments | Description |",
        "|------|------|-------|-----------|-------------|",
        "| `cut` | lib\\|x.sh | 3-3 (doc 1) | a\\\\\\|b | Cuts \\| and trims |",
        "| `cut` | lib\\|x.sh | 4-4 |  |  |", "", "## Duplicates", "", "- `cut`"].map
        String.toList ∧
    ∀ d ∈ documentedDefinitions, IsRow (row d).toList ((columns d).map padded) := by
  have hextract : List.Forall₂ (fun script ds => Definition.extract script.1 script.2 = .ok ds)
      [("lib|x.sh", documented)] [documentedDefinitions] := .cons (by decide +kernel) .nil
  obtain ⟨hlines, -, hrows⟩ := table_keeps_shape .perFile hextract
  refine ⟨hextract, hlines.trans (by decide +kernel), fun d hd => ?_⟩
  obtain ⟨cells, hrow, hlength, hcells⟩ := hrows d (by simpa using hd)
  have hbars : ∀ d ∈ documentedDefinitions, escapedBars d.file + escapedBars (d.arguments.getD "") +
      escapedBars (d.description.getD "") = 0 := by decide +kernel
  rw [hbars d hd] at hlength
  rw [← hcells hlength]
  exact hrow

/-- A bar that a comment has escaped makes a sixth cell. -/
theorem escaped_bar_separates :
    ∃ d : Definition, Definition.extract "a.sh" "# a\\|b\nf() \x7b :; \x7d\n" = .ok [d] ∧
      (row d).toList = "| `f` | a.sh | 2-2 (doc 1) |  | a\\\\|b |".toList ∧
      IsRow (row d).toList ([" `f` ", " a.sh ", " 2-2 (doc 1) ", "  ", " a\\\\", "b "].map
        String.toList) := by
  refine ⟨⟨"f", none, some "a\\|b", "a.sh", 1, 2, 2⟩, by decide +kernel, by decide +kernel, ?_⟩
  rw [IsRow]
  decide +kernel

end ShellIndex.Report
