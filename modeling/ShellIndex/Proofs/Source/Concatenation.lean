import ShellIndex.Proofs.Text.LastLine
import ShellIndex.Source.Scan

set_option autoImplicit false

/-! # The lines of a text below another

A text that leaves nothing open may stand above any other: the scanned lines are those of the text
above and then those of the text below, numbered on. Only their numbers change, and with the number
the one thing that depends on it, whether a line names the interpreter.
-/

namespace ShellIndex.Source

open Text

/-! ## Lines further down -/

namespace Line

/-- The line with `n` more lines above it. -/
def shift (n : Nat) (l : Line) : Line := { l with number := l.number + n }

@[simp] theorem shift_number (n : Nat) (l : Line) : (l.shift n).number = l.number + n := rfl
@[simp] theorem shift_code (n : Nat) (l : Line) : (l.shift n).code = l.code := rfl

/-- A line that does not name the interpreter does not do so further down. -/
theorem isShebang_shift {l : Line} (hpos : 0 < l.number) (h : l.isShebang = false) (n : Nat) :
    (l.shift n).isShebang = false := by
  refine Bool.eq_false_iff.mpr fun hshift => ?_
  simp only [isShebang, shift, Bool.and_eq_true, beq_iff_eq] at hshift
  have hfirst : l.number = 1 := by omega
  rw [isShebang, hfirst, hshift.2] at h
  cases h

end Line

theorem Open.scan_add (o : Open) (number n : Nat) (raws : List (List Char)) :
    o.scan (number + n) raws = (o.scan number raws).map (Line.shift n) := by
  induction raws generalizing o number with
  | nil => rfl
  | cons raw raws ih =>
      rw [scan, scan, List.map_cons, Nat.add_right_comm, ih]
      rfl

/-- The lines behind the first one have a higher number than the first one. -/
theorem Open.le_number_of_mem_scan {o : Open} {number : Nat} {raws : List (List Char)} {l : Line}
    (hl : l ∈ o.scan number raws) : number ≤ l.number := by
  induction raws generalizing o number with
  | nil => simp [scan] at hl
  | cons raw raws ih =>
      rw [scan] at hl
      rcases List.mem_cons.mp hl with rfl | hl
      · exact Nat.le_refl number
      · exact Nat.le_of_succ_le (ih hl)

theorem isPrefix_of_linesAfter {before s line : List Char} {more : List (List Char)}
    (h : linesAfter before s = line :: more) : line <+: before.reverse ++ s := by
  induction s generalizing before with
  | nil =>
      rw [linesAfter] at h
      split at h
      · cases h
      · obtain ⟨rfl, -⟩ := List.cons.inj h
        exact List.prefix_append _ _
  | cons c s ih =>
      rw [linesAfter] at h
      split at h
      · obtain ⟨rfl, -⟩ := List.cons.inj h
        refine List.IsPrefix.trans ?_ (List.prefix_append _ _)
        unfold closeLine
        split
        · rw [List.reverse_cons]
          exact List.prefix_append _ _
        · exact List.prefix_rfl
      · have hline := ih h
        rwa [List.reverse_cons, List.append_assoc] at hline

/-- Only the first line of a text can name the interpreter, and the text starts with it. -/
theorem isShebang_of_mem_scan {text : String} (h : ¬ ['#', '!'] <+: text.toList) {l : Line}
    (hl : l ∈ scan text) : l.isShebang = false := by
  refine Bool.eq_false_iff.mpr fun hshebang => h ?_
  simp only [Line.isShebang, Bool.and_eq_true, beq_iff_eq, List.isPrefixOf_iff_prefix] at hshebang
  obtain ⟨hfirst, hmark⟩ := hshebang
  rw [scan] at hl
  cases hlines : lines text.toList with
  | nil =>
      rw [hlines] at hl
      cases hl
  | cons raw raws =>
      rw [hlines, Open.scan] at hl
      rcases List.mem_cons.mp hl with rfl | hl
      · exact hmark.trans (isPrefix_of_linesAfter hlines)
      · have hlater := Open.le_number_of_mem_scan hl
        omega

theorem lines_append {s : List Char} (hs : s = [] ∨ s.getLast? = some '\n') (t : List Char) :
    lines (s ++ t) = lines s ++ lines t := by
  rcases hs with rfl | hs
  · rfl
  · obtain ⟨s, rfl⟩ := List.getLast?_eq_some_iff.mp hs
    rw [List.append_assoc]
    exact linesAfter_append_line [] s t

/-- The lines of two texts, of which the first leaves nothing open. -/
theorem scan_append {above : String}
    (hends : above.toList = [] ∨ above.toList.getLast? = some '\n')
    (hclosed : Open.nothing.after (lines above.toList) = Open.nothing) (below : String) :
    scan (above ++ below) =
      scan above ++ (scan below).map (Line.shift (lines above.toList).length) := by
  rw [scan, String.toList_append, lines_append hends, Open.scan_append, hclosed, Open.scan_add]
  rfl

end ShellIndex.Source
