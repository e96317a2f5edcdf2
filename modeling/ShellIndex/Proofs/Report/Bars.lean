import Mathlib.Algebra.Ring.Nat
import ShellIndex.Report.Markdown

set_option autoImplicit false

/-! # The bars of a table row

In a table a bar separates two cells unless it is escaped, that is unless it follows an odd number of
backslashes. A line splits at its unescaped bars into its parts (`parts`).

A text that is put into a cell gets a backslash before each of its bars. This escapes those that
follow an even number of backslashes, and unescapes the others: the bars that separate cells in the
cell are the escaped bars of the text (`bars_cellChars`).
-/

namespace ShellIndex.Report

/-! ## Splitting at unescaped bars -/

/-- The number of backslashes in a row behind the character `c`, which stands behind `n` of them. -/
def slashes (n : Nat) (c : Char) : Nat := if c = '\\' then n + 1 else 0

/-- The number of backslashes in a row behind a text that stands behind `n` of them. -/
def slashesAfter (n : Nat) (s : List Char) : Nat := s.foldl slashes n

/-- A character more at the start of the first part. -/
def startWith (c : Char) : List (List Char) → List (List Char)
  | [] => [[c]]
  | part :: more => (c :: part) :: more

/-- The parts of a text between its unescaped bars, when it stands behind `n` backslashes. -/
def parts (n : Nat) : List Char → List (List Char)
  | [] => [[]]
  | c :: s =>
      if c = '|' ∧ n % 2 = 0 then [] :: parts 0 s else startWith c (parts (slashes n c) s)

/-- The number of bars in a text that follow an even number of backslashes (`parity` is zero) or an odd
number (`parity` is one), when the text stands behind `n` of them. -/
def bars (parity n : Nat) : List Char → Nat
  | [] => 0
  | c :: s => (if c = '|' ∧ n % 2 = parity then 1 else 0) + bars parity (slashes n c) s

section
variable {n parity : Nat} {s t : List Char}

theorem slashesAfter_append (n : Nat) (s t : List Char) :
    slashesAfter n (s ++ t) = slashesAfter (slashesAfter n s) t := List.foldl_append

theorem startWith_append {ps : List (List Char)} (h : ps ≠ []) (c : Char) (qs : List (List Char)) :
    startWith c (ps ++ qs) = startWith c ps ++ qs := by
  cases ps with
  | nil => exact absurd rfl h
  | cons p ps => rfl

theorem parts_ne_nil (n : Nat) (s : List Char) : parts n s ≠ [] := by
  cases s with
  | nil => exact List.cons_ne_nil _ _
  | cons c s =>
      rw [parts]
      split
      · exact List.cons_ne_nil _ _
      · cases parts (slashes n c) s <;> exact List.cons_ne_nil _ _

/-- A text splits into one part more than it has unescaped bars. -/
theorem length_parts (n : Nat) (s : List Char) : (parts n s).length = 1 + bars 0 n s := by
  induction s generalizing n with
  | nil => rfl
  | cons c s ih =>
      rw [parts, bars]
      by_cases hbar : c = '|' ∧ n % 2 = 0
      · have hslashes : slashes n c = 0 := by rw [slashes, hbar.1, if_neg (by decide)]
        rw [if_pos hbar, if_pos hbar, List.length_cons, ih, hslashes]
        omega
      · have hlength : ∀ ps : List (List Char), ps ≠ [] → (startWith c ps).length = ps.length := by
          intro ps hps
          cases ps with
          | nil => exact absurd rfl hps
          | cons p ps => rfl
        rw [if_neg hbar, if_neg hbar, hlength _ (parts_ne_nil _ s), ih]
        omega

/-- A text without unescaped bars is one part. -/
theorem parts_of_bars (h : bars 0 n s = 0) : parts n s = [s] := by
  induction s generalizing n with
  | nil => rfl
  | cons c s ih =>
      rw [bars, Nat.add_eq_zero_iff] at h
      have hbar : ¬ (c = '|' ∧ n % 2 = 0) := fun hbar => by
        rw [if_pos hbar] at h
        exact absurd h.1 (by decide)
      rw [parts, if_neg hbar, ih h.2, startWith]

/-- An unescaped bar splits a text in two. -/
theorem parts_append_bar (h : slashesAfter n s % 2 = 0) :
    parts n (s ++ '|' :: t) = parts n s ++ parts 0 t := by
  induction s generalizing n with
  | nil => exact if_pos ⟨rfl, h⟩
  | cons c s ih =>
      rw [List.cons_append, parts, parts]
      by_cases hbar : c = '|' ∧ n % 2 = 0
      · have hslashes : slashes n c = 0 := by rw [slashes, hbar.1, if_neg (by decide)]
        have hrest : slashesAfter (slashes n c) s % 2 = 0 := h
        rw [hslashes] at hrest
        rw [if_pos hbar, if_pos hbar, ih hrest, List.cons_append]
      · rw [if_neg hbar, if_neg hbar, ih h, startWith_append (parts_ne_nil _ s)]

theorem bars_append (parity n : Nat) (s t : List Char) :
    bars parity n (s ++ t) = bars parity n s + bars parity (slashesAfter n s) t := by
  induction s generalizing n with
  | nil => exact (Nat.zero_add _).symm
  | cons c s ih =>
      rw [List.cons_append, bars, bars, ih, Nat.add_assoc]
      rfl

theorem bars_of_no_bar (h : '|' ∉ s) : bars parity n s = 0 := by
  induction s generalizing n with
  | nil => rfl
  | cons c s ih =>
      have hc : c ≠ '|' := fun e => h (e ▸ List.mem_cons_self)
      have hs : '|' ∉ s := fun hmem => h (List.mem_cons_of_mem c hmem)
      rw [bars, if_neg fun hbar => hc hbar.1, ih hs]

end

/-! ## Texts in cells -/

/-- The number of bars in a text that are escaped where it stands. -/
def escapedBars (text : String) : Nat := bars 1 0 text.toList

theorem slashesAfter_cellChar (n : Nat) (c : Char) :
    slashesAfter n (cellChar c) = slashes n c := by
  unfold cellChar
  split
  · rfl
  · rfl
  · rfl

/-- The backslash before a bar changes whether the bar is escaped. -/
theorem bars_cellChar (n : Nat) (c : Char) :
    bars 0 n (cellChar c) = if c = '|' ∧ n % 2 = 1 then 1 else 0 := by
  unfold cellChar
  split
  · have hparity : (n + 1) % 2 = 0 ↔ n % 2 = 1 := by omega
    simp [bars, slashes, hparity]
  · rfl
  · next hbar _ =>
      have hc : c ≠ '|' := hbar
      simp [bars, hc]

/-- In a cell those bars separate cells that the text had escaped. -/
theorem bars_cellChars (n : Nat) (s : List Char) :
    bars 0 n (s.flatMap cellChar) = bars 1 n s := by
  induction s generalizing n with
  | nil => rfl
  | cons c s ih =>
      rw [List.flatMap_cons, bars_append, bars_cellChar, slashesAfter_cellChar, ih, bars]

theorem bars_cell (text : String) : bars 0 0 (cell text).toList = escapedBars text := by
  rw [cell, String.toList_ofList, bars_cellChars, escapedBars]

/-- No cell has a line feed. -/
theorem no_lineFeed_cell (text : String) : '\n' ∉ (cell text).toList := by
  rw [cell, String.toList_ofList, List.mem_flatMap]
  rintro ⟨c, -, hc⟩
  unfold cellChar at hc
  split at hc
  · exact absurd hc (by decide)
  · exact absurd hc (by decide)
  · next hfeed => exact hfeed (List.mem_singleton.mp hc).symm

/-! ## Rows -/

/-- A cell with the spaces around it. -/
def padded (s : List Char) : List Char := ' ' :: (s ++ [' '])

/-- A row with the given cells. -/
def rowOf (cells : List (List Char)) : List Char :=
  '|' :: cells.flatMap fun s => padded s ++ ['|']

theorem slashesAfter_padded (n : Nat) (s : List Char) : slashesAfter n (padded s) = 0 := by
  show slashesAfter (slashes n ' ') (s ++ [' ']) = 0
  rw [slashesAfter_append]
  rfl

/-- The spaces around a cell keep its bars apart from what stands before it. -/
theorem bars_padded (s : List Char) : bars 0 0 (padded s) = bars 0 0 s := by
  have hspace : ∀ n, bars 0 n [' '] = 0 := fun n => bars_of_no_bar (by decide)
  show 0 + bars 0 (slashes 0 ' ') (s ++ [' ']) = bars 0 0 s
  rw [bars_append, hspace, Nat.add_zero, Nat.zero_add]
  rfl

/-- Between its outer bars a row splits into the parts of its cells. -/
theorem parts_rowOf (cells : List (List Char)) :
    parts 0 (rowOf cells) = [] :: (cells.flatMap (fun s => parts 0 (padded s)) ++ [[]]) := by
  have hrest : parts 0 (cells.flatMap fun s => padded s ++ ['|']) =
      cells.flatMap (fun s => parts 0 (padded s)) ++ [[]] := by
    induction cells with
    | nil => rfl
    | cons s cells ih =>
        rw [List.flatMap_cons, List.flatMap_cons, List.append_assoc, List.singleton_append,
          parts_append_bar (by rw [slashesAfter_padded]), ih, List.append_assoc]
  show [] :: parts 0 (cells.flatMap fun s => padded s ++ ['|']) = _
  rw [hrest]

/-- An unescaped bar within a cell makes a cell more. -/
theorem length_flatMap_parts (cells : List (List Char)) :
    (cells.flatMap fun s => parts 0 (padded s)).length =
      cells.length + (cells.map (bars 0 0)).sum := by
  induction cells with
  | nil => rfl
  | cons s cells ih =>
      rw [List.flatMap_cons, List.length_append, ih, length_parts, bars_padded, List.map_cons,
        List.sum_cons, List.length_cons]
      omega

/-- Cells without unescaped bars are the cells of their row. -/
theorem flatMap_parts_of_bars {cells : List (List Char)} (h : ∀ s ∈ cells, bars 0 0 s = 0) :
    (cells.flatMap fun s => parts 0 (padded s)) = cells.map padded := by
  induction cells with
  | nil => rfl
  | cons s cells ih =>
      have hs : bars 0 0 (padded s) = 0 := by rw [bars_padded, h s List.mem_cons_self]
      rw [List.flatMap_cons, parts_of_bars hs, List.map_cons,
        ih fun s' hs' => h s' (List.mem_cons_of_mem s hs'), List.singleton_append]

end ShellIndex.Report
