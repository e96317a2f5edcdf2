import ShellIndex.Text.Alphanumeric
import ShellIndex.Text.Blank

set_option autoImplicit false

/-! # Letters and digits among the other characters

A letter or digit of any script is neither blank nor one of the marks that a script is cut at.
Both follow from some gaps between the ranges of letters and digits.
-/

namespace ShellIndex.Text

/-- Ranges of code points without letters and digits. -/
def gaps : List (Nat × Nat) :=
  [(0, 0x2F), (0x3A, 0x40), (0x5B, 0x60), (0x7B, 0xA0), (0x1680, 0x1680), (0x2000, 0x200A),
    (0x2028, 0x2029), (0x202F, 0x202F), (0x205F, 0x205F), (0x3000, 0x3000)]

theorem not_isAlphanumeric_of_gap {c : Char} {gap : Nat × Nat} (hgap : gap ∈ gaps)
    (hlow : gap.1 ≤ c.toNat) (hhigh : c.toNat ≤ gap.2) : isAlphanumeric c = false := by
  -- That no range meets a gap is checked range by range.
  have key : (alphanumericRanges.all fun range =>
      gaps.all fun gap => Nat.blt gap.2 range.1 || Nat.blt range.2 gap.1) = true := by
    decide +kernel
  rw [isAlphanumeric, List.any_eq_false]
  rintro ⟨low, high⟩ hrange
  have happart := List.all_eq_true.mp (List.all_eq_true.mp key _ hrange) gap hgap
  simp only [Bool.or_eq_true, Nat.blt_eq] at happart
  simp only [Bool.and_eq_true, decide_eq_true_eq, not_and, Nat.not_le]
  intro hle
  omega

theorem isBlank_of_isAlphanumeric {c : Char} (h : isAlphanumeric c = true) : isBlank c = false := by
  refine Bool.eq_false_iff.mpr fun hblank => ?_
  have hgap : ∃ gap ∈ gaps, gap.1 ≤ c.toNat ∧ c.toNat ≤ gap.2 := by
    simp only [isBlank, Bool.or_eq_true, Bool.and_eq_true, decide_eq_true_eq, beq_iff_eq] at hblank
    simp only [gaps, List.mem_cons, List.not_mem_nil, or_false, exists_eq_or_imp, exists_eq_left]
    omega
  obtain ⟨gap, hmem, hlow, hhigh⟩ := hgap
  rw [not_isAlphanumeric_of_gap hmem hlow hhigh] at h
  cases h

/-- The marks that a script is cut at. -/
def cutMarks : List Char :=
  ['$', ';', '&', '|', '<', '>', '(', ')', '{', '}', '\'', '"', '`', '\\', '#', '=', '\n', '\r']

theorem ne_of_isAlphanumeric {c : Char} (h : isAlphanumeric c = true) {d : Char}
    (hd : d ∈ cutMarks) : c ≠ d := by
  have key : (cutMarks.all fun d =>
      gaps.any fun gap => Nat.ble gap.1 d.toNat && Nat.ble d.toNat gap.2) = true := by
    decide
  rintro rfl
  obtain ⟨gap, hmem, hgap⟩ := List.any_eq_true.mp (List.all_eq_true.mp key c hd)
  simp only [Bool.and_eq_true, Nat.ble_eq] at hgap
  rw [not_isAlphanumeric_of_gap hmem hgap.1 hgap.2] at h
  cases h

end ShellIndex.Text
