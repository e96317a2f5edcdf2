import ShellIndex.Proofs.Text.FirstLine

set_option autoImplicit false

/-! # Balanced brackets

The number of open brackets along a text. A text is balanced if it closes no bracket that is not
open, and leaves none open.
-/

namespace ShellIndex.Text

/-- The number of open brackets after a text when `n` are open before it, unless the text
closes a bracket that is not open. -/
def balance (opening closing : Char) (n : Nat) : List Char → Option Nat
  | [] => some n
  | c :: s =>
      if c = opening then balance opening closing (n + 1) s
      else if c = closing then
        if n = 0 then none else balance opening closing (n - 1) s
      else balance opening closing n s

variable {opening closing : Char}

theorem balance_append (n : Nat) (s t : List Char) : balance opening closing n (s ++ t) =
    (balance opening closing n s).bind fun m => balance opening closing m t := by
  induction s generalizing n with
  | nil => rfl
  | cons c s ih =>
      rw [List.cons_append, balance, balance]
      split
      · exact ih _
      · split
        · split
          · rfl
          · exact ih _
        · exact ih _

/-- The line end of a line is no bracket. -/
theorem balance_withoutReturn (hopen : opening ≠ '\r') (hclose : closing ≠ '\r') (n : Nat)
    (line : List Char) :
    balance opening closing n (withoutReturn line) = balance opening closing n line := by
  rcases List.eq_nil_or_concat line with rfl | ⟨s, c, rfl⟩
  · rfl
  · rw [List.concat_eq_append]
    by_cases hc : c = '\r'
    · subst hc
      have hstays : ∀ m, balance opening closing m ['\r'] = some m := by
        intro m
        simp [balance, Ne.symm hopen, Ne.symm hclose]
      have hline : withoutReturn (s ++ ['\r']) = s := by
        rw [withoutReturn, List.reverse_append]
        exact List.reverse_reverse s
      rw [hline, balance_append]
      cases balance opening closing n s with
      | none => rfl
      | some m => exact (hstays m).symm
    · rw [withoutReturn_of_getLast? (by simpa using hc)]

end ShellIndex.Text
