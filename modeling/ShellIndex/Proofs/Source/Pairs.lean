import ShellIndex.Source.Reader

set_option autoImplicit false

/-! # Counting pairs of parentheses

The disjoint pairs of a character in a text are counted from the start of each of its runs. A text in
which the character never stands next to itself has none, and any other character cuts the count in
two.
-/

namespace ShellIndex.Source

variable {a c d : Char} {s t : List Char}

theorem countPairs_cons_of_ne (h : a ≠ c) (s : List Char) :
    countPairs c (a :: s) = countPairs c s := by
  cases s with
  | nil => rfl
  | cons b s => rw [countPairs, if_neg fun hpair => h hpair.1]

theorem countPairs_pair (c : Char) (s : List Char) :
    countPairs c (c :: c :: s) = countPairs c s + 1 := by
  rw [countPairs, if_pos ⟨rfl, rfl⟩]

theorem countPairs_cons_of_head?_ne (h : s.head? ≠ some c) (a : Char) :
    countPairs c (a :: s) = countPairs c s := by
  cases s with
  | nil => rfl
  | cons b s =>
      rw [countPairs, if_neg]
      rintro ⟨-, rfl⟩
      exact h rfl

/-- Another character cuts the count in two. -/
theorem countPairs_append_cons (h : d ≠ c) (s t : List Char) :
    countPairs c (s ++ d :: t) = countPairs c s + countPairs c t := by
  fun_induction countPairs c s with
  | case1 a b s hpair ih =>
      obtain ⟨rfl, rfl⟩ := hpair
      rw [List.cons_append, List.cons_append, countPairs_pair, ih, Nat.add_right_comm]
  | case2 a b s hpair ih =>
      rw [List.cons_append, List.cons_append, countPairs, if_neg hpair]
      exact ih
  | case3 s hshort =>
      rw [Nat.zero_add]
      rcases s with _ | ⟨a, _ | ⟨b, s⟩⟩
      · exact countPairs_cons_of_ne h t
      · show countPairs c (a :: d :: t) = countPairs c t
        rw [countPairs_cons_of_head?_ne (by simpa using h), countPairs_cons_of_ne h]
      · exact absurd rfl (hshort a b s)

/-- The character never stands next to itself. -/
def Apart (c : Char) (s : List Char) : Prop := ¬ [c, c] <:+: s

instance (c : Char) (s : List Char) : Decidable (Apart c s) :=
  inferInstanceAs (Decidable (¬ [c, c] <:+: s))

theorem Apart.of_cons (h : Apart c (a :: s)) : Apart c s := fun hpair =>
  h (List.infix_cons hpair)

theorem Apart.of_append (h : Apart c (s ++ t)) : Apart c s := fun hpair =>
  h (hpair.trans (List.prefix_append s t).isInfix)

theorem Apart.reverse (h : Apart c s) : Apart c s.reverse := by
  intro hpair
  rw [show [c, c] = [c, c].reverse from rfl, List.reverse_infix] at hpair
  exact h hpair

theorem Apart.countPairs_eq_zero (h : Apart c s) : countPairs c s = 0 := by
  fun_induction countPairs c s with
  | case1 a b s hpair ih =>
      obtain ⟨rfl, rfl⟩ := hpair
      exact absurd ⟨[], s, rfl⟩ h
  | case2 a b s hpair ih => exact ih h.of_cons
  | case3 s hshort => rfl

/-- A pair counts once even if the character stands next to it on one side. -/
theorem Apart.countPairs_append_pair (h : Apart c s) (ht : t.head? ≠ some c) :
    countPairs c (s ++ c :: c :: t) = countPairs c t + 1 := by
  induction s with
  | nil => exact countPairs_pair c t
  | cons a s ih =>
      rcases s with _ | ⟨b, s⟩
      · by_cases ha : a = c
        · subst ha
          show countPairs a (a :: a :: a :: t) = _
          rw [countPairs_pair, countPairs_cons_of_head?_ne ht]
        · show countPairs c (a :: c :: c :: t) = _
          rw [countPairs_cons_of_ne ha, countPairs_pair]
      · have hpair : ¬ (a = c ∧ b = c) := by
          rintro ⟨rfl, rfl⟩
          exact h ⟨[], s, rfl⟩
        rw [List.cons_append, List.cons_append, countPairs, if_neg hpair]
        exact ih h.of_cons

end ShellIndex.Source
