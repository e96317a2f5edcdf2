import ShellIndex.Proofs.Definition.Rounds
import ShellIndex.Proofs.Text.Balance

set_option autoImplicit false

/-! # Braces outside parameter expansions

A parameter expansion starts with `${` and ends with the first `}` that ends no expansion inside it;
any other brace in it is text. What is left of the braces of a text when its expansions are taken out
are its block braces (`blockBraces`), and a body goes on until as many of them are closed as have been
opened (`unmatched`).

The reader of bodies keeps two counters instead. In a body they always agree with the text that has
been read since the body was opened (`Braces.Tally`).
-/

namespace ShellIndex.Definition

open Text

/-! ## Block braces -/

/-- The number of expansions open behind a text, when `n` are open before it. -/
def openExpansions : Nat → List Char → Nat
  | n, '$' :: '{' :: s => openExpansions (n + 1) s
  | n, '}' :: s => openExpansions (n - 1) s
  | n, _ :: s => openExpansions n s
  | n, [] => n

/-- The braces of a text that stand outside expansions, when `n` of these are open before it. -/
def blockBraces : Nat → List Char → List Char
  | n, '$' :: '{' :: s => blockBraces (n + 1) s
  | 0, '{' :: s => '{' :: blockBraces 0 s
  | 0, '}' :: s => '}' :: blockBraces 0 s
  | n + 1, '}' :: s => blockBraces n s
  | n, _ :: s => blockBraces n s
  | _, [] => []

/-- The number of block braces open behind a text, the one right before it included, unless it closes
more than are open; `n` expansions are open before it. -/
def unmatched (n : Nat) (s : List Char) : Option Nat := balance '{' '}' 1 (blockBraces n s)

section
variable {n : Nat} {c : Char} {s t : List Char}

theorem getLast?_cons_eq_some_iff {d : Char} : (c :: s).getLast? = some d ↔
    (s = [] ∧ c = d) ∨ s.getLast? = some d := by
  cases s with
  | nil => simp
  | cons e s => simp [List.getLast?_cons_cons]

theorem head?_ne_brace (h : ∀ t, c = '$' → s = '{' :: t → False) : c = '$' → s.head? ≠ some '{' := by
  intro hc hs
  obtain ⟨t, rfl⟩ := List.head?_eq_some_iff.mp hs
  exact h t hc rfl

theorem openExpansions_cons (hopen : c = '$' → s.head? ≠ some '{') (hclose : c ≠ '}') :
    openExpansions n (c :: s) = openExpansions n s := by
  rw [openExpansions]
  · rintro s rfl rfl
    exact hopen rfl rfl
  · exact hclose

/-- Any character but a brace leaves the block braces as they are. -/
theorem blockBraces_cons (hopen : c = '$' → s.head? ≠ some '{') (hclose : c ≠ '}')
    (hblock : n = 0 → c ≠ '{') : blockBraces n (c :: s) = blockBraces n s := by
  rw [blockBraces]
  · rintro s rfl rfl
    exact hopen rfl rfl
  · exact hblock
  · exact fun _ => hclose
  · exact fun _ _ => hclose

theorem head?_append_of_ne_nil (hs : s ≠ []) (t : List Char) : (s ++ t).head? = s.head? := by
  obtain ⟨d, s, rfl⟩ := List.exists_cons_of_ne_nil hs
  rfl

/-- One character more ends an expansion or starts one, or it does neither. -/
theorem openExpansions_append_singleton (n : Nat) (s : List Char) (c : Char) :
    openExpansions n (s ++ [c]) =
      if c = '{' ∧ s.getLast? = some '$' then openExpansions n s + 1
      else if c = '}' then openExpansions n s - 1
      else openExpansions n s := by
  fun_induction openExpansions n s with
  | case1 n s ih =>
      show openExpansions (n + 1) (s ++ [c]) = _
      rw [ih]
      simp [getLast?_cons_eq_some_iff]
  | case2 n s ih =>
      show openExpansions (n - 1) (s ++ [c]) = _
      rw [ih]
      simp [getLast?_cons_eq_some_iff]
  | case3 n d s hdollar hd ih =>
      have hhead := head?_ne_brace hdollar
      by_cases hs : s = []
      · subst hs
        by_cases hstart : d = '$' ∧ c = '{'
        · obtain ⟨rfl, rfl⟩ := hstart
          rfl
        · have hnot : ¬ (c = '{' ∧ d = '$') := fun h => hstart h.symm
          rw [List.cons_append, openExpansions_cons (by simpa using hstart) hd, ih]
          simp [hnot]
      · rw [List.cons_append, openExpansions_cons (by rwa [head?_append_of_ne_nil hs]) hd, ih]
        simp [getLast?_cons_eq_some_iff, hs]
  | case4 n =>
      by_cases hc : c = '}'
      · subst hc
        rfl
      · rw [List.nil_append, openExpansions_cons (by simp) hc]
        simp [hc, openExpansions]

theorem blockBraces_singleton (n : Nat) (c : Char) :
    blockBraces n [c] = if n = 0 ∧ (c = '}' ∨ c = '{') then [c] else [] := by
  cases n with
  | zero =>
      by_cases hopen : c = '{'
      · subst hopen
        rfl
      · by_cases hclose : c = '}'
        · subst hclose
          rfl
        · rw [blockBraces_cons (by simp) hclose fun _ => hopen]
          simp [hopen, hclose, blockBraces]
  | succ n =>
      by_cases hclose : c = '}'
      · subst hclose
        rfl
      · rw [blockBraces_cons (by simp) hclose (by simp)]
        simp [blockBraces]

/-- One character more is a block brace, or it is none. -/
theorem blockBraces_append_singleton (n : Nat) (s : List Char) (c : Char) :
    blockBraces n (s ++ [c]) = blockBraces n s ++
      if openExpansions n s = 0 ∧ (c = '}' ∨ c = '{' ∧ s.getLast? ≠ some '$') then [c] else [] := by
  fun_induction blockBraces n s with
  | case1 n s ih =>
      show blockBraces (n + 1) (s ++ [c]) = _
      rw [ih]
      simp [getLast?_cons_eq_some_iff, openExpansions]
  | case2 s ih =>
      show '{' :: blockBraces 0 (s ++ [c]) = _
      rw [ih]
      simp [getLast?_cons_eq_some_iff, openExpansions]
  | case3 s ih =>
      show '}' :: blockBraces 0 (s ++ [c]) = _
      rw [ih]
      simp [getLast?_cons_eq_some_iff, openExpansions]
  | case4 n s ih =>
      show blockBraces n (s ++ [c]) = _
      rw [ih]
      simp [getLast?_cons_eq_some_iff, openExpansions]
  | case5 n d s hdollar hopen hclose hsucc ih =>
      have hhead := head?_ne_brace hdollar
      have hd : d ≠ '}' := by
        cases n with
        | zero => exact hclose rfl
        | succ n => exact hsucc n rfl
      rw [openExpansions_cons hhead hd]
      -- Only right behind a dollar sign the new character may start an expansion.
      by_cases hs : s = []
      · subst hs
        by_cases hstart : d = '$' ∧ c = '{'
        · obtain ⟨rfl, rfl⟩ := hstart
          simp [blockBraces]
        · have hnot : ¬ (c = '{' ∧ d = '$') := fun h => hstart h.symm
          rw [List.cons_append, blockBraces_cons (by simpa using hstart) hd hopen, ih]
          by_cases hc : c = '{'
          · have hne : d ≠ '$' := fun e => hnot ⟨hc, e⟩
            simp [hne]
          · simp [hc]
      · rw [List.cons_append, blockBraces_cons (by rwa [head?_append_of_ne_nil hs]) hd hopen, ih]
        simp [getLast?_cons_eq_some_iff, hs]
  | case6 n =>
      rw [List.nil_append, blockBraces_singleton]
      simp [openExpansions]

/-- The count of open braces after one character more. -/
theorem unmatched_append_singleton {k : Nat} (h : unmatched n s = some k) (c : Char) :
    unmatched n (s ++ [c]) =
      if openExpansions n s ≠ 0 then some k
      else if c = '{' ∧ s.getLast? ≠ some '$' then some (k + 1)
      else if c = '}' then (if k = 0 then none else some (k - 1))
      else some k := by
  rw [unmatched, blockBraces_append_singleton, balance_append]
  rw [unmatched] at h
  rw [h, Option.bind_some]
  by_cases hn : openExpansions n s = 0
  · by_cases hopen : c = '{' ∧ s.getLast? ≠ some '$'
    · obtain ⟨rfl, hlast⟩ := hopen
      simp [hn, hlast, balance]
    · by_cases hclose : c = '}'
      · subst hclose
        simp [hn, balance]
      · simp [hn, hopen, hclose, balance]
  · simp [hn, balance]

/-- A character of a kind to which no brace and no dollar sign belongs. -/
theorem ne_brace_of_pred {P : Char → Bool} (hP : P '{' = false ∧ P '}' = false ∧ P '$' = false)
    (hc : P c = true) : c ≠ '{' ∧ c ≠ '}' ∧ c ≠ '$' := by
  refine ⟨?_, ?_, ?_⟩
  all_goals
    rintro rfl
    simp [hP] at hc

/-! ## The two counters -/

/-- The braces open in a body agree with the text `body` that has been read since it was opened: at
depth `outer`, with `n` expansions open. -/
structure Braces.Tally (outer n : Nat) (body : List Char) (b : Braces) : Prop where
  expansions_eq : b.expansions = openExpansions n body
  outer_lt : outer < b.depth
  unmatched_eq : unmatched n body = some (b.depth - outer)
  /-- The body has not been closed. -/
  not_closed : ∀ u, u <+: body → unmatched n u ≠ some 0

/-- Whether the next character follows a dollar sign. -/
def afterDollar (s : List Char) : Bool := s.getLast? == some '$'

variable {outer : Nat} {body : List Char} {b : Braces}

theorem afterDollar_append_singleton (s : List Char) (c : Char) :
    afterDollar (s ++ [c]) = (c == '$') := by
  simp [afterDollar]

theorem afterDollar_eq_false_iff : afterDollar s = false ↔ s.getLast? ≠ some '$' := by
  simp [afterDollar]

theorem expansions_step (b : Braces) (s : List Char) (c : Char) (h : b.expansions = openExpansions n s) :
    (b.step (afterDollar s) c).expansions = openExpansions n (s ++ [c]) := by
  rw [openExpansions_append_singleton, ← h]
  unfold Braces.step
  split
  · by_cases hlast : s.getLast? = some '$'
    · simp [afterDollar, hlast]
    · simp only [afterDollar, hlast]
      by_cases hn : b.expansions = 0 <;> simp [hn, hlast]
  · by_cases hn : b.expansions = 0 <;> simp [hn]
  · next hopen hclose =>
      rw [if_neg fun e => hopen e.1, if_neg hclose]

namespace Braces

/-- A brace counts for the depth outside expansions. -/
theorem depth_step (b : Braces) (dollar : Bool) (c : Char) : (b.step dollar c).depth =
    if b.expansions ≠ 0 then b.depth
    else if c = '{' ∧ dollar = false then b.depth + 1
    else if c = '}' then b.depth - 1
    else b.depth := by
  by_cases hopen : c = '{'
  · subst hopen
    cases dollar <;> by_cases hn : b.expansions = 0 <;> simp [step, hn]
  · by_cases hclose : c = '}'
    · subst hclose
      by_cases hn : b.expansions = 0 <;> simp [step, hn]
    · rw [b.step_of_ne dollar hopen hclose]
      simp [hopen, hclose]

theorem Tally.start (outer n : Nat) : Tally outer n [] ⟨outer + 1, n⟩ := by
  refine ⟨rfl, Nat.lt_succ_self outer, ?_, fun u hu => ?_⟩
  · simp [unmatched, blockBraces, balance]
  · obtain rfl := List.prefix_nil.mp hu
    simp [unmatched, blockBraces, balance]

/-- A character closes the body exactly if no block brace is open behind it. -/
theorem Tally.closesBody_iff (h : b.Tally outer n body) (c : Char) :
    b.closesBody (some outer) c = true ↔ unmatched n (body ++ [c]) = some 0 := by
  have hlt := h.outer_lt
  rw [unmatched_append_singleton h.unmatched_eq, ← h.expansions_eq]
  by_cases hn : b.expansions = 0
  · by_cases hclose : c = '}'
    · subst hclose
      have hpos : b.depth - outer ≠ 0 := by omega
      simp only [closesBody, hn, hpos, Option.any_some, beq_self_eq_true, Bool.and_self,
        Bool.true_and, beq_iff_eq, ne_eq, not_true_eq_false, if_false, if_true]
      rw [if_neg (by simp)]
      simp only [Option.some.injEq]
      omega
    · simp only [closesBody, hn, hclose]
      by_cases hopen : c = '{' ∧ body.getLast? ≠ some '$'
      · simp [hopen]
      · simp [hclose, hopen]
        omega
  · simp [closesBody, hn]
    omega

/-- Behind the brace that closes the body the depth is what it was before the body. -/
theorem step_closing {c : Char}
    (hc : b.closesBody (some outer) c = true) (dollar : Bool) :
    c = '}' ∧ b.step dollar c = ⟨outer, 0⟩ := by
  simp only [closesBody, Bool.and_eq_true, beq_iff_eq, Option.any_some] at hc
  obtain ⟨⟨rfl, hn⟩, hdepth⟩ := hc
  refine ⟨rfl, ?_⟩
  simp [step, hn, hdepth]

/-- **A character that does not close the body keeps the count.** -/
theorem Tally.step (h : b.Tally outer n body) {c : Char}
    (hc : b.closesBody (some outer) c = false) :
    (b.step (afterDollar body) c).Tally outer n (body ++ [c]) := by
  have hlt := h.outer_lt
  have hexpansions := expansions_step b body c h.expansions_eq
  have hnot : unmatched n (body ++ [c]) ≠ some 0 := by
    rw [ne_eq, ← h.closesBody_iff c, hc]
    decide
  have hcount : unmatched n (body ++ [c]) = some ((b.step (afterDollar body) c).depth - outer) ∧
      outer < (b.step (afterDollar body) c).depth := by
    rw [unmatched_append_singleton h.unmatched_eq, ← h.expansions_eq, depth_step]
    simp only [← afterDollar_eq_false_iff]
    by_cases hn : b.expansions = 0
    · simp only [hn, ne_eq, not_true_eq_false, if_false]
      split
      · exact ⟨by rw [Nat.sub_add_comm (Nat.le_of_lt hlt)], by omega⟩
      · split
        · next hclose =>
            have hne : b.depth ≠ outer + 1 := by simpa [closesBody, hn, hclose] using hc
            have hpos : b.depth - outer ≠ 0 := by omega
            rw [if_neg hpos, Nat.sub_right_comm]
            exact ⟨rfl, by omega⟩
        · exact ⟨rfl, hlt⟩
    · rw [if_pos hn, if_pos hn]
      exact ⟨rfl, hlt⟩
  refine ⟨hexpansions, hcount.2, hcount.1, fun u hu => ?_⟩
  rcases List.prefix_concat_iff.mp hu with rfl | hu
  · exact hnot
  · exact h.not_closed u hu

end Braces

end

end ShellIndex.Definition
