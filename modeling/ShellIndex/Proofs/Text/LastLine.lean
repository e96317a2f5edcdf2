import Mathlib.Data.List.TakeWhile
import ShellIndex.Proofs.Text.FirstLine
import ShellIndex.Text.Blank

set_option autoImplicit false

/-! # The ends of a text

A text is its whole lines and, behind the last line feed, the start of a line (`wholeLines`,
`lastLine`). Blanks aside, what a text starts with does not depend on its end, and what it ends
with not on its start.
-/

namespace ShellIndex.Text

/-! ## The last line of a text -/

/-- The whole lines at the start of a text. -/
def wholeLines (s : List Char) : List Char := (s.reverse.dropWhile (· != '\n')).reverse

/-- What follows the last line feed of a text. -/
def lastLine (s : List Char) : List Char := (s.reverse.takeWhile (· != '\n')).reverse

theorem wholeLines_append_lastLine (s : List Char) : wholeLines s ++ lastLine s = s := by
  rw [wholeLines, lastLine, ← List.reverse_append, List.takeWhile_append_dropWhile,
    List.reverse_reverse]

theorem no_lineFeed_lastLine (s : List Char) : '\n' ∉ lastLine s := by
  intro h
  rw [lastLine, List.mem_reverse] at h
  exact absurd (List.all_eq_true.mp List.all_takeWhile _ h) (by decide)

theorem mem_of_mem_lastLine {s : List Char} {c : Char} (h : c ∈ lastLine s) : c ∈ s := by
  rw [← wholeLines_append_lastLine s]
  exact List.mem_append_right _ h

/-- A text may be cut behind a line feed. -/
theorem linesAfter_append_line (before s t : List Char) :
    linesAfter before (s ++ '\n' :: t) = linesAfter before (s ++ ['\n']) ++ lines t := by
  induction s generalizing before with
  | nil => simp [linesAfter, lines]
  | cons c s ih =>
      rw [List.cons_append, List.cons_append, linesAfter, linesAfter]
      split
      · rw [ih [], List.cons_append]
      · exact ih (c :: before)

theorem lines_wholeLines_append (s t : List Char) :
    lines (wholeLines s ++ t) = lines (wholeLines s) ++ lines t := by
  rw [wholeLines]
  cases h : s.reverse.dropWhile (· != '\n') with
  | nil => rfl
  | cons c rest =>
      have hc : c = '\n' := by
        have hhead := List.head?_dropWhile_not (· != '\n') s.reverse
        rw [h] at hhead
        simpa using hhead
      rw [hc, List.reverse_cons, List.append_assoc]
      exact linesAfter_append_line [] rest.reverse t

theorem mem_of_mem_linesAfter {before s line : List Char} {c : Char}
    (hline : line ∈ linesAfter before s) (hc : c ∈ line) : c ∈ before ∨ c ∈ s := by
  induction s generalizing before with
  | nil =>
      rw [linesAfter] at hline
      split at hline
      · simp at hline
      · obtain rfl := List.mem_singleton.mp hline
        exact Or.inl (List.mem_reverse.mp hc)
  | cons d s ih =>
      rw [linesAfter] at hline
      split at hline
      · rcases List.mem_cons.mp hline with rfl | hline
        · rw [← List.reverse_reverse before] at hc
          exact Or.inl (List.mem_reverse.mp (mem_of_mem_withoutReturn hc))
        · rcases ih hline with h | h
          · simp at h
          · exact Or.inr (List.mem_cons_of_mem d h)
      · rcases ih hline with h | h
        · rcases List.mem_cons.mp h with rfl | h
          · exact Or.inr (by simp)
          · exact Or.inl h
        · exact Or.inr (List.mem_cons_of_mem d h)

theorem no_lineFeed_of_mem_linesAfter {before s line : List Char} (hbefore : '\n' ∉ before)
    (hline : line ∈ linesAfter before s) : '\n' ∉ line := by
  induction s generalizing before with
  | nil =>
      rw [linesAfter] at hline
      split at hline
      · cases hline
      · obtain rfl := List.mem_singleton.mp hline
        simpa using hbefore
  | cons d s ih =>
      rw [linesAfter] at hline
      split at hline
      · rcases List.mem_cons.mp hline with rfl | hline
        · intro hmem
          rw [← List.reverse_reverse before] at hmem
          exact hbefore (List.mem_reverse.mp (mem_of_mem_withoutReturn hmem))
        · exact ih (by simp) hline
      · next hd => exact ih (by simp [hbefore, Ne.symm hd]) hline

/-- Any lines are those of a text. -/
theorem exists_lines_eq {written : List (List Char)} (h : ∀ line ∈ written, '\n' ∉ line) :
    ∃ s, lines s = written := by
  -- A carriage return before each line feed keeps those that a line itself ends in.
  have hended : ∀ line ∈ written.map (· ++ ['\r']), '\n' ∉ line := by
    intro line hline
    obtain ⟨inner, hinner, rfl⟩ := List.mem_map.mp hline
    simpa using h inner hinner
  have hwithout : withoutReturn ∘ (· ++ ['\r']) = id := by
    funext line
    show closeLine (line ++ ['\r']).reverse = line
    rw [List.reverse_append]
    exact List.reverse_reverse line
  refine ⟨_, (lines_flatMap hended).trans ?_⟩
  rw [List.map_map, hwithout, List.map_id]

theorem exists_firstLine_append {t : List Char} (h : '\r' ∉ t) :
    ∃ rest, t = firstLine t ++ rest := by
  rcases exists_line t with ht | ⟨line, rest, ht, rfl⟩
  · exact ⟨[], by rw [firstLine_last ht, List.append_nil]⟩
  · refine ⟨'\n' :: rest, ?_⟩
    have hline : firstLine (line ++ '\n' :: rest) = line := by
      rw [firstLine_line ht, closeLine_of_no_return]
      · exact List.reverse_reverse line
      · exact fun hr => h (List.mem_append_left _ (List.mem_reverse.mp hr))
    rw [hline]

/-! ## Blanks aside -/

theorem trimStart_eq_nil_iff {s : List Char} : trimStart s = [] ↔ allBlank s = true := by
  rw [trimStart, allBlank, List.dropWhile_eq_nil_iff, List.all_eq_true]

theorem trimStart_append_of_allBlank {b : Char} (hb : isBlank b = true) {s : List Char}
    (hs : trimStart s = []) (t : List Char) : trimStart (s ++ b :: t) = trimStart t := by
  have hall : ∀ c ∈ s, isBlank c = true := by simpa [allBlank] using trimStart_eq_nil_iff.mp hs
  rw [trimStart, List.dropWhile_append_of_pos hall, List.dropWhile_cons_of_pos hb]
  rfl

theorem trimStart_append {s v : List Char} {c : Char} (hs : trimStart s = c :: v) (t : List Char) :
    trimStart (s ++ t) = c :: v ++ t := by
  rw [trimStart] at hs ⊢
  simp [List.dropWhile_append, hs]

/-- Blanks aside, a text ends in its last character that is no blank. -/
theorem getLast?_trimEnd_append {c : Char} (hc : isBlank c = false) (s : List Char)
    {t : List Char} (ht : allBlank t = true) : (trimEnd (s ++ c :: t)).getLast? = some c := by
  have hblank : ∀ d ∈ t.reverse, isBlank d = true := by simpa [allBlank] using ht
  have hreverse : (s ++ c :: t).reverse = t.reverse ++ c :: s.reverse := by simp
  rw [trimEnd, hreverse, List.dropWhile_append_of_pos hblank,
    List.dropWhile_cons_of_neg (by simp [hc])]
  simp

theorem head?_trimStart_append {s : List Char} {c : Char} (h : (trimStart s).head? = some c)
    (t : List Char) : (trimStart (s ++ t)).head? = some c := by
  obtain ⟨v, hv⟩ := List.head?_eq_some_iff.mp h
  rw [trimStart_append hv]
  rfl

theorem getLast?_trimEnd_append_left {t : List Char} {c : Char} (h : (trimEnd t).getLast? = some c)
    (s : List Char) : (trimEnd (s ++ t)).getLast? = some c := by
  have hreverse : ∀ u : List Char, (trimEnd u).getLast? = (trimStart u.reverse).head? := by
    intro u
    rw [trimEnd, List.getLast?_reverse]
    rfl
  rw [hreverse] at h ⊢
  rw [List.reverse_append]
  exact head?_trimStart_append h s.reverse

/-! ## Runs of characters -/

/-- A run of characters ends at a character that does not belong to it. -/
theorem takeWhile_append_cons {p : Char → Bool} {b : Char} (hb : p b = false) (s t : List Char) :
    (s ++ b :: t).takeWhile p = s.takeWhile p ∧
      (s ++ b :: t).dropWhile p = s.dropWhile p ++ b :: t := by
  induction s with
  | nil => simp [hb]
  | cons c s ih => cases hc : p c <;> simp [hc, ih]

/-- A run of characters that ends in a text is not changed by what stands behind the text. -/
theorem takeWhile_append_of_getLast? {p : Char → Bool} {s : List Char} (hne : s ≠ [])
    (hlast : ∀ c, s.getLast? = some c → p c = false) (t : List Char) :
    (s ++ t).takeWhile p = s.takeWhile p ∧ (s ++ t).dropWhile p = s.dropWhile p ++ t := by
  obtain ⟨s, c, rfl⟩ := List.eq_nil_or_concat s |>.resolve_left hne
  rw [List.concat_eq_append] at hlast ⊢
  have hc : p c = false := hlast c (by simp)
  rw [List.append_assoc, List.singleton_append]
  obtain ⟨htake, hdrop⟩ := takeWhile_append_cons hc s t
  obtain ⟨htake', hdrop'⟩ := takeWhile_append_cons hc s []
  exact ⟨htake.trans htake'.symm, by rw [hdrop, hdrop', List.append_assoc]; rfl⟩

/-! ## The ends of the first and the last line -/

theorem head?_trimStart_of_firstLine {t : List Char} (ht : '\r' ∉ t) {c : Char}
    (h : (trimStart (firstLine t)).head? = some c) : (trimStart t).head? = some c := by
  obtain ⟨rest, hrest⟩ := exists_firstLine_append ht
  rw [hrest]
  exact head?_trimStart_append h rest

theorem getLast?_trimEnd_of_lastLine {s : List Char} {c : Char}
    (h : (trimEnd (lastLine s)).getLast? = some c) : (trimEnd s).getLast? = some c := by
  rw [← wholeLines_append_lastLine s]
  exact getLast?_trimEnd_append_left h (wholeLines s)

end ShellIndex.Text
