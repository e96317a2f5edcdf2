import ShellIndex.Text.Lines

set_option autoImplicit false

/-! # The first line of a text

A text is its first line and, if a line feed ends it, what stands below. Both halves are given
as functions of the text (`firstLine`, `below?`), so that reading the rest of a line and then
the rest of the text can be stated for the text as a whole.
-/

namespace ShellIndex.Text

/-- What follows the first line feed. -/
def below? (s : List Char) : Option (List Char) :=
  match s.dropWhile (· != '\n') with
  | [] => none
  | _ :: below => some below

/-- The first line of a text, without its end. -/
def firstLine (s : List Char) : List Char :=
  match below? s with
  | none => s
  | some _ => closeLine (s.takeWhile (· != '\n')).reverse

/-- A text is either one line or a line that a line feed ends and what follows it. -/
theorem exists_line (s : List Char) :
    '\n' ∉ s ∨ ∃ line rest, '\n' ∉ line ∧ s = line ++ '\n' :: rest := by
  induction s with
  | nil => exact Or.inl (by simp)
  | cons c s ih =>
      by_cases hc : c = '\n'
      · subst hc
        exact Or.inr ⟨[], s, by simp, rfl⟩
      · rcases ih with h | ⟨line, rest, h, rfl⟩
        · exact Or.inl (by simp [h, Ne.symm hc])
        · exact Or.inr ⟨c :: line, rest, by simp [h, Ne.symm hc], rfl⟩

theorem ne_lineFeed {line : List Char} (h : '\n' ∉ line) (c : Char) (hc : c ∈ line) :
    (c != '\n') = true := by
  have hne : c ≠ '\n' := fun e => h (e ▸ hc)
  simpa using hne

theorem below?_last {line : List Char} (h : '\n' ∉ line) : below? line = none := by
  have hdrop : (line ++ []).dropWhile (· != '\n') = [] :=
    List.dropWhile_append_of_pos (ne_lineFeed h)
  rw [List.append_nil] at hdrop
  rw [below?, hdrop]

theorem below?_line {line : List Char} (h : '\n' ∉ line) (rest : List Char) :
    below? (line ++ '\n' :: rest) = some rest := by
  rw [below?, List.dropWhile_append_of_pos (ne_lineFeed h)]
  simp

theorem firstLine_last {line : List Char} (h : '\n' ∉ line) : firstLine line = line := by
  rw [firstLine, below?_last h]

theorem firstLine_line {line : List Char} (h : '\n' ∉ line) (rest : List Char) :
    firstLine (line ++ '\n' :: rest) = closeLine line.reverse := by
  rw [firstLine, below?_line h, List.takeWhile_append_of_pos (ne_lineFeed h)]
  simp

theorem below?_lineFeed (s : List Char) : below? ('\n' :: s) = some s :=
  @below?_line [] (by simp) s

theorem firstLine_lineFeed (s : List Char) : firstLine ('\n' :: s) = [] :=
  @firstLine_line [] (by simp) s

theorem closeLine_of_no_return {before : List Char} (h : '\r' ∉ before) :
    closeLine before = before.reverse := by
  unfold closeLine
  split
  · simp at h
  · rfl

/-- A line as it is read: a carriage return at its end belongs to the line end. -/
def withoutReturn (line : List Char) : List Char := closeLine line.reverse

theorem withoutReturn_of_getLast? {line : List Char} (h : line.getLast? ≠ some '\r') :
    withoutReturn line = line := by
  rcases List.eq_nil_or_concat line with rfl | ⟨s, c, rfl⟩
  · rfl
  · have hc : c ≠ '\r' := fun e => h (by simp [e])
    rw [List.concat_eq_append, withoutReturn, List.reverse_append]
    show closeLine (c :: s.reverse) = _
    unfold closeLine
    split
    · next e => exact absurd (List.cons.inj e).1 hc
    · simp

theorem withoutReturn_of_no_return {line : List Char} (h : '\r' ∉ line) :
    withoutReturn line = line :=
  withoutReturn_of_getLast? fun hlast => h (List.mem_of_getLast? hlast)

theorem mem_of_mem_withoutReturn {line : List Char} {c : Char} (h : c ∈ withoutReturn line) :
    c ∈ line := by
  unfold withoutReturn closeLine at h
  split at h
  · next before e =>
      rw [← List.mem_reverse, e]
      exact List.mem_cons_of_mem _ (List.mem_reverse.mp h)
  · simpa using h

theorem mem_of_mem_firstLine {s : List Char} {c : Char} (h : c ∈ firstLine s) : c ∈ s := by
  rcases exists_line s with hs | ⟨line, rest, hs, rfl⟩
  · rwa [firstLine_last hs] at h
  · rw [firstLine_line hs] at h
    exact List.mem_append_left _ (mem_of_mem_withoutReturn h)

/-- The lines of a text that is written line by line. -/
theorem lines_flatMap {written : List (List Char)} (h : ∀ line ∈ written, '\n' ∉ line) :
    lines (written.flatMap (· ++ ['\n'])) = written.map withoutReturn := by
  induction written with
  | nil => rfl
  | cons line written ih =>
      have hrest := ih fun l hl => h l (List.mem_cons_of_mem line hl)
      rw [List.flatMap_cons, List.append_assoc, List.singleton_append,
        lines_append_lineFeed line _ (h line (by simp)), hrest, List.map_cons, withoutReturn]

theorem closeLine_append_singleton {c : Char} {before : List Char}
    (h : before = [] → c ≠ '\r') : closeLine (before ++ [c]) = c :: closeLine before := by
  cases before with
  | nil => simp [closeLine, h rfl]
  | cons d before => by_cases hd : d = '\r' <;> simp [closeLine, hd]

theorem below?_cons {c : Char} (hn : c ≠ '\n') (s : List Char) : below? (c :: s) = below? s := by
  rw [below?, below?, List.dropWhile_cons_of_pos (by simpa using hn)]

/-- A character starts the line unless it belongs to the line's end. -/
theorem firstLine_cons {c : Char} {s : List Char} (hn : c ≠ '\n')
    (hr : c = '\r' → s.head? ≠ some '\n') : firstLine (c :: s) = c :: firstLine s := by
  rcases exists_line s with h | ⟨line, rest, h, rfl⟩
  · rw [firstLine_last h, firstLine_last (by simp [h, Ne.symm hn])]
  · rw [← List.cons_append, firstLine_line (by simp [h, Ne.symm hn]), firstLine_line h,
      List.reverse_cons]
    refine closeLine_append_singleton fun e hcr => ?_
    have hline : line = [] := by simpa using e
    exact hr hcr (by simp [hline])

theorem firstLine_append {w : List Char} (hw : ∀ c ∈ w, c ≠ '\n' ∧ c ≠ '\r') (s : List Char) :
    firstLine (w ++ s) = w ++ firstLine s ∧ below? (w ++ s) = below? s := by
  induction w with
  | nil => exact ⟨rfl, rfl⟩
  | cons c w ih =>
      obtain ⟨hn, hr⟩ := hw c (by simp)
      obtain ⟨hline, hbelow⟩ := ih fun d hd => hw d (by simp [hd])
      rw [List.cons_append, below?_cons hn, firstLine_cons hn (fun e => absurd e hr), hline, hbelow]
      exact ⟨rfl, rfl⟩

/-- The character that starts the line starts the text, line ends aside. -/
theorem head?_firstLine {c : Char} (hn : c ≠ '\n') (hr : c ≠ '\r') (s : List Char) :
    (firstLine s).head? = some c ↔ s.head? = some c := by
  cases s with
  | nil => simp [firstLine, below?]
  | cons d s =>
      -- The line is empty if a line end comes first; otherwise it starts as the text does.
      by_cases hdn : d = '\n'
      · rw [hdn, firstLine_lineFeed]
        simpa using Ne.symm hn
      · by_cases hdr : d = '\r' ∧ s.head? = some '\n'
        · obtain ⟨rfl, hs⟩ := hdr
          obtain ⟨s, rfl⟩ : ∃ s', s = '\n' :: s' := by
            cases s with
            | nil => cases hs
            | cons e s => exact ⟨s, by simpa using hs⟩
          have hempty : firstLine ('\r' :: '\n' :: s) = [] := @firstLine_line ['\r'] (by simp) s
          rw [hempty]
          simpa using Ne.symm hr
        · rw [firstLine_cons hdn fun e he => hdr ⟨e, he⟩]
          simp

end ShellIndex.Text
