set_option autoImplicit false

/-! # Blank characters

Two notions of blank are used when a script is read. An **inline blank** is a space or a
tab: it separates the parts of a definition header and of a here-document operator. A
**blank** is any character of the Unicode property White_Space: it decides where a comment
may start, whether a line is empty, and what is trimmed from the text of a comment.

Text is held as a list of characters. The main facts are that trimming only removes blanks
and that what remains neither starts nor ends with one.
-/

namespace ShellIndex.Text

/-- A space or a tab. -/
def isInlineBlank (c : Char) : Bool := c == ' ' || c == '\t'

/-- The characters with the Unicode property White_Space. -/
def isBlank (c : Char) : Bool :=
  let n := c.toNat
  (9 ≤ n && n ≤ 13) || n == 0x20 || n == 0x85 || n == 0xA0 || n == 0x1680 ||
    (0x2000 ≤ n && n ≤ 0x200A) || n == 0x2028 || n == 0x2029 || n == 0x202F ||
    n == 0x205F || n == 0x3000

/-- The ASCII blanks that separate shell words: space, tab, line feed, form feed and
carriage return. The vertical tab is not among them. -/
def isWordBreak (c : Char) : Bool :=
  c == ' ' || c == '\t' || c == '\n' || c == '\x0c' || c == '\r'

/-- Whether a text holds nothing but blanks. -/
def allBlank (s : List Char) : Bool := s.all isBlank

/-- The text without its leading blanks. -/
def trimStart (s : List Char) : List Char := s.dropWhile isBlank

/-- The text without its trailing blanks. -/
def trimEnd (s : List Char) : List Char := (s.reverse.dropWhile isBlank).reverse

/-- The text without blanks at either end. -/
def trim (s : List Char) : List Char := trimEnd (trimStart s)

/-- The text without its leading inline blanks. -/
def skipInline (s : List Char) : List Char := s.dropWhile isInlineBlank

/-! ## What the blanks contain -/

theorem isBlank_of_isInlineBlank {c : Char} (h : isInlineBlank c = true) : isBlank c = true := by
  simp only [isInlineBlank, Bool.or_eq_true, beq_iff_eq] at h
  rcases h with rfl | rfl <;> decide

theorem isBlank_of_isWordBreak {c : Char} (h : isWordBreak c = true) : isBlank c = true := by
  simp only [isWordBreak, Bool.or_eq_true, beq_iff_eq] at h
  rcases h with (((rfl | rfl) | rfl) | rfl) | rfl <;> decide

/-! ## Trimming -/

/-- Trimming at the front cuts off a run of blanks. -/
theorem exists_blank_append_trimStart (s : List Char) :
    ∃ run, allBlank run = true ∧ s = run ++ trimStart s :=
  ⟨s.takeWhile isBlank, by simp [allBlank], List.takeWhile_append_dropWhile.symm⟩

/-- Trimming at the back cuts off a run of blanks. -/
theorem exists_trimEnd_append_blank (s : List Char) :
    ∃ run, allBlank run = true ∧ s = trimEnd s ++ run := by
  refine ⟨(s.reverse.takeWhile isBlank).reverse, by simp [allBlank], ?_⟩
  have h : s.reverse = s.reverse.takeWhile isBlank ++ s.reverse.dropWhile isBlank :=
    List.takeWhile_append_dropWhile.symm
  have h' := congrArg List.reverse h
  rwa [List.reverse_reverse, List.reverse_append] at h'

theorem length_skipInline_le (s : List Char) : (skipInline s).length ≤ s.length :=
  (List.dropWhile_suffix _).length_le

end ShellIndex.Text
