set_option autoImplicit false

/-! # Lines of a text

A line ends at a line feed. One carriage return directly before the line feed belongs to
the line's end and not to the line; a carriage return anywhere else is a character of the
line. The text after the last line feed is a line of its own unless it is empty, and it
keeps a carriage return at its end.

The main facts are the two equations of the splitter: a line without a line feed is split
off with its line feed, and what follows is split on its own.
-/

namespace ShellIndex.Text

/-- A line that is given nearest character first, without the carriage return of its end. -/
def closeLine : List Char → List Char
  | '\r' :: before => before.reverse
  | before => before.reverse

/-- The lines of a text of which the characters `before` (nearest first) have been read
since the last line feed. -/
def linesAfter (before : List Char) : List Char → List (List Char)
  | [] => if before.isEmpty then [] else [before.reverse]
  | c :: rest =>
      if c = '\n' then closeLine before :: linesAfter [] rest
      else linesAfter (c :: before) rest

/-- The lines of a text, without their ends. -/
def lines (s : List Char) : List (List Char) := linesAfter [] s

/-! ## Splitting at a line feed -/

theorem linesAfter_append_lineFeed (before line rest : List Char) (h : '\n' ∉ line) :
    linesAfter before (line ++ '\n' :: rest) =
      closeLine (line.reverse ++ before) :: lines rest := by
  induction line generalizing before with
  | nil => simp [linesAfter, lines]
  | cons c line ih =>
      have hc : c ≠ '\n' := fun e => h (by simp [e])
      have hl : '\n' ∉ line := fun e => h (by simp [e])
      simp [linesAfter, hc, ih (c :: before) hl]

/-- A text that starts with a whole line splits into that line and the lines of the rest. -/
theorem lines_append_lineFeed (line rest : List Char) (h : '\n' ∉ line) :
    lines (line ++ '\n' :: rest) = closeLine line.reverse :: lines rest := by
  simpa [lines] using linesAfter_append_lineFeed [] line rest h

/-- A text without a line feed is one line, or none when it is empty. -/
theorem lines_of_no_lineFeed (line : List Char) (h : '\n' ∉ line) :
    lines line = if line.isEmpty then [] else [line] := by
  have key : ∀ before : List Char,
      linesAfter before line =
        if before.isEmpty && line.isEmpty then [] else [before.reverse ++ line] := by
    induction line with
    | nil => intro before; cases before <;> simp [linesAfter]
    | cons c line ih =>
        intro before
        have hc : c ≠ '\n' := fun e => h (by simp [e])
        have hl : '\n' ∉ line := fun e => h (by simp [e])
        simp [linesAfter, hc, ih hl (c :: before)]
  simpa [lines] using key []

end ShellIndex.Text
