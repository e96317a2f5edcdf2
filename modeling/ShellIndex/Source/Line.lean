import ShellIndex.Text.Blank

set_option autoImplicit false

/-! # Scanned lines

A line of a script together with its masked view: the code that the line holds, in its own
columns, and the comment that ends it.
-/

namespace ShellIndex.Source

open Text

/-- A line of a script. -/
structure Line where
  /-- The number of the line, counted from one. -/
  number : Nat
  /-- The line as it is written. -/
  raw : List Char
  /-- The line with comments, quoted text and here-documents masked. -/
  code : List Char
  /-- What follows the `#` of a comment that starts in code. -/
  comment : Option (List Char)
deriving DecidableEq, Repr

namespace Line

/-- A line that holds a comment and nothing else. -/
def isComment (l : Line) : Bool := l.comment.isSome && allBlank l.code

/-- The first line of a script, when it names the interpreter. -/
def isShebang (l : Line) : Bool := l.number == 1 && ['#', '!'].isPrefixOf l.raw

/-- The text of the comment, without the one space that separates it from the `#` and
without blanks at its end. -/
def commentText (l : Line) : Option (List Char) :=
  l.comment.map fun text => trimEnd (if text.head? == some ' ' then text.tail else text)

end Line

end ShellIndex.Source
