import ShellIndex.Text.Blank

set_option autoImplicit false

/-! # Here-documents

A here-document operator is `<<WORD` or `<<-WORD`, with inline blanks allowed before the
word. The lines after the operator's line belong to the document, up to and including the
first line that equals the word; with `<<-` the leading tabs of that line are ignored.

Quotes in the word are removed and what they enclose is taken as it is; a backslash outside
quotes is dropped. The word ends at a blank or at an operator character outside quotes.
-/

namespace ShellIndex.Source

open Text

/-- A here-document that has been announced and not yet ended. -/
structure Heredoc where
  /-- The line that ends the document. -/
  delimiter : List Char
  /-- Whether leading tabs of the ending line are ignored. -/
  stripTabs : Bool
deriving DecidableEq, Repr

/-- The characters other than blanks that start a new word of the shell. -/
def isOperator (c : Char) : Bool :=
  c == ';' || c == '&' || c == '|' || c == '(' || c == ')' || c == '<' || c == '>'

/-- Whether a word ends before this character and a comment may start after it. -/
def separatesWords (c : Char) : Bool := isBlank c || isOperator c

namespace Heredoc

/-- Whether a line ends the document. -/
def endsAt (doc : Heredoc) (raw : List Char) : Bool :=
  (if doc.stripTabs then raw.dropWhile (· == '\t') else raw) == doc.delimiter

/-- The delimiter word at the start of a text, without its quotes, and the number of
characters it is written with. The quote that is open, if any, is given. -/
def readWord (quote : Option Char) : List Char → List Char × Nat
  | [] => ([], 0)
  | c :: rest =>
      match quote with
      | some q =>
          if c = q then
            let (word, n) := readWord none rest
            (word, n + 1)
          else
            let (word, n) := readWord quote rest
            (c :: word, n + 1)
      | none =>
          if c = '\'' ∨ c = '"' then
            let (word, n) := readWord (some c) rest
            (word, n + 1)
          else if c = '\\' then
            let (word, n) := readWord none rest
            (word, n + 1)
          else if separatesWords c then ([], 0)
          else
            let (word, n) := readWord none rest
            (c :: word, n + 1)

/-- The here-document announced by the text after `<<`, with the number of characters that
announce it. There is none when the word is empty, as in an arithmetic shift. -/
def read? (s : List Char) : Option (Heredoc × Nat) :=
  let stripTabs := s.head? == some '-'
  let s' := if stripTabs then s.tail else s
  let blanks := s'.takeWhile isInlineBlank
  let (word, n) := readWord none (skipInline s')
  if word.isEmpty then none
  else some (⟨word, stripTabs⟩, (if stripTabs then 1 else 0) + blanks.length + n)

end Heredoc

end ShellIndex.Source
