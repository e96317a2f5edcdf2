import ShellIndex.Text.Alphanumeric
import ShellIndex.Text.Mask
import ShellIndex.Source.Context
import ShellIndex.Source.Heredoc

set_option autoImplicit false

/-! # Reading one line

A line outside here-documents is read character by character. Each character either stays
visible or is masked, and may open or close a context, announce a here-document, or decide
about the characters after it: a backslash about the next one, an operator about the
characters it is written with. A `#` in code that starts a word ends the line with a
comment.

Each character takes exactly one step, so that a statement about a line is proved by
induction on its characters.
-/

namespace ShellIndex.Source

open Text

/-- What the characters read last have decided about the next ones. -/
inductive Owed where
  /-- The next character stands for itself. -/
  | nothing
  /-- The next character follows an escaping backslash. -/
  | escaped
  /-- The next character and `more` after it belong to an operator and stay visible. -/
  | verbatim (more : Nat)
deriving DecidableEq, Repr

/-- A line that has been read up to some character. -/
structure Reader where
  /-- What encloses the next character, innermost first. -/
  contexts : List Context
  /-- The here-documents announced on this line, in order. -/
  heredocs : List Heredoc
  /-- The characters read, nearest first. -/
  before : List Char
  /-- Their masked view, nearest first. -/
  code : List Char
  /-- What is decided about the next character. -/
  owed : Owed
deriving DecidableEq, Repr

/-- The number of disjoint pairs of adjacent `c`. -/
def countPairs (c : Char) : List Char → Nat
  | a :: b :: rest =>
      if a = c ∧ b = c then countPairs c rest + 1 else countPairs c (b :: rest)
  | _ => 0

/-- Whether more `((` than `))` stand in the code of a line, so that `<<` is a shift. -/
def insideArithmetic (code : List Char) : Bool := countPairs ')' code < countPairs '(' code

/-- Whether a single quote after these characters (nearest first) starts `$'…'`: they end
in a dollar sign that is not escaped. -/
def endsInDollar : List Char → Bool
  | '$' :: before => (before.takeWhile (· == '\\')).length % 2 == 0
  | _ => false

namespace Reader

/-- The start of a line that is enclosed by `contexts`. -/
def start (contexts : List Context) : Reader := ⟨contexts, [], [], [], .nothing⟩

/-- Reads a character that stays visible. -/
def keep (r : Reader) (c : Char) : Reader :=
  { r with before := c :: r.before, code := c :: r.code, owed := .nothing }

/-- Reads a character that is masked. -/
def hide (r : Reader) (c : Char) : Reader :=
  { r with before := c :: r.before, code := maskChar c ++ r.code, owed := .nothing }

/-- Whether a comment starts with this character: a `#` in code at the start of a word. -/
def opensComment (r : Reader) (c : Char) : Bool :=
  c == '#' && r.owed == .nothing && readsCode r.contexts &&
    (match r.before with
      | [] => true
      | b :: _ => separatesWords b)

/-- Whether a `<` followed by `rest` starts a here-document operator: it is the first of
exactly two, and no arithmetic is open. -/
def opensHeredoc (r : Reader) (rest : List Char) : Bool :=
  match rest with
  | '<' :: after =>
      after.head? != some '<' && r.before.head? != some '<' && !insideArithmetic r.code
  | _ => false

/-- Reads a here-document operator, of which `rest` follows the first character. -/
def announce (r : Reader) (rest : List Char) : Reader :=
  match Heredoc.read? rest.tail with
  | some (doc, n) =>
      { r.keep '<' with heredocs := r.heredocs ++ [doc], owed := .verbatim n }
  -- The second sign belongs to the operator even if no word follows.
  | none => { r.keep '<' with owed := .verbatim 0 }

/-- Reads a character of code. An escaped letter, digit or underscore stays visible, since
the word it belongs to still names a command. -/
def stepCode (r : Reader) (c : Char) (rest : List Char) : Reader :=
  match c with
  | '\\' => { r.keep c with owed := .escaped }
  | '\'' =>
      { r.keep c with
        contexts := (if endsInDollar r.before then .ansi else .single) :: r.contexts }
  | '"' => { r.keep c with contexts := .double :: r.contexts }
  | '`' => { r.keep c with contexts := closeBackquote r.contexts }
  | '(' => { r.keep c with contexts := openParen r.contexts }
  | ')' => { r.keep c with contexts := closeParen r.contexts }
  | '<' => if r.opensHeredoc rest then r.announce rest else r.keep c
  | _ => r.keep c

/-- Reads a character inside double quotes that stand in `outer`. -/
def stepDouble (r : Reader) (outer : List Context) (c : Char) (rest : List Char) : Reader :=
  match c with
  | '\\' => { r.hide c with owed := .escaped }
  | '"' => { r.keep c with contexts := outer }
  | '$' =>
      if rest.head? == some '(' then
        -- The parenthesis of the substitution itself is not counted.
        { r.keep c with contexts := .substitution 0 :: r.contexts, owed := .verbatim 0 }
      else r.hide c
  | '`' => { r.keep c with contexts := .backquote :: r.contexts }
  | _ => r.hide c

/-- Reads a character inside single quotes that stand in `outer`. -/
def stepSingle (r : Reader) (outer : List Context) (c : Char) : Reader :=
  match c with
  | '\'' => { r.keep c with contexts := outer }
  | _ => r.hide c

/-- Reads a character inside `$'…'` that stands in `outer`. -/
def stepAnsi (r : Reader) (outer : List Context) (c : Char) : Reader :=
  match c with
  | '\\' => { r.hide c with owed := .escaped }
  | '\'' => { r.keep c with contexts := outer }
  | _ => r.hide c

/-- Reads a character about which nothing is decided. -/
def stepFree (r : Reader) (c : Char) (rest : List Char) : Reader :=
  match r.contexts with
  | .double :: outer => r.stepDouble outer c rest
  | .single :: outer => r.stepSingle outer c
  | .ansi :: outer => r.stepAnsi outer c
  | _ => r.stepCode c rest

/-- Reads the character after a backslash. -/
def stepEscaped (r : Reader) (c : Char) : Reader :=
  if readsCode r.contexts && (isAlphanumeric c || c == '_') then r.keep c else r.hide c

/-- Reads the character `c`, which is followed by `rest` and starts no comment. -/
def step (r : Reader) (c : Char) (rest : List Char) : Reader :=
  match r.owed with
  | .nothing => r.stepFree c rest
  | .escaped => r.stepEscaped c
  | .verbatim 0 => r.keep c
  | .verbatim (more + 1) => { r.keep c with owed := .verbatim more }

/-- Reads the rest of a line: the reader at its end, and the comment that ends it. -/
def run (r : Reader) : List Char → Reader × Option (List Char)
  | [] => (r, none)
  | c :: rest =>
      if r.opensComment c then ({ r with code := mask (c :: rest) ++ r.code }, some rest)
      else (r.step c rest).run rest

end Reader

end ShellIndex.Source
