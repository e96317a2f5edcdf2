import ShellIndex.Call.Lexeme

set_option autoImplicit false

/-! # Command position

A word is a call when it stands in command position: where the shell expects the name of a
command. The tracker follows the lexemes of a script and knows for each whether it does.
Arguments, the patterns of `case`, the elements of an array, the targets of redirections,
expansions of variables and the names of definition headers are not calls.

Each lexeme takes one step, which may yield one call. Some of what the tracker knows holds
for the line only; the rest is carried from line to line.
-/

namespace ShellIndex.Call

open Text

/-- The part of an open `case` command that is being read. -/
inductive CasePart where
  /-- Between `case` and `in`. -/
  | subject
  /-- The patterns before the body of an arm. -/
  | pattern
  /-- The body of an arm. -/
  | body
deriving DecidableEq, Repr

/-- What is carried from line to line. -/
structure Tracker where
  /-- The open `case` commands, innermost first. -/
  cases : List CasePart
  /-- Whether the next word stands in command position. -/
  atCommand : Bool
  /-- Whether the elements of an array are being read. -/
  inArray : Bool
  /-- Whether the line before ends in a continuation. -/
  continued : Bool
deriving DecidableEq, Repr

/-- What is known within a line. -/
structure Cursor where
  /-- The open `case` commands, innermost first. -/
  cases : List CasePart
  /-- Whether the next word stands in command position. -/
  atCommand : Bool
  /-- Whether the elements of an array are being read. -/
  inArray : Bool
  /-- Whether the next word is the name of an expanded variable. -/
  afterDollar : Bool
  /-- Whether the next word is the name of a definition. -/
  afterFunction : Bool
  /-- Whether a wrapper has been read and its command has not. -/
  afterWrapper : Bool
  /-- Whether the next word is the target of a redirection. -/
  afterRedirection : Bool
  /-- Whether a backquote on this line is open. -/
  inBackquote : Bool
  /-- The lexeme before the next one on this line. -/
  last : Option Lexeme
deriving DecidableEq, Repr

/-! ## Words with a meaning of their own -/

/-- The reserved words after which a command may follow. -/
def keywords : List String :=
  ["if", "then", "else", "elif", "do", "while", "until", "!", "time"]

/-- The commands whose first operand, after options, is itself a command. -/
def wrappers : List String := ["command", "exec", "nohup", "xargs", "trap"]

/-- Whether a word is an option of a command. -/
def isOption (text : String) : Bool := text.toList.head? == some '-'

/-- Whether a word has the form `name=value`, `name+=value` or `name[index]=value`. -/
def isAssignment (text : String) : Bool :=
  let chars := text.toList
  let left := chars.takeWhile (· != '=')
  let target := if left.getLast? = some '+' then left.dropLast else left
  let name := target.takeWhile (· != '[')
  chars.contains '=' && !name.isEmpty && !name.head?.any Char.isDigit &&
    name.all fun c => c.isAlphanum || c == '_'

namespace Cursor

/-! ## Words -/

/-- Reads a word in command position. -/
def command (k : Cursor) (text : String) (defines : Bool) : Cursor × Option String :=
  if text = "case" then
    ({ k with cases := .subject :: k.cases, atCommand := false }, none)
  else if text = "esac" then
    ({ k with cases := k.cases.tail, atCommand := false }, none)
  else if text = "function" then
    ({ k with afterFunction := true }, none)
  else if text ∈ keywords then (k, none)
  else if text ∈ wrappers then ({ k with afterWrapper := true }, none)
  -- The command of a wrapper is still to come.
  else if k.afterWrapper && isOption text then (k, none)
  else if isAssignment text then (k, none)
  -- The name of a definition is no call, and its body starts with a brace.
  else if defines then (k, none)
  else ({ k with afterWrapper := false, atCommand := false }, some text)

/-- Reads a word, given whether it is the name of a variable, the target of a redirection
or the name of a definition. -/
def place (k : Cursor) (text : String) (reference target defines : Bool) :
    Cursor × Option String :=
  if k.inArray || target then (k, none)
  else
    match k.cases with
    | .subject :: outer =>
        if text = "in" then ({ k with cases := .pattern :: outer }, none) else (k, none)
    | .pattern :: outer =>
        if text = "esac" then
          ({ k with cases := outer, atCommand := false }, none)
        else (k, none)
    | _ =>
        if reference || !k.atCommand then ({ k with atCommand := false }, none)
        else k.command text defines

/-- Reads a word. -/
def word (k : Cursor) (text : String) (beforeParens : Bool) : Cursor × Option String :=
  { k with
    afterDollar := false
    afterRedirection := false
    afterFunction := false
    last := some (.word text beforeParens) }.place
    text k.afterDollar k.afterRedirection (k.afterFunction || beforeParens)

/-! ## Punctuation -/

/-- Whether the lexeme before is a redirection sign. -/
def followsRedirection (k : Cursor) : Bool :=
  match k.last with
  | some (.redirection _) => true
  | _ => false

/-- Whether the lexeme before is a word that ends in an equals sign. -/
def followsEquals (k : Cursor) : Bool :=
  match k.last with
  | some (.word text _) => text.toList.getLast? == some '='
  | _ => false

/-- What a punctuation mark means outside arrays and the patterns of `case`. -/
def markInCode (k : Cursor) (mark : Lexeme) : Cursor :=
  match mark with
  | .semicolon | .bar => { k with atCommand := true }
  | .armEnd =>
      match k.cases with
      | .body :: outer => { k with cases := .pattern :: outer, atCommand := true }
      | _ => { k with atCommand := true }
  -- In `>&2` and `<&0` the ampersand belongs to the redirection.
  | .ampersand => if k.followsRedirection then k else { k with atCommand := true }
  | .openParen =>
      if k.followsEquals then { k with inArray := true }
      else if k.last = some .dollar || k.followsRedirection then { k with atCommand := true }
      else k
  | .openBrace =>
      -- The brace behind `name()` opens a body.
      if !k.afterDollar && k.last = some .closeParen then { k with atCommand := true } else k
  | .backquote => { k with inBackquote := !k.inBackquote, atCommand := !k.inBackquote }
  | .quote | .closeParen | .closeBrace => { k with atCommand := false }
  | .redirection _ | .dollar | .word _ _ => k

/-- What a punctuation mark means: inside an array and among the patterns of `case` only
the closing parenthesis counts. -/
def interpret (k : Cursor) (mark : Lexeme) : Cursor :=
  if k.inArray then
    if mark = .closeParen then { k with inArray := false, atCommand := false } else k
  else
    match k.cases with
    | .subject :: _ => k
    | .pattern :: outer =>
        if mark = .closeParen then { k with cases := .body :: outer, atCommand := true } else k
    | _ => k.markInCode mark

/-- Reads a punctuation mark other than the dollar sign. -/
def mark (k : Cursor) (mark : Lexeme) : Cursor :=
  let isRedirection := match mark with
    | .redirection _ => true
    | _ => false
  { k.interpret mark with
    afterDollar := k.afterDollar && mark == .openBrace
    afterRedirection := mark == .redirection false
    afterWrapper := k.afterWrapper && isRedirection
    last := some mark }

/-- Reads a lexeme. The call that it is, if it is one, is returned. -/
def step (k : Cursor) (lexeme : Lexeme) : Cursor × Option String :=
  match lexeme with
  | .word text beforeParens => k.word text beforeParens
  | .dollar => ({ k with afterDollar := true, last := some .dollar }, none)
  | mark => (k.mark mark, none)

/-- Reads some lexemes and returns the calls among them, in order. -/
def run (k : Cursor) : List Lexeme → Cursor × List String
  | [] => (k, [])
  | lexeme :: lexemes =>
      let (k, call) := k.step lexeme
      let (k, calls) := k.run lexemes
      (k, call.toList ++ calls)

end Cursor

namespace Tracker

/-- The start of a script. -/
def start : Tracker := ⟨[], true, false, false⟩

/-- The start of a line, which is in command position unless it continues the line before. -/
def startLine (t : Tracker) : Cursor :=
  { cases := t.cases
    atCommand := t.atCommand || !t.continued
    inArray := t.inArray
    afterDollar := false
    afterFunction := false
    afterWrapper := false
    afterRedirection := false
    inBackquote := false
    last := none }

/-- What is carried over from the end of a line with the given code. -/
def endLine (k : Cursor) (code : List Char) : Tracker :=
  ⟨k.cases, k.atCommand, k.inArray, (trimEnd code).getLast? == some '\\'⟩

/-- Reads the masked code of one line and returns the calls in it. -/
def readLine (t : Tracker) (code : List Char) : Tracker × List String :=
  let (k, calls) := t.startLine.run (Lexeme.ofCode code)
  (endLine k code, calls)

/-- The calls in the masked code of some lines, in order. -/
def calls (t : Tracker) : List (List Char) → List String
  | [] => []
  | code :: codes =>
      let (t, found) := t.readLine code
      found ++ t.calls codes

/-- What is carried over from some lines. -/
def after (t : Tracker) (codes : List (List Char)) : Tracker :=
  codes.foldl (fun t code => (t.readLine code).1) t

/-! ## Reading in two parts -/

theorem calls_append (t : Tracker) (codes codes' : List (List Char)) :
    t.calls (codes ++ codes') = t.calls codes ++ (t.after codes).calls codes' := by
  induction codes generalizing t with
  | nil => rfl
  | cons code codes ih => simp [calls, after, ih]

end Tracker

end ShellIndex.Call
