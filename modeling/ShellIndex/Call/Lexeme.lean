import ShellIndex.Text.Blank

set_option autoImplicit false

/-! # Lexemes of masked code

Masked code is cut into words and punctuation; blanks between them vanish. A word is as
long as it can be, and a dollar sign belongs to no word. What later decides about a call is
kept with the lexeme: whether an empty pair of parentheses follows a word, whether a
redirection sign is followed by a parenthesis, and whether a semicolon is doubled.
-/

namespace ShellIndex.Call

open Text

/-- A word or a punctuation mark of masked code. -/
inductive Lexeme where
  /-- A word, with whether an empty pair of parentheses follows it. -/
  | word (text : String) (beforeParens : Bool)
  /-- A dollar sign. -/
  | dollar
  /-- A single semicolon. -/
  | semicolon
  /-- A semicolon directly followed by another one or by an ampersand. -/
  | armEnd
  /-- An ampersand. -/
  | ampersand
  /-- A vertical bar. -/
  | bar
  /-- `<` or `>`, with whether a parenthesis follows directly. -/
  | redirection (ofProcess : Bool)
  /-- An opening parenthesis. -/
  | openParen
  /-- A closing parenthesis. -/
  | closeParen
  /-- An opening brace. -/
  | openBrace
  /-- A closing brace. -/
  | closeBrace
  /-- A single or a double quote. -/
  | quote
  /-- A backquote. -/
  | backquote
deriving DecidableEq, Repr

namespace Lexeme

/-- The punctuation mark `c` when `rest` follows it. -/
def punctuation? (c : Char) (rest : List Char) : Option Lexeme :=
  match c with
  | '$' => some dollar
  | ';' => some (if rest.head? = some ';' ∨ rest.head? = some '&' then armEnd else semicolon)
  | '&' => some ampersand
  | '|' => some bar
  | '<' => some (redirection (rest.head? == some '('))
  | '>' => some (redirection (rest.head? == some '('))
  | '(' => some openParen
  | ')' => some closeParen
  | '{' => some openBrace
  | '}' => some closeBrace
  | '\'' => some quote
  | '"' => some quote
  | '`' => some backquote
  | _ => none

/-- Whether a character belongs to a word. -/
def isWordChar (c : Char) : Bool := !isWordBreak c && (punctuation? c []).isNone

/-- Whether a text starts with an empty pair of parentheses, blanks aside. -/
def startsWithParens (s : List Char) : Bool :=
  match trimStart s with
  | '(' :: inner => (trimStart inner).head? == some ')'
  | _ => false

/-- What the character before belongs to. -/
inductive Place where
  /-- The next character starts a lexeme, if it is no blank. -/
  | between
  /-- The next character may go on with the word. -/
  | inWord
  /-- The next character belongs to the semicolon before it. -/
  | afterArmEnd
deriving DecidableEq, Repr

/-- The lexemes of a text whose first character has the given place. Each character takes
one step; a word is listed at its first character. -/
def listFrom (place : Place) : List Char → List Lexeme
  | [] => []
  | c :: rest =>
      if place = .afterArmEnd then listFrom .between rest
      else if isWordBreak c then listFrom .between rest
      else
        match punctuation? c rest with
        | some armEnd => armEnd :: listFrom .afterArmEnd rest
        | some mark => mark :: listFrom .between rest
        | none =>
            if place = .inWord then listFrom .inWord rest
            else
              word (String.ofList (c :: rest.takeWhile isWordChar))
                  (startsWithParens (rest.dropWhile isWordChar)) ::
                listFrom .inWord rest

/-- The lexemes of masked code. -/
def ofCode (code : List Char) : List Lexeme := listFrom .between code

end Lexeme

end ShellIndex.Call
