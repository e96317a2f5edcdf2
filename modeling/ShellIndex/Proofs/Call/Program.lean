import ShellIndex.Call.Tracker
import ShellIndex.Proofs.Source.Shows
import ShellIndex.Text.Alphanumeric

set_option autoImplicit false

/-! # Structured programs

Programs of the shell as trees: calls, redirections, groups, subshells, conditionals, loops,
`case` commands and function definitions, joined by separators, with substitutions among the
arguments and inside double quotes. A program is written in one way (`Sequence.text`) and calls
what the tree says (`Sequence.calls`); wrappers, patterns, targets, plain arguments and the names
of definitions are no calls.
-/

namespace ShellIndex.Program

open Text Source

/-! ## Words -/

/-- The words that the shell reserves. -/
def reservedWords : List String :=
  ["!", "[[", "]]", "\x7b", "\x7d", "case", "coproc", "do", "done", "elif", "else", "esac", "fi",
    "for", "function", "if", "in", "select", "then", "time", "until", "while"]

/-- A character of a plain word. -/
def isPlain (c : Char) : Bool :=
  isAlphanumeric c || c == '_' || c == '.' || c == '/' || c == '-'

/-- A word without a meaning of its own. -/
structure PlainWord where
  text : String
  ne_empty : text ≠ ""
  plain : text.toList.all isPlain = true
  unreserved : text ∉ reservedWords ∧ text ∉ Call.wrappers

/-- The name of a command. -/
structure Name extends PlainWord where
  not_option : Call.isOption text = false

/-- An option of a wrapper. -/
structure WrapperOption extends PlainWord where
  is_option : Call.isOption text = true

/-- The name of a variable. -/
structure Variable where
  text : String
  ne_empty : text ≠ ""
  plain : ∀ c ∈ text.toList, isAlphanumeric c = true ∨ c = '_'

/-- A command that runs the command after its options. -/
inductive Wrapper where
  | command
  | exec
  | nohup
  | xargs
deriving DecidableEq, Repr

def Wrapper.text : Wrapper → String
  | .command => "command"
  | .exec => "exec"
  | .nohup => "nohup"
  | .xargs => "xargs"

/-- Text between double quotes that stands for itself. It may hold line feeds. -/
structure Literal where
  text : List Char
  plain : ∀ c ∈ text, c ≠ '"' ∧ c ≠ '\\' ∧ c ≠ '`' ∧ c ≠ '$'

/-- What stands between two commands in a row. -/
inductive Joint where
  | semicolon
  | lineFeed
  | both
  | either
  | pipe
deriving DecidableEq, Repr

def Joint.text : Joint → String
  | .semicolon => "; "
  | .lineFeed => "\n"
  | .both => " && "
  | .either => " || "
  | .pipe => " | "

/-! ## Trees -/

mutual

inductive Command where
  /-- `name arg*`, behind wrappers with their options. -/
  | call (wrapped : List (Wrapper × List WrapperOption)) (name : Name) (args : Arguments)
  /-- `command > word` -/
  | redirect (command : Command) (target : PlainWord)
  /-- `! command` -/
  | negate (command : Command)
  /-- `{ body; }` -/
  | group (body : Sequence)
  /-- `( body )` -/
  | subshell (body : Sequence)
  /-- `if condition; then yes; else no; fi` -/
  | branch (condition yes no : Sequence)
  /-- `while condition; do body; done` -/
  | loop (condition body : Sequence)
  /-- `case subject in arms esac` -/
  | choose (subject : PlainWord) (arms : Arms)
  /-- `function name { body; }` or `name() { body; }` -/
  | define (keyword : Bool) (name : Name) (body : Sequence)

/-- Commands in a row. -/
inductive Sequence where
  | single (command : Command)
  | join (command : Command) (joint : Joint) (rest : Sequence)

inductive Arguments where
  | none
  | more (argument : Argument) (rest : Arguments)

inductive Argument where
  | word (w : PlainWord)
  /-- `$v` -/
  | plainReference (v : Variable)
  /-- `${v}` -/
  | bracedReference (v : Variable)
  /-- `$(inside)` -/
  | substitution (inside : Sequence)
  /-- `"…"` -/
  | quoted (q : Quoted)

/-- What stands between double quotes: literal text, and substitutions `$(inside)` between
pieces of it. -/
inductive Quoted where
  | literal (s : Literal)
  | substitution (s : Literal) (inside : Sequence) (rest : Quoted)

/-- The arms `(pattern|…) body ;;` of a `case` command. The opening parenthesis may be left
out. -/
inductive Arms where
  | none
  | more (opened : Bool) (pattern : PlainWord) (alternatives : List PlainWord) (body : Sequence)
      (rest : Arms)

end

/-! ## Written programs

The written form is given for any way to write literal text, so that it covers the program
itself and its masked view. -/

/-- A wrapper with its options. -/
def wrapperText (w : Wrapper × List WrapperOption) : List Char :=
  w.1.text.toList ++ [' '] ++ w.2.flatMap fun o => o.text.toList ++ [' ']

/-- The start of a definition up to the brace of its body. -/
def headerText (keyword : Bool) (name : Name) : List Char :=
  if keyword then "function ".toList ++ name.text.toList ++ " \x7b ".toList
  else name.text.toList ++ "() \x7b ".toList

/-- The patterns of an arm with the parenthesis that ends them. -/
def patternText (opened : Bool) (pattern : PlainWord) (alternatives : List PlainWord) :
    List Char :=
  (if opened then " (".toList else " ".toList) ++ pattern.text.toList ++
    alternatives.flatMap (fun w => '|' :: w.text.toList) ++ ") ".toList

mutual

def Command.print (write : List Char → List Char) : Command → List Char
  | .call wrapped name args => wrapped.flatMap wrapperText ++ (name.text.toList ++ args.print write)
  | .redirect command target => command.print write ++ (" > ".toList ++ target.text.toList)
  | .negate command => "! ".toList ++ command.print write
  | .group body => "\x7b ".toList ++ (body.print write ++ "; \x7d".toList)
  | .subshell body => "( ".toList ++ (body.print write ++ " )".toList)
  | .branch condition yes no =>
      "if ".toList ++ (condition.print write ++ ("; then ".toList ++ (yes.print write ++
        ("; else ".toList ++ (no.print write ++ "; fi".toList)))))
  | .loop condition body =>
      "while ".toList ++ (condition.print write ++ ("; do ".toList ++ (body.print write ++
        "; done".toList)))
  | .choose subject arms =>
      "case ".toList ++ (subject.text.toList ++ (" in".toList ++ (arms.print write ++
        " esac".toList)))
  | .define keyword name body => headerText keyword name ++ (body.print write ++ "; \x7d".toList)

def Sequence.print (write : List Char → List Char) : Sequence → List Char
  | .single command => command.print write
  | .join command joint rest => command.print write ++ (joint.text.toList ++ rest.print write)

def Arguments.print (write : List Char → List Char) : Arguments → List Char
  | .none => []
  | .more argument rest => [' '] ++ (argument.print write ++ rest.print write)

def Argument.print (write : List Char → List Char) : Argument → List Char
  | .word w => w.text.toList
  | .plainReference v => ['$'] ++ v.text.toList
  | .bracedReference v => "$\x7b".toList ++ (v.text.toList ++ "\x7d".toList)
  | .substitution inside => "$(".toList ++ (inside.print write ++ ")".toList)
  | .quoted q => ['"'] ++ (q.print write ++ ['"'])

def Quoted.print (write : List Char → List Char) : Quoted → List Char
  | .literal s => write s.text
  | .substitution s inside rest =>
      write s.text ++ ("$(".toList ++ (inside.print write ++ (")".toList ++ rest.print write)))

def Arms.print (write : List Char → List Char) : Arms → List Char
  | .none => []
  | .more opened pattern alternatives body rest =>
      patternText opened pattern alternatives ++ (body.print write ++ (" ;;".toList ++
        rest.print write))

end

/-- The text of a program. -/
def Sequence.text (s : Sequence) : List Char := s.print id

/-! ## Calls of programs -/

mutual

def Command.calls : Command → List String
  | .call _ name args => name.text :: args.calls
  | .redirect command _ => command.calls
  | .negate command => command.calls
  | .group body => body.calls
  | .subshell body => body.calls
  | .branch condition yes no => condition.calls ++ (yes.calls ++ no.calls)
  | .loop condition body => condition.calls ++ body.calls
  | .choose _ arms => arms.calls
  | .define _ _ body => body.calls

/-- The commands that a program calls, in the order in which they are written. -/
def Sequence.calls : Sequence → List String
  | .single command => command.calls
  | .join command _ rest => command.calls ++ rest.calls

def Arguments.calls : Arguments → List String
  | .none => []
  | .more argument rest => argument.calls ++ rest.calls

def Argument.calls : Argument → List String
  | .word _ => []
  | .plainReference _ => []
  | .bracedReference _ => []
  | .substitution inside => inside.calls
  | .quoted q => q.calls

def Quoted.calls : Quoted → List String
  | .literal _ => []
  | .substitution _ inside rest => inside.calls ++ rest.calls

def Arms.calls : Arms → List String
  | .none => []
  | .more _ _ _ body rest => body.calls ++ rest.calls

end

/-! ## Listed words

The tracker takes the words that end a conditional or a loop for calls. -/

mutual

def Command.listed : Command → List String
  | .call _ name args => name.text :: args.listed
  | .redirect command _ => command.listed
  | .negate command => command.listed
  | .group body => body.listed
  | .subshell body => body.listed
  | .branch condition yes no => condition.listed ++ (yes.listed ++ (no.listed ++ ["fi"]))
  | .loop condition body => condition.listed ++ (body.listed ++ ["done"])
  | .choose _ arms => arms.listed
  | .define _ _ body => body.listed

/-- The calls of a program with the reserved words that are listed among them. -/
def Sequence.listed : Sequence → List String
  | .single command => command.listed
  | .join command _ rest => command.listed ++ rest.listed

def Arguments.listed : Arguments → List String
  | .none => []
  | .more argument rest => argument.listed ++ rest.listed

def Argument.listed : Argument → List String
  | .word _ => []
  | .plainReference _ => []
  | .bracedReference _ => []
  | .substitution inside => inside.listed
  | .quoted q => q.listed

def Quoted.listed : Quoted → List String
  | .literal _ => []
  | .substitution _ inside rest => inside.listed ++ rest.listed

def Arms.listed : Arms → List String
  | .none => []
  | .more _ _ _ body rest => body.listed ++ rest.listed

end

/-! ## Where `case` may stand

The closing parenthesis of a pattern would end a substitution inside double quotes, so that no
`case` command may stand there. -/

mutual

def Command.Allowed (inQuotes : Bool) : Command → Prop
  | .call _ _ args => args.Allowed inQuotes
  | .redirect command _ => command.Allowed inQuotes
  | .negate command => command.Allowed inQuotes
  | .group body => body.Allowed inQuotes
  | .subshell body => body.Allowed inQuotes
  | .branch condition yes no =>
      condition.Allowed inQuotes ∧ yes.Allowed inQuotes ∧ no.Allowed inQuotes
  | .loop condition body => condition.Allowed inQuotes ∧ body.Allowed inQuotes
  | .choose _ arms => inQuotes = false ∧ arms.Allowed inQuotes
  | .define _ _ body => body.Allowed inQuotes

/-- No `case` command stands in a substitution inside double quotes. -/
def Sequence.Allowed (inQuotes : Bool) : Sequence → Prop
  | .single command => command.Allowed inQuotes
  | .join command _ rest => command.Allowed inQuotes ∧ rest.Allowed inQuotes

def Arguments.Allowed (inQuotes : Bool) : Arguments → Prop
  | .none => True
  | .more argument rest => argument.Allowed inQuotes ∧ rest.Allowed inQuotes

def Argument.Allowed (inQuotes : Bool) : Argument → Prop
  | .word _ => True
  | .plainReference _ => True
  | .bracedReference _ => True
  | .substitution inside => inside.Allowed inQuotes
  | .quoted q => q.Allowed

def Quoted.Allowed : Quoted → Prop
  | .literal _ => True
  | .substitution _ inside rest => inside.Allowed true ∧ rest.Allowed

def Arms.Allowed (inQuotes : Bool) : Arms → Prop
  | .none => True
  | .more _ _ _ body rest => body.Allowed inQuotes ∧ rest.Allowed inQuotes

end

end ShellIndex.Program
