set_option autoImplicit false

/-! # Quoting contexts

What encloses the next character of a script: nothing, a quotation, or a command
substitution inside double quotes. Contexts are kept on a stack, innermost first, which
outlives the end of a line. The empty stack is plain code; a substitution that starts
inside double quotes is code again.

Only substitutions inside double quotes are contexts. In plain code a substitution needs
none, since its text is code already.
-/

namespace ShellIndex.Source

/-- What the next character is enclosed by. -/
inductive Context where
  /-- A `$(` inside double quotes, with the number of parentheses open inside it. -/
  | substitution (parens : Nat)
  /-- A backquote inside double quotes. -/
  | backquote
  /-- Double quotes. -/
  | double
  /-- Single quotes, where a backslash means itself. -/
  | single
  /-- `$'…'`, where a backslash escapes the next character. -/
  | ansi
deriving DecidableEq, Repr

/-- Whether characters enclosed by this stack are code. -/
def readsCode : List Context → Bool
  | [] => true
  | .substitution _ :: _ => true
  | .backquote :: _ => true
  | _ => false

/-- The stack after an opening parenthesis in code. -/
def openParen : List Context → List Context
  | .substitution parens :: outer => .substitution (parens + 1) :: outer
  | contexts => contexts

/-- The stack after a closing parenthesis in code: it ends a substitution all of whose
inner parentheses are closed. -/
def closeParen : List Context → List Context
  | .substitution 0 :: outer => outer
  | .substitution (parens + 1) :: outer => .substitution parens :: outer
  | contexts => contexts

/-- The stack after a backquote in code: it ends a substitution begun by a backquote. -/
def closeBackquote : List Context → List Context
  | .backquote :: outer => outer
  | contexts => contexts

/-- A closing parenthesis undoes the opening one before it. -/
theorem closeParen_openParen (contexts : List Context) :
    closeParen (openParen contexts) = contexts := by
  rcases contexts with _ | ⟨top, outer⟩
  · rfl
  · cases top <;> rfl

end ShellIndex.Source
