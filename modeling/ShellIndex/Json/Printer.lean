import ShellIndex.Json.Basic

set_option autoImplicit false

/-! # Printing JSON

A value is printed over several lines: each item of an array and each field of an object
stands on its own line, indented by two spaces for each level of nesting. An empty array or
object takes no extra line.

In a string, the quote, the backslash and the control characters below U+0020 are escaped,
in the short form where there is one; every other character stands for itself.
-/

namespace ShellIndex.Json

/-- The lower-case hexadecimal digit of a number below sixteen. -/
def hexDigit (n : Nat) : Char := (Nat.toDigits 16 n).headD '0'

/-- A character inside a string. -/
def escapeChar (c : Char) : List Char :=
  match c with
  | '"' => ['\\', '"']
  | '\\' => ['\\', '\\']
  | '\x08' => ['\\', 'b']
  | '\x0c' => ['\\', 'f']
  | '\n' => ['\\', 'n']
  | '\r' => ['\\', 'r']
  | '\t' => ['\\', 't']
  | _ =>
      if c.toNat < 0x20 then
        ['\\', 'u', '0', '0', hexDigit (c.toNat / 16), hexDigit (c.toNat % 16)]
      else [c]

/-- A string with its quotes. -/
def quote (s : List Char) : List Char := '"' :: (s.flatMap escapeChar ++ ['"'])

/-- The start of a new line at a level of nesting. -/
def newLine (level : Nat) : List Char := '\n' :: List.replicate (2 * level) ' '

mutual

/-- A value at a level of nesting. -/
def print (level : Nat) : Json → List Char
  | .text s => quote s.toList
  | .number n => Nat.toDigits 10 n
  | .array [] => ['[', ']']
  | .array (item :: items) =>
      '[' :: (newLine (level + 1) ++ print (level + 1) item ++ printItems (level + 1) items ++
        newLine level ++ [']'])
  | .object [] => ['{', '}']
  | .object ((key, value) :: fields) =>
      '{' :: (newLine (level + 1) ++ quote key.toList ++ [':', ' '] ++
        print (level + 1) value ++ printFields (level + 1) fields ++ newLine level ++ ['}'])

/-- The items of an array after the first. -/
def printItems (level : Nat) : List Json → List Char
  | [] => []
  | item :: items => ',' :: (newLine level ++ print level item ++ printItems level items)

/-- The fields of an object after the first. -/
def printFields (level : Nat) : List (String × Json) → List Char
  | [] => []
  | (key, value) :: fields =>
      ',' :: (newLine level ++ quote key.toList ++ [':', ' '] ++ print level value ++
        printFields level fields)

end

/-- The text of a value. -/
def pretty (value : Json) : String := String.ofList (print 0 value)

end ShellIndex.Json
