set_option autoImplicit false

/-! # Counting braces

The depth of a text is the number of block braces open in it. A brace right after a dollar
sign opens a parameter expansion instead, and while expansions are open every closing brace
closes one of them and every other opening brace counts for nothing. A closing brace at
depth zero is ignored.

The body of a function is open as long as the depth stays above the depth at which it was
opened.
-/

namespace ShellIndex.Definition

/-- The braces open at some point of a script. -/
structure Braces where
  /-- The number of open block braces. -/
  depth : Nat
  /-- The number of open parameter expansions. -/
  expansions : Nat
deriving DecidableEq, Repr

namespace Braces

/-- No brace is open at the start of a script. -/
def none : Braces := ⟨0, 0⟩

/-- The braces open after a character, given whether it follows a dollar sign. -/
def step (b : Braces) (afterDollar : Bool) (c : Char) : Braces :=
  match c with
  | '{' =>
      if afterDollar then { b with expansions := b.expansions + 1 }
      else if b.expansions = 0 then { b with depth := b.depth + 1 }
      -- Inside an expansion a lone brace is text.
      else b
  | '}' =>
      if b.expansions = 0 then { b with depth := b.depth - 1 }
      else { b with expansions := b.expansions - 1 }
  | _ => b

/-- Whether a character is the brace that closes a body opened at depth `outer`. -/
def closesBody (b : Braces) (outer : Option Nat) (c : Char) : Bool :=
  c == '}' && b.expansions == 0 && outer.any (fun o => b.depth == o + 1)

/-- Counts the braces of a text up to the one that closes the body opened at depth `outer`,
if there is such a body and such a brace. Returns the open braces there and the text after
that brace. -/
def scan (b : Braces) (outer : Option Nat) (afterDollar : Bool) :
    List Char → Braces × Option (List Char)
  | [] => (b, .none)
  | c :: rest =>
      if b.closesBody outer c then (b.step afterDollar c, some rest)
      else (b.step afterDollar c).scan outer (c == '$') rest

/-- What follows the closing brace is shorter than the text. -/
theorem length_lt_of_scan {b b' : Braces} {outer : Option Nat} {afterDollar : Bool}
    {s rest : List Char} (h : b.scan outer afterDollar s = (b', some rest)) :
    rest.length < s.length := by
  induction s generalizing b afterDollar with
  | nil => simp [scan] at h
  | cons c s ih =>
      rw [scan] at h
      split at h
      · simp only [Prod.mk.injEq, Option.some.injEq] at h
        obtain ⟨_, rfl⟩ := h
        simp
      · have := ih h
        simp only [List.length_cons]
        omega

end Braces

end ShellIndex.Definition
