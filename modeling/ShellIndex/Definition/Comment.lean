import ShellIndex.Source.Line

set_option autoImplicit false

/-! # The comment above a definition

The comment of a definition is the longest run of comment lines directly above it; the line
that names the interpreter does not belong to it. The first line of the comment that starts
with `Arguments:` (in any case, with or without the plural) ends the description and starts
the text about the arguments.
-/

namespace ShellIndex.Definition

open Text Source

/-- Whether a line can belong to the comment of a definition. -/
def isDocLine (l : Line) : Bool := l.isComment && !l.isShebang

/-- The comment lines directly above a definition, in order; the lines before the
definition are given nearest first. -/
def blockAbove (before : List Line) : List Line := (before.takeWhile isDocLine).reverse

/-- The text after a word that is given in lower case and read in any case. -/
def dropFolded? : List Char → List Char → Option (List Char)
  | [], s => some s
  | _ :: _, [] => none
  | w :: word, c :: s => if c.toLower = w then dropFolded? word s else none

/-- The characters that fold to the letter s, the long s included. -/
def isLetterS (c : Char) : Bool := c == 's' || c == 'S' || c == 'ſ'

/-- The text after the marker `Arguments:` and the inline blanks that follow it. -/
def afterMarker? (text : List Char) : Option (List Char) :=
  match dropFolded? ['a', 'r', 'g', 'u', 'm', 'e', 'n', 't'] (skipInline text) with
  | none => none
  | some rest =>
      let singular := match rest with
        | c :: more => if isLetterS c then more else rest
        | [] => []
      match skipInline singular with
      | ':' :: rest => some (skipInline rest)
      | _ => none

/-- The lines before the first marker, and the text after it with the lines that follow. -/
def splitAtMarker : List (List Char) → List (List Char) × Option (List (List Char))
  | [] => ([], none)
  | text :: texts =>
      match afterMarker? text with
      | some rest => ([], some (rest :: texts))
      | none =>
          let (description, arguments) := splitAtMarker texts
          (text :: description, arguments)

/-- Lines as one text without blanks at its ends; no text if nothing is left. -/
def joinTexts (texts : List (List Char)) : Option String :=
  let text := trim (List.intercalate ['\n'] texts)
  if text.isEmpty then none else some (String.ofList text)

/-- What the comment of a definition says. -/
structure Doc where
  /-- About the function. -/
  description : Option String
  /-- About its arguments. -/
  arguments : Option String
deriving DecidableEq, Repr

namespace Doc

/-- Nothing is said. -/
def none : Doc := ⟨.none, .none⟩

/-- What the texts of some comment lines say. -/
def ofTexts (texts : List (List Char)) : Doc :=
  let (description, arguments) := splitAtMarker texts
  ⟨joinTexts description, arguments.bind joinTexts⟩

/-- What some comment lines say. -/
def ofLines (block : List Line) : Doc := ofTexts (block.filterMap Line.commentText)

end Doc

end ShellIndex.Definition
