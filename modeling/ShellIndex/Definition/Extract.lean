import ShellIndex.Definition.Basic
import ShellIndex.Definition.Braces
import ShellIndex.Definition.Comment
import ShellIndex.Definition.Error
import ShellIndex.Definition.Header
import ShellIndex.Source.Scan

set_option autoImplicit false

/-! # Definitions of a script

The definitions of a script are found in one pass over the masked lines. Outside function
bodies, a header at the start of a line or right after the brace that closed a body starts
a definition; its body opens with the next character of code, which must be a brace. Inside
a body only braces count, so that definitions inside a body belong to it.

A line is read in rounds. A round reads a header if no body is open, and then counts braces
until a body closes; the next round goes on behind that brace. Every round but the last is
at least one character shorter than the one before, which is why the rounds end.
-/

namespace ShellIndex.Definition

open Text Source

/-- A definition whose header has been read and whose body has not been closed. -/
structure Opening where
  /-- The name that is defined. -/
  name : String
  /-- The line of the header. -/
  start : Nat
  /-- The first line of the comment above, or else of the header. -/
  startBlock : Nat
  /-- What the comment above says. -/
  doc : Doc
deriving DecidableEq, Repr

namespace Opening

/-- A header in line `number` that takes no comment. -/
def bare (number : Nat) (name : List Char) : Opening :=
  ⟨String.ofList name, number, number, Doc.none⟩

/-- A header at the start of line `number`, with the comment above it. The lines before are
given nearest first. -/
def below (before : List Line) (number : Nat) (name : List Char) : Opening :=
  let block := blockAbove before
  ⟨String.ofList name, number, (block.head?.map Line.number).getD number, Doc.ofLines block⟩

/-- The definition whose body is closed in line `stop`. -/
def close (o : Opening) (file : String) (stop : Nat) : Definition :=
  { name := o.name
    arguments := o.doc.arguments
    description := o.doc.description
    file := file
    startBlock := o.startBlock
    start := o.start
    stop := stop }

end Opening

/-- Where a script has been read up to. -/
inductive Phase where
  /-- Outside every definition. -/
  | outside
  /-- After a header, before the brace that must follow it. -/
  | awaiting (o : Opening)
  /-- In a body that was opened at depth `outer`. -/
  | inside (o : Opening) (outer : Nat)
deriving DecidableEq, Repr

/-- What has been read of a script. -/
structure Progress where
  /-- The definitions closed so far, nearest first. -/
  found : List Definition
  /-- The definition that is open. -/
  phase : Phase
  /-- The braces that are open. -/
  braces : Braces
deriving DecidableEq, Repr

/-- How a round starts. -/
inductive Entry where
  /-- Braces are counted in the given text. -/
  | text (p : Progress) (code : List Char)
  /-- The line is used up. -/
  | lineEnd (p : Progress)

/-- The text after the blanks and the separators that may follow a closing brace. -/
def skipSeparators (code : List Char) : List Char :=
  code.dropWhile fun c => isBlank c || c == ';' || c == '&'

namespace Progress

/-- Nothing has been read. -/
def start : Progress := ⟨[], .outside, Braces.none⟩

/-- Reads the brace that opens the body of a definition. -/
def openBody (p : Progress) (o : Opening) : Progress :=
  { p with
    phase := .inside o p.braces.depth
    braces := { p.braces with depth := p.braces.depth + 1 } }

/-- Ends the open body in line `stop`. -/
def closeBody (p : Progress) (file : String) (stop : Nat) : Progress :=
  match p.phase with
  | .inside o _ => { p with found := o.close file stop :: p.found, phase := .outside }
  | _ => p

/-- The depth at which the open body was opened. -/
def outer? (p : Progress) : Option Nat :=
  match p.phase with
  | .inside _ outer => some outer
  | _ => none

/-- Reads a header if no body is open. A header is made into an opening by `opening`. -/
def enter (p : Progress) (opening : List Char → Opening) (code : List Char) :
    Except Fault Entry :=
  match p.phase with
  | .outside =>
      match Header.read? code with
      | none => .ok (.text p code)
      | some header =>
          let o := opening header.name
          if header.opensBody then .ok (.text (p.openBody o) header.rest)
          -- The brace may still come at the start of a later line.
          else if allBlank header.rest then .ok (.lineEnd { p with phase := .awaiting o })
          else .error (.missingBrace o.name)
  | _ => .ok (.text p code)

/-- A round counts braces in no more than the text it starts with. -/
theorem length_le_of_enter {p p' : Progress} {opening : List Char → Opening}
    {code rest : List Char} (h : p.enter opening code = .ok (.text p' rest)) :
    rest.length ≤ code.length := by
  unfold enter at h
  split at h
  · split at h
    · simp only [Except.ok.injEq, Entry.text.injEq] at h
      exact Nat.le_of_eq (congrArg List.length h.2.symm)
    · next header hh =>
        simp only at h
        split at h
        · simp only [Except.ok.injEq, Entry.text.injEq] at h
          rw [← h.2]
          exact Header.length_read?_le hh
        · split at h <;> simp at h
  · simp only [Except.ok.injEq, Entry.text.injEq] at h
    exact Nat.le_of_eq (congrArg List.length h.2.symm)

/-- Reads the rest of line `number`, round by round. -/
def readRounds (p : Progress) (file : String) (number : Nat) (opening : List Char → Opening)
    (code : List Char) : Except Fault Progress :=
  match _entered : p.enter opening code with
  | .error fault => .error fault
  | .ok (.lineEnd p) => .ok p
  | .ok (.text p rest) =>
      match _counted : p.braces.scan p.outer? false rest with
      | (braces, none) => .ok { p with braces }
      -- A body has closed: what follows it on the line may start another definition.
      | (braces, some after) =>
          readRounds { p.closeBody file number with braces } file number
            (Opening.bare number) (skipSeparators after)
termination_by code.length
decreasing_by
  have h₁ := length_le_of_enter _entered
  have h₂ := Braces.length_lt_of_scan _counted
  have h₃ : (skipSeparators after).length ≤ after.length := (List.dropWhile_suffix _).length_le
  omega

/-- Reads one line. The lines before it are given nearest first. -/
def readLine (p : Progress) (file : String) (before : List Line) (l : Line) :
    Except Fault Progress :=
  match p.phase with
  | .awaiting o =>
      match trimStart l.code with
      | [] => .ok p
      | c :: rest =>
          if c = '{' then
            (p.openBody o).readRounds file l.number (Opening.bare l.number) rest
          else .error (.missingBrace o.name)
  | _ => p.readRounds file l.number (Opening.below before l.number) l.code

/-- Reads some lines. The lines before them are given nearest first. -/
def readLines (p : Progress) (file : String) (before : List Line) :
    List Line → Except ParseError Progress
  | [] => .ok p
  | l :: lines =>
      match p.readLine file before l with
      | .error fault => .error ⟨file, l.number, fault⟩
      | .ok p => p.readLines file (l :: before) lines

/-- The definitions found, in order, if none is open. -/
def finish (p : Progress) : Except Fault (List Definition) :=
  match p.phase with
  | .outside => .ok p.found.reverse
  | .awaiting o => .error (.missingBody o.name o.start)
  | .inside o _ => .error (.unterminatedBody o.name o.start)

end Progress

/-- The definitions in some lines. A definition that the lines leave open is reported at the
last of them. -/
def ofLines (file : String) (lines : List Line) : Except ParseError (List Definition) :=
  match Progress.start.readLines file [] lines with
  | .error e => .error e
  | .ok p =>
      match p.finish with
      | .error fault => .error ⟨file, (lines.getLast?.map Line.number).getD 0, fault⟩
      | .ok found => .ok found

/-- The definitions at the top level of a script. -/
def extract (file text : String) : Except ParseError (List Definition) :=
  ofLines file (scan text)

end ShellIndex.Definition
