import ShellIndex.Text.Lines
import ShellIndex.Source.Line
import ShellIndex.Source.Reader

set_option autoImplicit false

/-! # Scanning a script

Scanning turns a script into its lines with their masked view. Between two lines only two
things are remembered: the contexts that enclose the next character and the here-documents
that have been announced and not yet ended. While there are such documents, the next line
belongs to the first of them.
-/

namespace ShellIndex.Source

open Text

/-- What is open at the boundary between two lines. -/
structure Open where
  /-- What encloses the next character, innermost first. -/
  contexts : List Context
  /-- The here-documents that the next lines belong to, in order. -/
  heredocs : List Heredoc
deriving DecidableEq, Repr

/-- What one line comes to. -/
structure Reading where
  /-- The masked view of the line. -/
  code : List Char
  /-- The comment that ends it. -/
  comment : Option (List Char)
  /-- What is open after it. -/
  next : Open
deriving DecidableEq, Repr

namespace Open

/-- Nothing is open at the start of a script. -/
def nothing : Open := ⟨[], []⟩

/-- Reads one line. -/
def read (o : Open) (raw : List Char) : Reading :=
  match o.heredocs with
  | doc :: more =>
      { code := mask raw
        comment := none
        next := if doc.endsAt raw then { o with heredocs := more } else o }
  | [] =>
      let (r, comment) := (Reader.start o.contexts).run raw
      { code := r.code.reverse, comment, next := ⟨r.contexts, r.heredocs⟩ }

/-- What is open after some lines. -/
def after (o : Open) (raws : List (List Char)) : Open :=
  raws.foldl (fun o raw => (o.read raw).next) o

/-- The scanned lines of a text, the first of them numbered `number`. -/
def scan (o : Open) (number : Nat) : List (List Char) → List Line
  | [] => []
  | raw :: raws =>
      let reading := o.read raw
      ⟨number, raw, reading.code, reading.comment⟩ :: reading.next.scan (number + 1) raws

end Open

/-- The scanned lines of a script. -/
def scan (text : String) : List Line := Open.nothing.scan 1 (lines text.toList)

/-! ## Scanning in two parts -/

theorem Open.scan_append (o : Open) (number : Nat) (raws raws' : List (List Char)) :
    o.scan number (raws ++ raws') =
      o.scan number raws ++ (o.after raws).scan (number + raws.length) raws' := by
  induction raws generalizing o number with
  | nil => simp [scan, after]
  | cons raw raws ih =>
      simp only [List.cons_append, scan, after, List.foldl_cons, List.length_cons]
      rw [ih]
      simp only [after]
      congr 3
      omega

/-- A script has one scanned line for each of its lines. -/
theorem Open.length_scan (o : Open) (number : Nat) (raws : List (List Char)) :
    (o.scan number raws).length = raws.length := by
  induction raws generalizing o number with
  | nil => rfl
  | cons raw raws ih => simp [scan, ih]

end ShellIndex.Source
