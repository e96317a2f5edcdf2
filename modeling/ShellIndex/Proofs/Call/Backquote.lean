import ShellIndex.Proofs.Call.Redirection

set_option autoImplicit false

/-! # Substitutions in backquotes

A backquote looks the same whether it opens a substitution or closes one. The tracker takes every
other backquote of a line for a closing one: it counts anew on each line, while an open substitution
goes on over the end of its line. So the backquote that closes a substitution of several lines is
taken for an opening one, and a command is expected behind it.

Whether a backquote of the line is open is one more flag beside command position (`OnLine`). Words
and semicolons leave it as it is, a backquote turns it over, and a line feed clears it.
-/

namespace ShellIndex.Program

open Text Source Call

/-! ## Commands in backquotes -/

/-- A command of plain words. -/
structure PlainCommand where
  name : PlainWord
  args : List PlainWord

/-- What separates the commands of a substitution. -/
inductive Separator where
  /-- A semicolon and a blank. -/
  | semicolon
  | lineFeed
deriving DecidableEq, Repr

/-- A command, a substitution in backquotes behind it and words behind the substitution. -/
structure Backquoted where
  outer : PlainCommand
  /-- The first command of the substitution. -/
  first : PlainCommand
  /-- The other commands of the substitution. -/
  more : List PlainCommand
  /-- The words behind the substitution. -/
  behind : List PlainWord

def wordsText (words : List PlainWord) : List Char := words.flatMap fun w => ' ' :: w.text.toList

def PlainCommand.text (c : PlainCommand) : List Char := c.name.text.toList ++ wordsText c.args

def Separator.text : Separator → List Char
  | .semicolon => "; ".toList
  | .lineFeed => "\n".toList

/-- The commands behind the first one, each with what separates it. -/
def separatedText (sep : Separator) (commands : List PlainCommand) : List Char :=
  commands.flatMap fun c => sep.text ++ c.text

namespace Backquoted
variable (c : Backquoted)

/-- The commands of the substitution. -/
def insideText (sep : Separator) : List Char := c.first.text ++ separatedText sep c.more

def text (sep : Separator) : List Char :=
  c.outer.text ++ (" `".toList ++ (c.insideText sep ++ ("`".toList ++ wordsText c.behind)))

/-- The commands that run, in the order in which they are written. -/
def called : List String :=
  c.outer.name.text :: c.first.name.text :: c.more.map fun d => d.name.text

end Backquoted

/-! ## What is listed -/

/-- Whether a backquote that is taken for open before a separator is so behind it. -/
def Separator.carries (sep : Separator) (opened : Bool) : Bool :=
  match sep with
  | .semicolon => opened
  | .lineFeed => false

/-- Whether a backquote is taken for open behind some separated commands. -/
def openBehind (sep : Separator) (commands : List PlainCommand) (opened : Bool) : Bool :=
  commands.foldl (fun opened _ => sep.carries opened) opened

theorem openBehind_semicolon (commands : List PlainCommand) (opened : Bool) :
    openBehind .semicolon commands opened = opened := by
  induction commands with
  | nil => rfl
  | cons c commands ih => exact ih

theorem openBehind_lineFeed (commands : List PlainCommand) :
    openBehind .lineFeed commands true = commands.isEmpty := by
  have hclosed : ∀ commands, openBehind .lineFeed commands false = false := by
    intro commands
    induction commands with
    | nil => rfl
    | cons c commands ih => exact ih
  cases commands with
  | nil => rfl
  | cons c commands => exact hclosed commands

/-- What is read as a command in some words, if one is expected before them or not. -/
def firstListed (words : List PlainWord) (expected : Bool) : List String :=
  if expected then (words.take 1).map PlainWord.text else []

/-- What is read as a command behind the substitution: the first word if the closing backquote is
taken for an opening one. -/
def Backquoted.listedBehind (c : Backquoted) (sep : Separator) : List String :=
  firstListed c.behind (!openBehind sep c.more true)

theorem Backquoted.listedBehind_semicolon (c : Backquoted) : c.listedBehind .semicolon = [] := by
  rw [listedBehind, openBehind_semicolon]
  rfl

/-- On a later line the closing backquote is taken for an opening one. -/
theorem Backquoted.listedBehind_lineFeed (c : Backquoted) :
    c.listedBehind .lineFeed = if c.more = [] then [] else (c.behind.take 1).map PlainWord.text := by
  rw [listedBehind, openBehind_lineFeed]
  cases c.more <;> rfl

/-! ## Along a line -/

section
variable {q b : Bool} {k : Cursor}

/-- The next word is a word of a command, and a backquote of the line is taken for open or not. -/
structure OnLine (q b : Bool) (k : Cursor) : Prop extends Ready b k where
  inBackquote_eq : k.inBackquote = q

theorem onLine_start : OnLine false true Tracker.start.startLine := ⟨ready_start, rfl⟩

theorem PlainWord.tracks_onLine (w : PlainWord) :
    Tracks EndsWord (OnLine q b) w.text.toList (OnLine q false) (if b then [w.text] else []) := by
  refine tracks_wordDefining false w.isToken.toIsWord fun k hk => ?_
  obtain ⟨hready, hcalls⟩ := w.word_ready hk.toReady
  have hopen : (k.word w.text false).1.inBackquote = q := by
    rw [(word_keeps k w.text false).1, hk.inBackquote_eq]
  exact ⟨⟨hready, hopen⟩, hcalls⟩

theorem OnLine.semicolon (h : OnLine q b k) : OnLine q true (k.mark .semicolon) := by
  have hinterpret : k.interpret .semicolon = k.markInCode .semicolon :=
    h.toWithin.interpret_eq rfl
  have hamong : AmongWords true (k.mark .semicolon) := by
    refine h.toAmongWords.mark ?_
    rw [hinterpret]
    exact ⟨h.cases_eq, rfl, h.inArray_eq⟩
  refine ⟨⟨hamong, rfl, rfl⟩, ?_⟩
  show (k.interpret .semicolon).inBackquote = q
  rw [hinterpret]
  exact h.inBackquote_eq

/-- A backquote turns the flag over. A command is expected behind it if it is taken for an opening
one. -/
theorem OnLine.backquote (h : OnLine q b k) : OnLine (!q) (!q) (k.mark .backquote) := by
  have hinterpret : k.interpret .backquote = k.markInCode .backquote :=
    h.toWithin.interpret_eq rfl
  have hamong : AmongWords (!q) (k.mark .backquote) := by
    refine h.toAmongWords.mark ?_
    rw [hinterpret, ← h.inBackquote_eq]
    exact ⟨h.cases_eq, rfl, h.inArray_eq⟩
  refine ⟨⟨hamong, rfl, rfl⟩, ?_⟩
  show (k.interpret .backquote).inBackquote = !q
  rw [hinterpret, ← h.inBackquote_eq]
  rfl

theorem tracks_backquote : Tracks Anything (OnLine q b) "`".toList (OnLine (!q) (!q)) [] :=
  tracks_lone .backquote (by decide) (by decide) (fun _ => rfl) (by simp) fun _ hk =>
    ⟨hk.backquote, rfl⟩

/-- A semicolon leaves the flag as it is, a line feed clears it. -/
theorem Separator.tracks (sep : Separator) :
    Tracks Anything (OnLine q b) sep.text (OnLine (sep.carries q) true) [] := by
  cases sep with
  | semicolon => exact tracks_semicolonMark fun _ hk => hk.semicolon
  | lineFeed =>
      refine tracks_lineEnd fun k hk => ?_
      exact ⟨⟨⟨⟨hk.cases_eq, rfl, hk.inArray_eq⟩, rfl, rfl, rfl⟩, rfl, rfl⟩, rfl⟩

/-! ## Words and commands -/

theorem endsWord_wordsText (words : List PlainWord) {rest : List Char} (h : EndsWord rest) :
    EndsWord (wordsText words ++ rest) := by
  cases words with
  | nil => exact h
  | cons w words =>
      obtain ⟨c, s, hs, hc⟩ := w.exists_cons
      rw [wordsText, List.flatMap_cons, hs]
      exact endsWord_blank (isBlank_of_isPlain hc) (ne_of_isPlain hc (by decide)) _

theorem endsWord_separatedText (sep : Separator) (commands : List PlainCommand) {rest : List Char}
    (h : EndsWord rest) : EndsWord (separatedText sep commands ++ rest) := by
  cases commands with
  | nil => exact h
  | cons c commands =>
      rw [separatedText, List.flatMap_cons, List.append_assoc, List.append_assoc]
      cases sep with
      | semicolon => exact endsWord_semicolon _
      | lineFeed => exact endsWord_lineFeed _

/-- The words of a command, of which the first one is listed where a command is expected. -/
theorem tracks_wordsText (words : List PlainWord) :
    Tracks EndsWord (OnLine q b) (wordsText words) (OnLine q (b && words.isEmpty))
      (firstListed words b) := by
  induction words generalizing b with
  | nil => cases b <;> exact Tracks.nil
  | cons w words ih =>
      have hword := tracks_blank.before (w.tracks_onLine (q := q) (b := b))
      have hwords := hword.append (ih (b := false)) fun rest h => endsWord_wordsText words h
      cases b <;> exact hwords

theorem PlainCommand.tracks (c : PlainCommand) :
    Tracks EndsWord (OnLine q true) c.text (OnLine q false) [c.name.text] :=
  c.name.tracks_onLine.append (tracks_wordsText c.args) fun _ h => endsWord_wordsText c.args h

/-- **The commands of a substitution** are listed however they are separated. -/
theorem tracks_separatedText (sep : Separator) (commands : List PlainCommand) :
    Tracks EndsWord (OnLine q false) (separatedText sep commands)
      (OnLine (openBehind sep commands q) false) (commands.map fun d => d.name.text) := by
  induction commands generalizing q with
  | nil => exact Tracks.nil
  | cons c commands ih =>
      have hcommand : Tracks EndsWord (OnLine q false) (sep.text ++ c.text)
          (OnLine (sep.carries q) false) [c.name.text] := sep.tracks.before c.tracks
      exact hcommand.append ih fun rest h => endsWord_separatedText sep commands h

theorem Backquoted.tracks (c : Backquoted) (sep : Separator) :
    Tracks EndsWord (OnLine false true) (c.text sep)
      (OnLine (!openBehind sep c.more true) (!openBehind sep c.more true && c.behind.isEmpty))
      (c.called ++ c.listedBehind sep) := by
  have hopen : Tracks Anything (OnLine false false) " `".toList (OnLine true true) [] :=
    tracks_blank.before tracks_backquote
  have hinside : Tracks EndsWord (OnLine true true) (c.insideText sep)
      (OnLine (openBehind sep c.more true) false)
      (c.first.name.text :: c.more.map fun d => d.name.text) :=
    c.first.tracks.append (tracks_separatedText sep c.more) fun _ h =>
      endsWord_separatedText sep c.more h
  have hbehind : Tracks EndsWord (OnLine (openBehind sep c.more true) false)
      ("`".toList ++ wordsText c.behind) _ (c.listedBehind sep) :=
    tracks_backquote.before (tracks_wordsText c.behind)
  have hsubstitution := hopen.before (hinside.append hbehind fun _ _ =>
    endsWord_mark (c := '`') (by decide) (by decide) (by decide) _)
  exact c.outer.tracks.append hsubstitution fun _ _ =>
    endsWord_blank (c := '`') (by decide) (by decide) _

end

/-! ## What shows -/

section
variable {last : Option Char}

theorem shows_wordsText (words : List PlainWord) :
    Shows [] last (wordsText words) (wordsText words) [] :=
  shows_flatMap (fun w _ => (shows_marks (s := [' ']) rfl (by decide)).append (w.shows rfl)) words

theorem PlainCommand.shows (c : PlainCommand) : Shows [] last c.text c.text [] :=
  (c.name.shows rfl).append (shows_wordsText c.args)

theorem shows_separatedText (sep : Separator) (commands : List PlainCommand) :
    Shows [] last (separatedText sep commands) (separatedText sep commands) [] := by
  have hsep : ∀ last, Shows [] last sep.text sep.text [] := fun _ =>
    shows_marks rfl (by cases sep <;> decide)
  exact shows_flatMap (fun c last => (hsep last).append c.shows) commands

/-- Outside double quotes a backquote is no context. -/
theorem shows_backquote : Shows [] last "`".toList "`".toList [] := by
  refine Shows.keep (by decide) (by decide) (fun _ => by decide) fun r rest hat => ?_
  rw [hat.stepFree_code rfl]
  show ({ r.keep '`' with contexts := closeBackquote r.contexts } : Reader) = _
  rw [hat.contexts_eq]
  rfl

theorem Backquoted.shows (c : Backquoted) (sep : Separator) :
    Shows [] last (c.text sep) (c.text sep) [] := by
  refine c.outer.shows.append ?_
  refine ((shows_marks (s := [' ']) rfl (by decide)).append shows_backquote).append ?_
  refine (c.first.shows.append (shows_separatedText sep c.more)).append ?_
  exact shows_backquote.append (shows_wordsText c.behind)

end

/-- **A command with a substitution in backquotes.** Its name and those of the commands in the
substitution are listed, and the first word behind the substitution if it ends on another line than
it starts on. -/
theorem Backquoted.callsOf_text (c : Backquoted) (sep : Separator) :
    callsOf (String.ofList (c.text sep)) = c.called ++ c.listedBehind sep := by
  calc callsOf (String.ofList (c.text sep))
      = Tracker.start.calls (lines (c.text sep)) := by rw [callsOf, (c.shows sep).map_code_scan.1]
    _ = c.called ++ c.listedBehind sep := (c.tracks sep).calls_lines_start onLine_start

end ShellIndex.Program
