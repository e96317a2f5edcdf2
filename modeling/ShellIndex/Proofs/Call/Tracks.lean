import ShellIndex.Proofs.Call.Program
import ShellIndex.Proofs.Call.Resume

set_option autoImplicit false

/-! # What the tracker makes of a piece of a program

The tracker infers command position from a handful of flags. `Stands` says what the flags are
before a command and behind one; `Tracks` says that a piece of masked code leads from one state
to another and calls the given commands, whatever follows it that the piece allows. The pieces
of this file are the blanks, the marks and the words of structured programs.
-/

namespace ShellIndex.Program

open Text Call

/-! ## Triples -/

/-- The tracker is within the commands of `cases`, in command position or not. -/
structure Within (cases : List CasePart) (atCommand : Bool) (k : Cursor) : Prop where
  cases_eq : k.cases = cases
  atCommand_eq : k.atCommand = atCommand
  inArray_eq : k.inArray = false

/-- What is more, nothing is known about the next word. -/
structure Awaits (cases : List CasePart) (atCommand : Bool) (k : Cursor) : Prop
    extends Within cases atCommand k where
  afterDollar_eq : k.afterDollar = false
  afterFunction_eq : k.afterFunction = false
  afterRedirection_eq : k.afterRedirection = false

/-- Nor does the lexeme before decide about the next mark. -/
structure Stands (cases : List CasePart) (atCommand : Bool) (k : Cursor) : Prop
    extends Within cases atCommand k where
  afterDollar_eq : k.afterDollar = false
  afterFunction_eq : k.afterFunction = false
  afterRedirection_eq : k.afterRedirection = false
  no_redirection : k.followsRedirection = false
  no_equals : k.followsEquals = false

theorem Stands.awaits {cases : List CasePart} {b : Bool} {k : Cursor} (h : Stands cases b k) :
    Awaits cases b k :=
  ⟨h.toWithin, h.afterDollar_eq, h.afterFunction_eq, h.afterRedirection_eq⟩

/-- Whether commands stand inside these open `case` commands. -/
def inCommands : List CasePart → Bool
  | [] => true
  | .body :: _ => true
  | _ => false

/-- From a cursor with `pre` the masked code `view` leads to one with `post`, with the given
calls, before any rest that `tail` allows. -/
def Tracks (tail : List Char → Prop) (pre : Cursor → Prop) (view : List Char)
    (post : Cursor → Prop) (calls : List String) : Prop :=
  ∀ (k : Cursor) (before rest : List Char) (after : List String), pre k → '\\' ∉ before →
    tail rest →
    (∀ (k' : Cursor) (before' : List Char), post k' → '\\' ∉ before' →
      k'.resume before' rest = after) →
    k.resume before (view ++ rest) = calls ++ after

/-- Any rest. -/
def Anything (_ : List Char) : Prop := True

/-- What may follow a word. -/
def EndsRun (rest : List Char) : Prop :=
  ∀ c, rest.head? = some c → Lexeme.isWordChar c = false

/-- What may follow a word that is no name of a definition. -/
def EndsWord (rest : List Char) : Prop :=
  EndsRun rest ∧ Lexeme.startsWithParens (firstLine rest) = false

/-- A text that is read as one word. -/
structure IsWord (text : String) : Prop where
  ne_empty : text ≠ ""
  isWordChar : text.toList.all Lexeme.isWordChar = true
  no_backslash : '\\' ∉ text.toList

/-- A word that is no start of an array. -/
structure IsToken (text : String) : Prop extends IsWord text where
  no_equals : text.toList.getLast? ≠ some '='

section
variable {tail tail' : List Char → Prop} {pre pre' mid post post' : Cursor → Prop}
variable {view view' : List Char} {calls calls' : List String}

theorem Tracks.nil : Tracks tail pre [] pre [] := by
  intro k before rest after hk hb _ hnext
  exact hnext k before hk hb

/-- Pieces are put together where the second may follow the first. -/
theorem Tracks.append (h : Tracks tail pre view mid calls) (h' : Tracks tail' mid view' post calls')
    (ht : ∀ rest, tail' rest → tail (view' ++ rest)) :
    Tracks tail' pre (view ++ view') post (calls ++ calls') := by
  intro k before rest after hk hb hrest hnext
  rw [List.append_assoc, List.append_assoc]
  refine h k before _ _ hk hb (ht rest hrest) fun k₁ before₁ hk₁ hb₁ => ?_
  exact h' k₁ before₁ rest after hk₁ hb₁ hrest hnext

/-- Behind a piece that any rest may follow nothing is to be checked. -/
theorem Tracks.before (h : Tracks Anything pre view mid calls)
    (h' : Tracks tail mid view' post calls') :
    Tracks tail pre (view ++ view') post (calls ++ calls') :=
  h.append h' fun _ _ => trivial

/-- A piece without calls before another one. -/
theorem Tracks.silent_append (h : Tracks tail pre view mid [])
    (h' : Tracks tail' mid view' post calls) (ht : ∀ rest, tail' rest → tail (view' ++ rest)) :
    Tracks tail' pre (view ++ view') post calls :=
  h.append h' ht

/-- A piece without calls behind another one. -/
theorem Tracks.append_silent (h : Tracks tail pre view mid calls)
    (h' : Tracks tail' mid view' post []) (ht : ∀ rest, tail' rest → tail (view' ++ rest)) :
    Tracks tail' pre (view ++ view') post calls := by
  have happend := h.append h' ht
  rwa [List.append_nil] at happend

theorem Tracks.imp (h : Tracks tail pre view post calls) (hpre : ∀ k, pre' k → pre k)
    (hpost : ∀ k, post k → post' k) : Tracks tail pre' view post' calls := by
  intro k before rest after hk hb hrest hnext
  refine h k before rest after (hpre k hk) hb hrest fun k' before' hk' hb' => ?_
  exact hnext k' before' (hpost k' hk') hb'

theorem Tracks.restrict (h : Tracks tail pre view post calls)
    (ht : ∀ rest, tail' rest → tail rest) : Tracks tail' pre view post calls := by
  intro k before rest after hk hb hrest hnext
  exact h k before rest after hk hb (ht rest hrest) hnext

/-- What is tracked whatever the lexeme before is tracked behind any. -/
theorem Tracks.standing {cases : List CasePart} {b : Bool}
    (h : Tracks tail (Awaits cases b) view post calls) :
    Tracks tail (Stands cases b) view post calls :=
  h.imp (fun _ hk => hk.awaits) fun _ hk => hk

theorem Tracks.anywhere (h : Tracks Anything pre view post calls) :
    Tracks tail pre view post calls :=
  h.restrict fun _ _ => trivial

theorem Tracks.endsWord (h : Tracks EndsRun pre view post calls) :
    Tracks EndsWord pre view post calls :=
  h.restrict fun _ hrest => hrest.1

/-- What a piece yields at the end of a text. -/
theorem Tracks.resume_eq {k : Cursor} (hk : pre k) (h : Tracks EndsWord pre view post calls) :
    k.resume [] view = calls := by
  have hnil : EndsWord [] := ⟨by simp [EndsRun], rfl⟩
  have hend : ∀ (k : Cursor) (before : List Char), post k → '\\' ∉ before →
      k.resume before [] = [] := by
    intro k before _ _
    rw [Cursor.resume, below?_last (by simp), firstLine_last (by simp)]
    rfl
  have hcalls := h k [] [] [] hk (by simp) hnil hend
  rwa [List.append_nil, List.append_nil] at hcalls

/-- The calls of a text that is read from the start of a script. -/
theorem Tracks.calls_lines_start (hstart : pre Tracker.start.startLine)
    (h : Tracks EndsWord pre view post calls) : Tracker.start.calls (lines view) = calls := by
  rw [Tracker.calls_lines, h.resume_eq hstart]

theorem Tracks.calls_lines (h : Tracks EndsWord (Stands [] true) view post calls) :
    Tracker.start.calls (lines view) = calls :=
  h.calls_lines_start ⟨⟨rfl, rfl, rfl⟩, rfl, rfl, rfl, rfl, rfl⟩

/-! ## Blanks, marks and words -/

theorem tracks_inlineBlank {c : Char} (hc : isInlineBlank c = true) :
    Tracks Anything pre [c] pre [] := by
  have hblank : isWordBreak c = true ∧ c ≠ '\n' ∧ c ≠ '\r' ∧ c ≠ '\\' := by
    simp only [isInlineBlank, Bool.or_eq_true, beq_iff_eq] at hc
    rcases hc with rfl | rfl <;> decide
  obtain ⟨hbreak, hn, hr, hb⟩ := hblank
  intro k before rest after hk hbefore _ hnext
  rw [List.singleton_append, k.resume_blank before hbreak hn hr]
  exact hnext k _ hk (by simp [hbefore, Ne.symm hb])

theorem tracks_blank : Tracks Anything pre [' '] pre [] := tracks_inlineBlank (by decide)

/-- Behind a word any rest may follow as soon as a blank does. -/
theorem Tracks.then_blank (h : Tracks EndsRun pre view post []) :
    Tracks Anything pre (view ++ [' ']) post [] := by
  refine h.silent_append tracks_blank fun rest _ c hc => ?_
  obtain rfl : ' ' = c := Option.some.inj hc
  decide

theorem tracks_mark (mark : Lexeme) {c : Char} (hc : isWordBreak c = false) (hb : c ≠ '\\')
    (hmark : ∀ rest, tail rest → Lexeme.punctuation? c rest = some mark) (hend : mark ≠ .armEnd)
    (hstep : ∀ k, pre k → post (k.step mark).1 ∧ (k.step mark).2 = none) :
    Tracks tail pre [c] post [] := by
  intro k before rest after hk hbefore hrest hnext
  obtain ⟨hpost, hnone⟩ := hstep k hk
  rw [List.singleton_append, k.resume_mark before hc (hmark rest hrest) hend, hnone]
  exact hnext _ _ hpost (by simp [hbefore, Ne.symm hb])

/-- Reads a word, given whether empty parentheses follow it. -/
theorem tracks_wordDefining (defines : Bool) {text : String} (hword : IsWord text)
    (hstep : ∀ k, pre k →
      post (k.word text defines).1 ∧ (k.word text defines).2.toList = calls) :
    Tracks (fun rest => EndsRun rest ∧ Lexeme.startsWithParens (firstLine rest) = defines)
      pre text.toList post calls := by
  rintro k before rest after hk hbefore ⟨hend, rfl⟩ hnext
  obtain ⟨hpost, hcalls⟩ := hstep k hk
  have hne : text.toList ≠ [] := by simpa using hword.ne_empty
  rw [k.resume_word before hne (List.all_eq_true.mp hword.isWordChar) hend,
    String.ofList_toList, hcalls]
  congr 1
  exact hnext _ _ hpost (by simp [hbefore, hword.no_backslash])

/-- Reads a word that is read alike whether or not it names a definition. -/
theorem tracks_word {text : String} (hword : IsWord text)
    (hstep : ∀ k defines, pre k →
      post (k.word text defines).1 ∧ (k.word text defines).2.toList = calls) :
    Tracks EndsRun pre text.toList post calls := by
  intro k before rest after hk hbefore hrest hnext
  have htracks := tracks_wordDefining (Lexeme.startsWithParens (firstLine rest)) hword
    fun k hk => hstep k _ hk
  exact htracks k before rest after hk hbefore ⟨hrest, rfl⟩ hnext

/-- Behind a line that is not continued the next one starts in command position. -/
theorem startLine_endLine (k : Cursor) {before : List Char} (h : '\\' ∉ before) :
    (Tracker.endLine k before.reverse).startLine =
      Tracker.startLine ⟨k.cases, true, k.inArray, false⟩ := by
  have hcontinued : (Tracker.endLine k before.reverse).continued = false :=
    Tracker.continued_endLine k (by simpa using h)
  rw [Tracker.startLine, hcontinued, Bool.not_false, Bool.or_true]
  rfl

/-- Reads the end of a line that is not continued. -/
theorem tracks_lineEnd
    (hstep : ∀ k, pre k → post (Tracker.startLine ⟨k.cases, true, k.inArray, false⟩)) :
    Tracks Anything pre ['\n'] post [] := by
  intro k before rest after hk hb _ hnext
  rw [List.singleton_append, k.resume_lineFeed before, startLine_endLine k hb]
  exact hnext _ [] (hstep k hk) (by simp)

/-- At the end of a line that is not continued the next command may stand. -/
theorem tracks_lineFeed {cases : List CasePart} {b : Bool} :
    Tracks Anything (Stands cases b) ['\n'] (Stands cases true) [] :=
  tracks_lineEnd fun _ hk => ⟨⟨hk.cases_eq, rfl, hk.inArray_eq⟩, rfl, rfl, rfl, rfl, rfl⟩

end

/-- The rest of a line that starts with a character other than a parenthesis. -/
theorem startsWithParens_cons {c : Char} (hc : isBlank c = false) (hp : c ≠ '(') (s : List Char) :
    Lexeme.startsWithParens (c :: s) = false := by
  have htrim : trimStart (c :: s) = c :: s := by simp [trimStart, hc]
  rw [Lexeme.startsWithParens, htrim]
  split
  · next h => exact absurd (List.cons.inj h).1 hp
  · rfl

theorem startsWithParens_blank (s : List Char) :
    Lexeme.startsWithParens (' ' :: s) = Lexeme.startsWithParens s := rfl

theorem endsRun_cons {c : Char} (hc : Lexeme.isWordChar c = false) (s : List Char) :
    EndsRun (c :: s) := by
  intro d hd
  obtain rfl : c = d := by simpa using hd
  exact hc

/-- A character that is no blank is no part of a line end. -/
theorem ne_lineEnd_of_isBlank {c : Char} (hc : isBlank c = false) : c ≠ '\n' ∧ c ≠ '\r' := by
  refine ⟨?_, ?_⟩ <;>
  · rintro rfl
    revert hc
    decide

/-- A mark other than a parenthesis ends a word. -/
theorem endsWord_mark {c : Char} (hw : Lexeme.isWordChar c = false) (hc : isBlank c = false)
    (hp : c ≠ '(') (s : List Char) : EndsWord (c :: s) := by
  obtain ⟨hn, hr⟩ := ne_lineEnd_of_isBlank hc
  refine ⟨endsRun_cons hw s, ?_⟩
  rw [firstLine_cons hn (fun e => absurd e hr)]
  exact startsWithParens_cons hc hp _

/-- A blank ends a word if the next character is no parenthesis. -/
theorem endsWord_blank {c : Char} (hc : isBlank c = false) (hp : c ≠ '(') (s : List Char) :
    EndsWord (' ' :: c :: s) := by
  obtain ⟨hn, hr⟩ := ne_lineEnd_of_isBlank hc
  refine ⟨endsRun_cons (by decide) _, ?_⟩
  rw [firstLine_cons (by decide) (by simp), firstLine_cons hn (fun e => absurd e hr),
    startsWithParens_blank]
  exact startsWithParens_cons hc hp _

theorem endsWord_lineFeed (s : List Char) : EndsWord ('\n' :: s) := by
  refine ⟨endsRun_cons (by decide) s, ?_⟩
  rw [firstLine_lineFeed]
  rfl

end ShellIndex.Program
