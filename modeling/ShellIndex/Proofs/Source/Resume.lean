import ShellIndex.Proofs.Text.FirstLine
import ShellIndex.Source.Scan

set_option autoImplicit false

/-! # Reading on from within a line

A script is scanned line by line, but what is written in it (a quotation, a command) may start
in one line and end in another. This file looks at a script the other way round: a reader that
stands somewhere in a line reads on to the end of the script (`Reader.resume`). The equations
of `resume` advance it by one character, over the end of a line included.
-/

namespace ShellIndex.Source

open Text

/-! ## What scanned lines show -/

/-- What a scanned line shows: its code and its comment. -/
def Line.view (l : Line) : List Char × Option (List Char) := (l.code, l.comment)

/-- What some lines come to: what each of them shows, and what is open after them. -/
structure Course where
  /-- The code and the comment of each line. -/
  views : List (List Char × Option (List Char))
  /-- What is open after the lines. -/
  stop : Open

/-- One line more at the start. -/
def Course.cons (view : List Char × Option (List Char)) (course : Course) : Course :=
  { course with views := view :: course.views }

/-- What some lines come to when they are read one after another. -/
def Open.course (o : Open) : List (List Char) → Course
  | [] => ⟨[], o⟩
  | raw :: raws => ((o.read raw).next.course raws).cons ((o.read raw).code, (o.read raw).comment)

theorem Open.views_course (o : Open) (number : Nat) (raws : List (List Char)) :
    (o.course raws).views = (o.scan number raws).map Line.view := by
  induction raws generalizing o number with
  | nil => rfl
  | cons raw raws ih =>
      simp only [Open.course, Course.cons, Open.scan, List.map_cons, ih _ (number + 1)]
      rfl

theorem Open.stop_course (o : Open) (raws : List (List Char)) :
    (o.course raws).stop = o.after raws := by
  induction raws generalizing o with
  | nil => rfl
  | cons raw raws ih =>
      simp only [Open.course, Course.cons, ih, Open.after, List.foldl_cons]

/-! ## Reading on -/

/-- What the line that `r` reads shows in the end. -/
def Reader.lineView (r : Reader) (rest : List Char) : List Char × Option (List Char) :=
  ((r.run rest).1.code.reverse, (r.run rest).2)

/-- What is open after the line that `r` reads. -/
def Reader.openAfter (r : Reader) (rest : List Char) : Open :=
  ⟨(r.run rest).1.contexts, (r.run rest).1.heredocs⟩

/-- What the lines of the text `s` come to when `r` has read the start of the first of them. -/
def Reader.resume (r : Reader) (s : List Char) : Course :=
  match below? s with
  | none =>
      if r.before.isEmpty && s.isEmpty then ⟨[], ⟨r.contexts, r.heredocs⟩⟩
      else ⟨[r.lineView s], r.openAfter s⟩
  | some below =>
      ((r.openAfter (firstLine s)).course (lines below)).cons (r.lineView (firstLine s))

/-- Reading a text from the start of its first line is reading its lines. -/
theorem course_lines (contexts : List Context) (s : List Char) :
    (⟨contexts, []⟩ : Open).course (lines s) = (Reader.start contexts).resume s := by
  rcases exists_line s with h | ⟨line, rest, h, rfl⟩
  · rw [Reader.resume, below?_last h, lines_of_no_lineFeed s h]
    cases s <;> rfl
  · rw [Reader.resume, below?_line h, firstLine_line h, lines_append_lineFeed line rest h]
    rfl

/-- A script shows what the reader at its start gives. -/
theorem map_view_scan (text : String) :
    (scan text).map Line.view = ((Reader.start []).resume text.toList).views := by
  rw [scan, ← Open.views_course, ← course_lines]
  rfl

/-- After a script the same is open as after the reader at its start. -/
theorem after_lines (text : String) :
    Open.nothing.after (lines text.toList) = ((Reader.start []).resume text.toList).stop := by
  rw [← Open.stop_course, ← course_lines]
  rfl

/-! ## The equations of reading on -/

/-- At the end of a line the reader starts the next one in the same contexts. -/
theorem Reader.resume_lineFeed (r : Reader) (hr : r.heredocs = []) (rest : List Char) :
    r.resume ('\n' :: rest) =
      ((Reader.start r.contexts).resume rest).cons (r.code.reverse, none) := by
  rw [Reader.resume, below?_lineFeed, firstLine_lineFeed, ← course_lines]
  simp [Reader.lineView, Reader.openAfter, Reader.run, hr]

/-- The carriage return at the end of a line is not read. -/
theorem Reader.resume_return (r : Reader) (rest : List Char) :
    r.resume ('\r' :: '\n' :: rest) = r.resume ('\n' :: rest) := by
  have h : firstLine ('\r' :: '\n' :: rest) = [] := @firstLine_line ['\r'] (by simp) rest
  rw [Reader.resume, Reader.resume, below?_cons (by decide), h, below?_lineFeed,
    firstLine_lineFeed]

/-- At the end of a text the reader gives the line that it has read, if there is one. -/
theorem Reader.resume_nil (r : Reader) :
    r.resume [] =
      ⟨if r.before.isEmpty then [] else [(r.code.reverse, none)], ⟨r.contexts, r.heredocs⟩⟩ := by
  show (if r.before.isEmpty && true then _ else _) = _
  cases h : r.before.isEmpty <;> simp [Reader.lineView, Reader.openAfter, Reader.run]

/-- What a step does depends on the text that follows only where a here-document may be
announced or a substitution may start. -/
theorem Reader.step_congr (r : Reader) (c : Char) {rest rest' : List Char}
    (hc : c = '<' → r.owed = .nothing → readsCode r.contexts = false)
    (h : rest.head? = some '(' ↔ rest'.head? = some '(') :
    r.step c rest = r.step c rest' := by
  have hparen : (rest.head? == some '(') = (rest'.head? == some '(') := by
    rw [Bool.eq_iff_iff]
    simpa using h
  have hcode : r.owed = .nothing → readsCode r.contexts = true →
      r.stepCode c rest = r.stepCode c rest' := by
    intro ho hr
    by_cases hlt : c = '<'
    · rw [hc hlt ho] at hr
      cases hr
    · unfold Reader.stepCode
      split <;> first | rfl | contradiction
  have hdouble : ∀ outer, r.stepDouble outer c rest = r.stepDouble outer c rest' := by
    intro outer
    unfold Reader.stepDouble
    rw [hparen]
  have hfree : r.owed = .nothing → r.stepFree c rest = r.stepFree c rest' := by
    intro ho
    have hcode := hcode ho
    unfold Reader.stepFree
    rcases hcx : r.contexts with _ | ⟨top, outer⟩
    · exact hcode (by rw [hcx]; rfl)
    · cases top with
      | substitution parens => exact hcode (by rw [hcx]; rfl)
      | backquote => exact hcode (by rw [hcx]; rfl)
      | double => exact hdouble outer
      | single => rfl
      | ansi => rfl
  unfold Reader.step
  cases ho : r.owed with
  | nothing => exact hfree ho
  | escaped => rfl
  | verbatim more => cases more <;> rfl

theorem Reader.before_step (r : Reader) (c : Char) (rest : List Char) :
    (r.step c rest).before = c :: r.before := by
  unfold Reader.step Reader.stepFree Reader.stepCode Reader.stepDouble Reader.stepSingle
    Reader.stepAnsi Reader.stepEscaped Reader.announce
  repeat' split
  all_goals rfl

/-- A character that neither ends a line nor starts a comment is one step of the reader, if that
step looks no further than the end of the line. -/
theorem Reader.resume_step (r : Reader) {c : Char} {rest : List Char} (hn : c ≠ '\n')
    (hr : c = '\r' → rest.head? ≠ some '\n') (ho : r.opensComment c = false)
    (hstep : ∀ s, (∀ d ∈ ['(', '<'], (s.head? = some d ↔ rest.head? = some d)) →
      r.step c s = r.step c rest) :
    r.resume (c :: rest) = (r.step c rest).resume rest := by
  have hne : (r.step c rest).before ≠ [] := by
    rw [r.before_step]
    exact List.cons_ne_nil c r.before
  have hrun : ∀ s, (∀ d ∈ ['(', '<'], (s.head? = some d ↔ rest.head? = some d)) →
      r.run (c :: s) = (r.step c rest).run s := by
    intro s hs
    rw [Reader.run, ho, hstep s hs]
    simp
  -- The end of the line is cut off, which no step can tell from what it looks ahead at.
  have hfirst : r.run (firstLine (c :: rest)) = (r.step c rest).run (firstLine rest) := by
    have hne : ∀ d ∈ ['(', '<'], d ≠ '\n' ∧ d ≠ '\r' := by simp
    rw [firstLine_cons hn hr]
    exact hrun _ fun d hd => head?_firstLine (hne d hd).1 (hne d hd).2 rest
  rw [Reader.resume, Reader.resume, below?_cons hn]
  cases hb : below? rest with
  | none => simp [Reader.lineView, Reader.openAfter, hrun rest fun _ _ => Iff.rfl, hne]
  | some below => simp [Reader.lineView, Reader.openAfter, hfirst]

theorem Reader.resume_cons (r : Reader) {c : Char} {rest : List Char} (hn : c ≠ '\n')
    (hr : c = '\r' → rest.head? ≠ some '\n') (ho : r.opensComment c = false)
    (hc : c = '<' → r.owed = .nothing → readsCode r.contexts = false) :
    r.resume (c :: rest) = (r.step c rest).resume rest :=
  r.resume_step hn hr ho fun _ hs => r.step_congr c hc (hs '(' (by simp))

end ShellIndex.Source
