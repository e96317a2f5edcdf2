import ShellIndex.Catalog.Dependencies
import ShellIndex.Proofs.Call.Behind

set_option autoImplicit false

/-! # Line continuations

A blank between two words or operators of a script may be written as a backslash at the end of a
line. Where no command is expected this changes nothing. Where one is expected the backslash itself
is read as the name of the command, and what follows it as its arguments.
-/

namespace ShellIndex.Call

open Text Program

/-! ## Plain scripts are shown as they are -/

theorem shows_script {last : Option Char} {s : List Char} (hs : ∀ c ∈ s, isScriptChar c = true) :
    Source.Shows [] last s s [] := by
  induction s generalizing last with
  | nil => exact Source.Shows.nil
  | cons c s ih =>
      have hc := hs c (by simp)
      have hplain : Source.isPlainCode c = true := by
        simp only [isScriptChar, Bool.and_eq_true] at hc
        exact hc.1.1.1.1
      have hfirst : Source.Shows [] last [c] [c] (Source.parens [] c) :=
        Source.Shows.code rfl hplain (ne_of_isScriptChar hc (by decide))
      have hparens : Source.parens [] c = [] := by
        unfold Source.parens
        repeat' split
        all_goals rfl
      rw [hparens] at hfirst
      exact hfirst.append (ih fun d hd => hs d (List.mem_cons_of_mem c hd))

/-- A backslash at the end of a line stays visible. -/
theorem shows_continuation {last : Option Char} :
    Source.Shows [] last ['\\', '\n'] ['\\', '\n'] [] := by
  intro r rest more stop hat hk
  let r' : Source.Reader := { r.keep '\\' with owed := .escaped }
  have hstep : r.stepFree '\\' ('\n' :: rest) = r' := by
    rw [hat.stepFree_code rfl]
    rfl
  have hcode : '\r' ∉ '\\' :: r.code := by simpa using hat.no_return
  have hcontexts : r'.contexts = [] := hat.contexts_eq
  simp only [List.cons_append, List.nil_append]
  rw [hat.resume_cons (by decide) (by simp) (fun _ => by decide), hstep,
    r'.resume_lineFeed hat.heredocs_eq, Source.Course.plain_cons _ (by decide),
    Source.Course.plain_lineFeed hcode, hcontexts, hk _ (Source.Reader.at_start [])]
  rfl

/-- Two texts with a line continuation between them. -/
def continued (s t : List Char) : List Char := s ++ ' ' :: '\\' :: '\n' :: t

theorem callsOf_script {s : List Char} (hs : ∀ c ∈ s, isScriptChar c = true) :
    callsOf (String.ofList s) = Tracker.start.calls (lines s) := by
  rw [callsOf, (shows_script hs).map_code_scan.1]

theorem callsOf_continued {s t : List Char} (hs : ∀ c ∈ s, isScriptChar c = true)
    (ht : ∀ c ∈ t, isScriptChar c = true) :
    callsOf (String.ofList (continued s t)) = Tracker.start.calls (lines (continued s t)) := by
  have hblank : ∀ c ∈ s ++ [' '], isScriptChar c = true := by
    simpa [or_imp, forall_and] using ⟨hs, by decide⟩
  have hshows : Source.Shows [] none ((s ++ [' ']) ++ (['\\', '\n'] ++ t))
      ((s ++ [' ']) ++ (['\\', '\n'] ++ t)) [] :=
    (shows_script hblank).append (shows_continuation.append (shows_script ht))
  have htext : continued s t = (s ++ [' ']) ++ (['\\', '\n'] ++ t) := by simp [continued]
  rw [callsOf, htext, hshows.map_code_scan.1]

/-! ## The backslash as a word -/

variable {k : Cursor} {before t : List Char}

/-- Where no command is expected a word changes nothing, unless it is `in` or `esac`. -/
theorem Cursor.Ordinary.word_eq_none (hk : k.Ordinary) (hexpects : k.expectsCommand = false)
    (text : String) (hin : text ≠ "in") (hesac : text ≠ "esac") (defines : Bool) :
    (k.word text defines).2 = none ∧ (k.word text defines).1.cases = k.cases ∧
      (k.word text defines).1.atCommand = k.atCommand ∧
      (k.word text defines).1.inArray = false := by
  have hread : (reading k text defines).inArray = false := hk.inArray_eq
  rw [word_eq, hk.afterRedirection_eq, hk.afterDollar_eq, Cursor.place, hread]
  simp only [Bool.false_or, Bool.false_eq_true, if_false]
  split
  · rw [if_neg hin]
    exact ⟨rfl, rfl, rfl, hk.inArray_eq⟩
  · rw [if_neg hesac]
    exact ⟨rfl, rfl, rfl, hk.inArray_eq⟩
  · next hsubject hpattern =>
      have hat : k.atCommand = false := by
        have hin := Cursor.inCommands_eq_true hsubject hpattern
        simpa [Cursor.expectsCommand, show inCommands k.cases = true from hin] using hexpects
      have hat' : (reading k text defines).atCommand = false := hat
      rw [hat', if_pos (by decide)]
      exact ⟨rfl, rfl, hat.symm, rfl⟩

/-- Behind the call of a command. -/
def called (k : Cursor) (text : String) : Cursor :=
  { reading k text false with afterWrapper := false, atCommand := false }

/-- The name of an expected command is a call. -/
theorem Cursor.Ordinary.word_eq_called (hk : k.Ordinary) (hexpects : k.expectsCommand = true)
    (hfunction : k.afterFunction = false) {text : String}
    (htext : ∀ k : Cursor, k.command text false =
      ({ k with afterWrapper := false, atCommand := false }, some text)) :
    k.word text false = (called k text, some text) := by
  obtain ⟨hat, hin⟩ := Bool.and_eq_true_iff.mp hexpects
  have hawaits : Awaits k.cases true k :=
    ⟨⟨rfl, hat, hk.inArray_eq⟩, hk.afterDollar_eq, hfunction, hk.afterRedirection_eq⟩
  rw [hawaits.word_eq hin, htext]
  rfl

theorem command_backslash (k : Cursor) :
    k.command "\\" false = ({ k with afterWrapper := false, atCommand := false }, some "\\") :=
  Cursor.command_of_isCommandName (by decide) (by simp [show isOption "\\" = false by decide])

theorem command_name (name : Name) (k : Cursor) :
    k.command name.text false =
      ({ k with afterWrapper := false, atCommand := false }, some name.text) := by
  rw [name.command_eq, name.not_option]
  simp

/-- A backslash at the end of a line is read as a word, and the next line goes on. -/
theorem Cursor.resume_continuation (k : Cursor) (before t : List Char) :
    k.resume before ('\\' :: '\n' :: t) =
      (k.word "\\" false).2.toList ++
        (Tracker.mk (k.word "\\" false).1.cases (k.word "\\" false).1.atCommand
          (k.word "\\" false).1.inArray true).startLine.resume [] t := by
  have hline : firstLine ('\n' :: t) = [] := firstLine_lineFeed t
  have hend : ∀ c, ('\n' :: t).head? = some c → Lexeme.isWordChar c = false := by
    rintro c hc
    obtain rfl : '\n' = c := by simpa using hc
    decide
  have hword := k.resume_word before (w := ['\\']) (by simp)
    (List.forall_mem_singleton.mpr (by decide)) hend
  have hcontinued : (trimEnd (['\\'].reverse ++ before).reverse).getLast? = some '\\' := by
    rw [List.reverse_append, List.reverse_reverse]
    exact getLast?_trimEnd_append (by decide) _ rfl
  rw [hline, Cursor.resume_lineFeed, Tracker.endLine, hcontinued] at hword
  exact hword

/-! ## What a line continuation changes -/

section
variable {s t : List Char}

/-- A line continuation is read as a word that a backslash is, and the next line goes on. -/
theorem calls_lines_continued (hs : ∀ c ∈ s, isScriptChar c = true) (t : List Char) :
    Tracker.start.calls (lines (continued s t)) =
      callsBefore s ++
        (((cursorBehind s).word "\\" false).2.toList ++
          (Tracker.mk ((cursorBehind s).word "\\" false).1.cases
            ((cursorBehind s).word "\\" false).1.atCommand
            ((cursorBehind s).word "\\" false).1.inArray true).startLine.resume [] t) := by
  have hline : firstLine ('\\' :: '\n' :: t) = ['\\'] := @firstLine_line ['\\'] (by simp) t
  rw [continued, calls_lines_append (by decide) (no_return hs), Cursor.resume_continuation]
  · rw [hline]
    decide
  · rw [hline]
    exact fun _ => by decide

/-- **Where no command is expected a line continuation is transparent**, unless it stands in the
header of a definition. -/
theorem callsOf_continued_argument (hs : ∀ c ∈ s, isScriptChar c = true)
    (ht : ∀ c ∈ t, isScriptChar c = true) (hheader : splitsHeader s t = false)
    (hfunction : (cursorBehind s).afterFunction = false)
    (hexpects : (cursorBehind s).expectsCommand = false) {b : Char} (hb : isInlineBlank b = true) :
    callsOf (String.ofList (continued s t)) = callsOf (String.ofList (s ++ b :: t)) := by
  obtain ⟨hparens, hpair, hbrace⟩ := of_splitsHeader ht hheader
  have hk := ordinary_cursorBehind hs
  obtain ⟨hnone, hcases, hat, harray⟩ :=
    hk.word_eq_none hexpects "\\" (by decide) (by decide) false
  have hbchar : isScriptChar b = true := by
    simp only [isInlineBlank, Bool.or_eq_true, beq_iff_eq] at hb
    rcases hb with rfl | rfl <;> decide
  have hjoined : ∀ c ∈ s ++ b :: t, isScriptChar c = true := by
    simpa [or_imp, forall_and] using ⟨hs, hbchar, ht⟩
  -- The next line starts where the cursor stood before the backslash.
  let next : Cursor :=
    (Tracker.mk (cursorBehind s).cases (cursorBehind s).atCommand false true).startLine
  have hresume : (cursorBehind s).resume (b :: (lastLine s).reverse) t = next.resume [] t := by
    refine Cursor.Alike.resume_eq hk (ordinary_startLine rfl) ?_ ?_ (by simp) ht ?_
    · refine ⟨rfl, ?_, hfunction, fun hc => ?_⟩
      · simp [Tracker.startLine]
      · rw [hexpects] at hc
        cases hc
    · rw [List.mem_cons, not_or, List.mem_reverse]
      refine ⟨fun e => ne_of_isScriptChar hbchar (by decide) e.symm, fun hmem => ?_⟩
      exact ne_of_isScriptChar (hs _ (mem_of_mem_lastLine hmem)) (by decide) rfl
    · intro hopen
      exact ⟨fun hclose => absurd hopen (hbrace hclose), fun hclose => by cases hclose⟩
  calc callsOf (String.ofList (continued s t))
      = callsBefore s ++ next.resume [] t := by
        rw [callsOf_continued hs ht, calls_lines_continued hs, hnone, hcases, hat, harray]
        rfl
    _ = callsBefore s ++ (cursorBehind s).resume (b :: (lastLine s).reverse) t := by
        rw [hresume]
    _ = callsOf (String.ofList (s ++ b :: t)) := by
        rw [callsOf_script hjoined, calls_lines_append hb (no_return hs) hparens hpair]

theorem isScriptChar_of_isPlain {c : Char} (h : isPlain c = true) : isScriptChar c = true := by
  have hne := fun d => ne_of_isPlain h (d := d)
  simp only [cutMarks, List.mem_cons, List.not_mem_nil, or_false, forall_eq_or_imp,
    forall_eq] at hne
  simp [isScriptChar, Source.isPlainCode, hne]

/-- The name of an expected command is a call, and what follows is read as its arguments. -/
theorem calls_lines_command (hs : ∀ c ∈ s, isScriptChar c = true)
    (hparens : Lexeme.startsWithParens (firstLine t) = false)
    (hfunction : (cursorBehind s).afterFunction = false)
    (hexpects : (cursorBehind s).expectsCommand = true) (name : Name) :
    Tracker.start.calls (lines (s ++ ' ' :: (name.text.toList ++ ' ' :: t))) =
      callsBefore s ++ name.text :: (called (cursorBehind s) name.text).resume
        (' ' :: (name.text.toList.reverse ++ ' ' :: (lastLine s).reverse)) t := by
  have hplain := List.all_eq_true.mp name.plain
  have hne : name.text.toList ≠ [] := by simpa using name.ne_empty
  obtain ⟨c, w, hw⟩ := List.exists_cons_of_ne_nil hne
  have hc : isPlain c = true := hplain c (by simp [hw])
  have hword : ∀ c ∈ name.text.toList, Lexeme.isWordChar c = true := fun c hc =>
    isWordChar_of_isPlain (hplain c hc)
  have hline : firstLine (name.text.toList ++ ' ' :: t) = c :: (w ++ ' ' :: firstLine t) := by
    rw [(firstLine_append (fun d hd => Lexeme.ne_lineFeed_of_isWordChar (hword d hd)) _).1,
      firstLine_cons (by decide) (by simp), hw, List.cons_append]
  have hblank : firstLine (' ' :: t) = ' ' :: firstLine t := firstLine_cons (by decide) (by simp)
  have hend : ∀ d, (' ' :: t).head? = some d → Lexeme.isWordChar d = false := by
    intro d hd
    obtain rfl : ' ' = d := by simpa using hd
    decide
  have hcall := (ordinary_cursorBehind hs).word_eq_called hexpects hfunction (command_name name)
  rw [calls_lines_append (by decide) (no_return hs), Cursor.resume_word _ _ hne hword hend,
    String.ofList_toList, hblank, startsWithParens_blank, hparens, hcall,
    Cursor.resume_blank _ _ (by decide) (by decide) (by decide)]
  · rfl
  · rw [hline]
    exact startsWithParens_cons (isBlank_of_isPlain hc) (ne_of_isPlain hc (by decide)) _
  · rw [hline]
    intro _ hclose
    rw [trimStart, List.dropWhile_cons_of_neg (by simp [isBlank_of_isPlain hc])] at hclose
    exact ne_of_isPlain hc (d := ')') (by decide) (by simpa using hclose)

/-- **Where a command is expected the backslash is read as its name**, and what follows the line
continuation as its arguments. -/
theorem callsOf_continued_command (hs : ∀ c ∈ s, isScriptChar c = true)
    (ht : ∀ c ∈ t, isScriptChar c = true) (hparens : Lexeme.startsWithParens (firstLine t) = false)
    (hfunction : (cursorBehind s).afterFunction = false)
    (hexpects : (cursorBehind s).expectsCommand = true) :
    ∃ before after, callsOf (String.ofList (continued s t)) = before ++ "\\" :: after ∧
      ∀ name : Name, callsOf (String.ofList (s ++ ' ' :: (name.text.toList ++ ' ' :: t))) =
        before ++ name.text :: after := by
  have hk := ordinary_cursorBehind hs
  have hbackslash := hk.word_eq_called hexpects hfunction command_backslash
  refine ⟨callsBefore s, (Tracker.mk (cursorBehind s).cases false false true).startLine.resume [] t,
    ?_, fun name => ?_⟩
  · have harray : (called (cursorBehind s) "\\").inArray = false := hk.inArray_eq
    rw [callsOf_continued hs ht, calls_lines_continued hs, hbackslash, harray]
    rfl
  · have hplain : ∀ c ∈ name.text.toList, isScriptChar c = true := fun c hc =>
      isScriptChar_of_isPlain (List.all_eq_true.mp name.plain c hc)
    have hnamed : ∀ c ∈ s ++ ' ' :: (name.text.toList ++ ' ' :: t), isScriptChar c = true := by
      simpa [or_imp, forall_and] using ⟨hs, by decide, hplain, by decide, ht⟩
    have hcalled : (called (cursorBehind s) name.text).Ordinary := by
      have hstep := hk.step (l := .word name.text false)
        (by simpa [Lexeme.isOrdinary] using name.isToken.no_equals)
      have hcall := hk.word_eq_called hexpects hfunction (command_name name)
      rwa [show ((cursorBehind s).step (.word name.text false)).1 =
        called (cursorBehind s) name.text from congrArg Prod.fst hcall] at hstep
    rw [callsOf_script hnamed, calls_lines_command hs hparens hfunction hexpects name]
    -- Behind the name as behind the continuation arguments are read.
    refine congrArg (callsBefore s ++ name.text :: ·) ?_
    refine Cursor.Alike.resume_eq hcalled (ordinary_startLine rfl)
      ⟨rfl, rfl, rfl, fun hc => by cases hc⟩ ?_ (by simp) ht fun _ => ?_
    · simp only [List.mem_cons, List.mem_append, List.mem_reverse, not_or]
      refine ⟨by decide, fun hmem => ?_, by decide, fun hmem => ?_⟩
      · exact ne_of_isScriptChar (hplain _ hmem) (by decide) rfl
      · exact ne_of_isScriptChar (hs _ (mem_of_mem_lastLine hmem)) (by decide) rfl
    · simp [called, reading, Tracker.startLine]

end

end ShellIndex.Call
