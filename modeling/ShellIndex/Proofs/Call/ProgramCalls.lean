import ShellIndex.Catalog.Dependencies
import ShellIndex.Proofs.Call.Marks
import ShellIndex.Proofs.Call.ProgramView

set_option autoImplicit false

/-! # The calls of programs

The tracker has no grammar, and still finds the calls of structured programs: read from command
position, the masked view of a command yields the calls of its tree and leads out of command
position, inside any open `case` commands (`tracks_command`). Together with what a program shows
this gives the calls of its text (`filter_callsOf`).
-/

namespace ShellIndex.Program

open Text Source Call

variable {cases : List CasePart} {b : Bool}

/-! ## What may follow -/

theorem endsWord_semicolon (s : List Char) : EndsWord (';' :: s) :=
  endsWord_mark (by decide) (by decide) (by decide) s

theorem endsWord_closeParen (s : List Char) : EndsWord (')' :: s) :=
  endsWord_mark (by decide) (by decide) (by decide) s

theorem endsWord_joint (joint : Joint) (s : List Char) : EndsWord (joint.text.toList ++ s) := by
  cases joint with
  | semicolon => exact endsWord_semicolon _
  | lineFeed => exact endsWord_lineFeed _
  | both => exact endsWord_blank (c := '&') (by decide) (by decide) _
  | either => exact endsWord_blank (c := '|') (by decide) (by decide) _
  | pipe => exact endsWord_blank (c := '|') (by decide) (by decide) _

/-- An argument starts with a character that is neither blank nor a parenthesis. -/
theorem exists_argument (argument : Argument) : ∃ c s,
    argument.print blankOut = c :: s ∧ isBlank c = false ∧ c ≠ '(' := by
  cases argument with
  | word w =>
      obtain ⟨c, s, hs⟩ := List.exists_cons_of_ne_nil (show w.text.toList ≠ [] by
        simpa using w.ne_empty)
      have hplain : isPlain c = true := List.all_eq_true.mp w.plain c (by simp [hs])
      refine ⟨c, s, hs, isBlank_of_isPlain hplain, ?_⟩
      rintro rfl
      revert hplain
      decide +kernel
  | plainReference v => exact ⟨'$', _, rfl, by decide, by decide⟩
  | bracedReference v => exact ⟨'$', _, rfl, by decide, by decide⟩
  | substitution inside => exact ⟨'$', _, rfl, by decide, by decide⟩
  | quoted q => exact ⟨'"', _, rfl, by decide, by decide⟩

theorem endsWord_arguments (args : Arguments) {s : List Char} (h : EndsWord s) :
    EndsWord (args.print blankOut ++ s) := by
  cases args with
  | none => exact h
  | more argument rest =>
      obtain ⟨c, t, ht, hc, hp⟩ := exists_argument argument
      rw [Arguments.print, ht]
      exact endsWord_blank hc hp _

theorem endsRun_arms (arms : Arms) (s : List Char) :
    EndsRun (arms.print blankOut ++ (' ' :: s)) := by
  cases arms with
  | none => exact endsRun_cons (by decide) _
  | more opened pattern alternatives body rest =>
      rw [Arms.print, patternText]
      cases opened <;> exact endsRun_cons (c := ' ') (by decide) _

/-! ## Literal text -/

theorem mem_blankOut {s : List Char} {c : Char} (h : c ∈ blankOut s) : c = ' ' ∨ c = '\n' := by
  induction s with
  | nil => cases h
  | cons d s ih =>
      rw [blankOut] at h
      split at h
      · exact ih h
      · rcases List.mem_append.mp h with h | h
        · rw [maskInLine] at h
          split at h
          · exact Or.inr (by simpa using h)
          · exact Or.inl (mem_maskChar h)
        · exact ih h

/-- In command position or not. -/
def StandsAnyhow (cases : List CasePart) (k : Cursor) : Prop := ∃ b, Stands cases b k

/-- Blanked text changes nothing that its line ends leave alone. -/
theorem tracks_blankOut_of {pre : Cursor → Prop} (hline : Tracks Anything pre ['\n'] pre [])
    (s : List Char) : Tracks Anything pre (blankOut s) pre [] := by
  have hchar : ∀ c, c = ' ' ∨ c = '\n' → Tracks Anything pre [c] pre [] := by
    rintro c (rfl | rfl)
    · exact tracks_blank
    · exact hline
  have hall : ∀ c ∈ blankOut s, c = ' ' ∨ c = '\n' := fun c hc => mem_blankOut hc
  generalize blankOut s = l at hall
  induction l with
  | nil => exact Tracks.nil
  | cons c l ih =>
      have hl := ih fun d hd => hall d (List.mem_cons_of_mem c hd)
      exact (hchar c (hall c (by simp))).before hl

/-- Blanked text yields no calls. -/
theorem tracks_blankOut (s : List Char) :
    Tracks Anything (StandsAnyhow cases) (blankOut s) (StandsAnyhow cases) [] := by
  refine tracks_blankOut_of ?_ s
  rintro k before rest after ⟨b, hk⟩ hb hrest hnext
  exact tracks_lineFeed k before rest after hk hb hrest fun k' before' hk' =>
    hnext k' before' ⟨true, hk'⟩

/-- Behind blanked text a mark is read as anywhere. -/
theorem Tracks.behind_blankOut {tail : List Char → Prop} {view : List Char} {post : Cursor → Prop}
    {calls : List String} (h : ∀ b, Tracks tail (Stands cases b) view post calls)
    (s : List Char) :
    Tracks tail (StandsAnyhow cases) (blankOut s ++ view) post calls := by
  have hany : Tracks tail (StandsAnyhow cases) view post calls := by
    rintro k before rest after ⟨b, hk⟩
    exact h b k before rest after hk
  exact (tracks_blankOut s).before hany

/-- Behind a mark that leads out of command position literal text may stand. -/
theorem tracks_closerAnyhow {c : Char} (hc : inCommands cases = true)
    (h : c ∈ ['\'', '"', ')', '}']) :
    Tracks Anything (Awaits cases b) [c] (StandsAnyhow cases) [] :=
  (tracks_closer hc h).imp (fun _ hk => hk) fun _ hk => ⟨false, hk⟩

/-- What stands in a substitution is read from command position. -/
theorem tracks_substitution {view : List Char} {calls : List String} (hc : inCommands cases = true)
    (h : Tracks EndsWord (Stands cases true) view (Stands cases false) calls) :
    Tracks Anything (Awaits cases b) ("$(".toList ++ (view ++ ")".toList)) (Stands cases false)
      calls := by
  refine (tracks_openSubstitution hc).before ?_
  have hclose : Tracks Anything (Stands cases false) ")".toList (Stands cases false) [] :=
    (tracks_closer (c := ')') hc (by simp)).standing
  exact h.append_silent hclose fun rest _ => endsWord_closeParen rest

/-! ## Parts of commands -/

theorem tracks_wrapped (hc : inCommands cases = true)
    (wrapped : List (Wrapper × List WrapperOption)) :
    Tracks Anything (Stands cases true) (wrapped.flatMap wrapperText) (Stands cases true) [] := by
  induction wrapped with
  | nil => exact Tracks.nil
  | cons w wrapped ih =>
      rw [List.flatMap_cons]
      exact (tracks_wrapperText hc w).before ih

/-- The next part of a command starts behind a semicolon. -/
theorem tracks_part (hc : inCommands cases = true) (text : String)
    (ht : text ∈ ["if", "then", "else", "while", "do", "!"]) :
    Tracks Anything (Stands cases false) ("; ".toList ++ (text.toList ++ [' ']))
      (Stands cases true) [] :=
  (tracks_semicolon hc).before (tracks_keyword hc text ht)

theorem tracks_end (hc : inCommands cases = true) (text : String)
    (ht : text = "fi" ∨ text = "done") :
    Tracks EndsWord (Stands cases false) ("; ".toList ++ text.toList) (Stands cases false) [text] :=
  (tracks_semicolon hc).before (tracks_closing hc text ht)

/-- The body of a group ends in a brace. -/
theorem tracks_bodyEnd (hc : inCommands cases = true) :
    Tracks EndsWord (Stands cases false) "; \x7d".toList (Stands cases false) [] := by
  have hend : Tracks Anything (Stands cases false) ("; ".toList ++ ['}']) (Stands cases false) [] :=
    (tracks_semicolon hc).before (tracks_closer hc (by simp)).standing
  exact hend.anywhere

/-! ## Compound commands -/

section
variable {view view' view'' : List Char} {calls calls' calls'' : List String}

theorem tracks_group (hc : inCommands cases = true)
    (h : Tracks EndsWord (Stands cases true) view (Stands cases false) calls) :
    Tracks EndsWord (Stands cases true) ("\x7b ".toList ++ (view ++ "; \x7d".toList))
      (Stands cases false) calls := by
  have hopen := (tracks_opener hc (c := '{') (by simp)).before tracks_blank
  refine hopen.before ?_
  refine h.append_silent (tracks_bodyEnd hc) fun rest _ => ?_
  exact endsWord_semicolon _

theorem tracks_subshell (hc : inCommands cases = true)
    (h : Tracks EndsWord (Stands cases true) view (Stands cases false) calls) :
    Tracks EndsWord (Stands cases true) ("( ".toList ++ (view ++ " )".toList))
      (Stands cases false) calls := by
  have hopen := (tracks_opener hc (c := '(') (by simp)).before tracks_blank
  have hclose :=
    tracks_blank.before (tracks_closer (b := false) hc (c := ')') (by simp)).standing
  refine hopen.before ?_
  refine h.append_silent hclose.anywhere fun rest _ => ?_
  exact endsWord_blank (c := ')') (by decide) (by decide) _

theorem tracks_branch (hc : inCommands cases = true)
    (hcondition : Tracks EndsWord (Stands cases true) view (Stands cases false) calls)
    (hyes : Tracks EndsWord (Stands cases true) view' (Stands cases false) calls')
    (hno : Tracks EndsWord (Stands cases true) view'' (Stands cases false) calls'') :
    Tracks EndsWord (Stands cases true)
      ("if ".toList ++ (view ++ ("; then ".toList ++ (view' ++
        ("; else ".toList ++ (view'' ++ "; fi".toList))))))
      (Stands cases false) (calls ++ (calls' ++ (calls'' ++ ["fi"]))) := by
  refine (tracks_keyword hc "if" (by simp)).before ?_
  refine hcondition.append ?_ fun rest _ => endsWord_semicolon _
  refine (tracks_part hc "then" (by simp)).before ?_
  refine hyes.append ?_ fun rest _ => endsWord_semicolon _
  refine (tracks_part hc "else" (by simp)).before ?_
  refine hno.append ?_ fun rest _ => endsWord_semicolon _
  exact tracks_end hc "fi" (by simp)

theorem tracks_loop (hc : inCommands cases = true)
    (hcondition : Tracks EndsWord (Stands cases true) view (Stands cases false) calls)
    (hbody : Tracks EndsWord (Stands cases true) view' (Stands cases false) calls') :
    Tracks EndsWord (Stands cases true)
      ("while ".toList ++ (view ++ ("; do ".toList ++ (view' ++ "; done".toList))))
      (Stands cases false) (calls ++ (calls' ++ ["done"])) := by
  refine (tracks_keyword hc "while" (by simp)).before ?_
  refine hcondition.append ?_ fun rest _ => endsWord_semicolon _
  refine (tracks_part hc "do" (by simp)).before ?_
  refine hbody.append ?_ fun rest _ => endsWord_semicolon _
  exact tracks_end hc "done" (by simp)

/-- One command behind another. -/
theorem tracks_join (hc : inCommands cases = true) (joint : Joint)
    (h : Tracks EndsWord (Stands cases b) view (Stands cases false) calls)
    (h' : Tracks EndsWord (Stands cases true) view' (Stands cases false) calls') :
    Tracks EndsWord (Stands cases b) (view ++ (joint.text.toList ++ view'))
      (Stands cases false) (calls ++ calls') := by
  refine h.append ((joint.tracks hc).before h') fun _ _ => ?_
  rw [List.append_assoc]
  exact endsWord_joint joint _

end

/-! ## Programs -/

-- The induction follows the tree. The open `case` commands are arbitrary, since the body of an arm
-- stands in one more of them.
mutual

/-- From command position a command yields the listed words of its tree. -/
theorem tracks_command : (command : Command) → {cases : List CasePart} →
    inCommands cases = true →
    Tracks EndsWord (Stands cases true) (command.print blankOut) (Stands cases false) command.listed
  | .call wrapped name args, _, hc => by
      refine (tracks_wrapped hc wrapped).before ?_
      refine (name.tracks_call hc).standing.append (tracks_arguments args hc) fun rest h => ?_
      exact endsWord_arguments args h
  | .redirect command target, _, hc => by
      refine (tracks_command command hc).append_silent ?_ fun rest _ => ?_
      · exact (target.tracks_target hc).endsWord
      · exact endsWord_blank (c := '>') (by decide) (by decide) _
  | .negate command, _, hc =>
      (tracks_keyword hc "!" (by simp)).before (tracks_command command hc)
  | .group body, _, hc => tracks_group hc (tracks_sequence body hc)
  | .subshell body, _, hc => tracks_subshell hc (tracks_sequence body hc)
  | .branch condition yes no, _, hc =>
      tracks_branch hc (tracks_sequence condition hc) (tracks_sequence yes hc)
        (tracks_sequence no hc)
  | .loop condition body, _, hc =>
      tracks_loop hc (tracks_sequence condition hc) (tracks_sequence body hc)
  | .choose subject arms, _, hc => by
      refine (tracks_case hc).before ?_
      refine subject.tracks_subject.silent_append ?_ fun rest _ => endsRun_cons (by decide) _
      refine tracks_in.silent_append ?_ fun rest _ => ?_
      · refine (tracks_arms arms).append_silent ?_ fun _ _ => trivial
        exact tracks_esac.endsWord
      · rw [List.append_assoc]
        exact endsRun_arms arms _
  | .define keyword name body, _, hc => by
      refine (tracks_headerText hc keyword name).before ?_
      refine (tracks_sequence body hc).append_silent (tracks_bodyEnd hc) fun rest _ => ?_
      exact endsWord_semicolon _

theorem tracks_sequence : (s : Sequence) → {cases : List CasePart} → inCommands cases = true →
    Tracks EndsWord (Stands cases true) (s.print blankOut) (Stands cases false) s.listed
  | .single command, _, hc => tracks_command command hc
  | .join command joint rest, _, hc =>
      tracks_join hc joint (tracks_command command hc) (tracks_sequence rest hc)

theorem tracks_arguments : (args : Arguments) → {cases : List CasePart} →
    inCommands cases = true →
    Tracks EndsWord (Stands cases false) (args.print blankOut) (Stands cases false) args.listed
  | .none, _, _ => Tracks.nil
  | .more argument rest, _, hc => by
      refine tracks_blank.before ?_
      refine (tracks_argument argument hc).append (tracks_arguments rest hc) fun _ h => ?_
      exact endsWord_arguments rest h

theorem tracks_argument : (a : Argument) → {cases : List CasePart} → inCommands cases = true →
    Tracks EndsWord (Stands cases false) (a.print blankOut) (Stands cases false) a.listed
  | .word w, _, hc => (w.tracks_argument hc).standing.endsWord
  | .plainReference v, _, hc => (tracks_plainReference v hc).standing.endsWord
  | .bracedReference v, _, hc => (tracks_bracedReference v hc).standing.anywhere
  | .substitution inside, _, hc =>
      (tracks_substitution hc (tracks_sequence inside hc)).standing.anywhere
  | .quoted q, _, hc =>
      ((tracks_closerAnyhow hc (by simp)).standing.before (tracks_quoted q hc)).anywhere

theorem tracks_quoted : (q : Quoted) → {cases : List CasePart} → inCommands cases = true →
    Tracks Anything (StandsAnyhow cases) (q.print blankOut ++ ['"']) (Stands cases false) q.listed
  | .literal s, _, hc =>
      Tracks.behind_blankOut (fun _ => (tracks_closer hc (by simp)).standing) s.text
  | .substitution s inside rest, cases, hc => by
      have hrest : Tracks Anything (Stands cases false)
          (")".toList ++ (rest.print blankOut ++ ['"'])) (Stands cases false) rest.listed :=
        (tracks_closerAnyhow (c := ')') hc (by simp)).standing.before (tracks_quoted rest hc)
      have hinside := (tracks_sequence inside hc).append hrest fun _ _ => endsWord_closeParen _
      have hsub : ∀ b, Tracks Anything (Stands cases b) ("$(".toList ++ (inside.print blankOut ++
          (")".toList ++ (rest.print blankOut ++ ['"'])))) (Stands cases false)
          (inside.listed ++ rest.listed) := fun b =>
        (tracks_openSubstitution hc).standing.before hinside
      have hquoted := Tracks.behind_blankOut hsub s.text
      simpa [Quoted.print, Quoted.listed] using hquoted

theorem tracks_arms : (arms : Arms) → {cases : List CasePart} →
    Tracks Anything (InPatterns cases) (arms.print blankOut) (InPatterns cases) arms.listed
  | .none, _ => Tracks.nil
  | .more opened pattern alternatives body rest, cases => by
      refine (tracks_patternText opened pattern alternatives).before ?_
      have hbody : Tracks EndsWord (Stands (.body :: cases) true) (body.print blankOut)
          (Stands (.body :: cases) false) body.listed := tracks_sequence body rfl
      refine hbody.append ?_ fun _ _ => ?_
      · exact tracks_armEnd.before (tracks_arms rest)
      · exact endsWord_blank (c := ';') (by decide) (by decide) _

end

/-- The tracker lists for the masked view of a program the listed words of its tree. -/
theorem calls_view (s : Sequence) : Tracker.start.calls (lines s.view) = s.listed := by
  have htracks : Tracks EndsWord (Stands [] true) s.view (Stands [] false) s.listed :=
    tracks_sequence s rfl
  exact htracks.calls_lines

theorem callsOf_text (s : Sequence) (hs : s.Allowed false) :
    callsOf (String.ofList s.text) = s.listed := by
  have hshows : Shows [] none s.text s.view [] := shows_sequence s hs rfl fun _ => rfl
  rw [callsOf, hshows.map_code_scan.1, calls_view]

/-! ## Calls among the listed words -/

/-- Whether a call is more than a reserved word. -/
def isCall (name : String) : Bool := !reservedWords.contains name

theorem PlainWord.isCall_text (w : PlainWord) : isCall w.text = true := by
  simpa [isCall] using w.unreserved.1

mutual

theorem filter_listed_command : (command : Command) →
    command.listed.filter isCall = command.calls
  | .call _ name args => by
      rw [Command.listed, Command.calls, List.filter_cons_of_pos name.isCall_text,
        filter_listed_arguments args]
  | .redirect command _ => filter_listed_command command
  | .negate command => filter_listed_command command
  | .group body => filter_listed_sequence body
  | .subshell body => filter_listed_sequence body
  | .branch condition yes no => by
      have hfi : ["fi"].filter isCall = [] := by decide
      simp only [Command.listed, Command.calls, List.filter_append, hfi, List.append_nil,
        filter_listed_sequence condition, filter_listed_sequence yes, filter_listed_sequence no]
  | .loop condition body => by
      have hdone : ["done"].filter isCall = [] := by decide
      simp only [Command.listed, Command.calls, List.filter_append, hdone, List.append_nil,
        filter_listed_sequence condition, filter_listed_sequence body]
  | .choose _ arms => filter_listed_arms arms
  | .define _ _ body => filter_listed_sequence body

/-- But for reserved words the listed words are the calls. -/
theorem filter_listed_sequence : (s : Sequence) → s.listed.filter isCall = s.calls
  | .single command => filter_listed_command command
  | .join command _ rest => by
      rw [Sequence.listed, Sequence.calls, List.filter_append, filter_listed_command command,
        filter_listed_sequence rest]

theorem filter_listed_arguments : (args : Arguments) → args.listed.filter isCall = args.calls
  | .none => rfl
  | .more argument rest => by
      rw [Arguments.listed, Arguments.calls, List.filter_append, filter_listed_argument argument,
        filter_listed_arguments rest]

theorem filter_listed_argument : (a : Argument) → a.listed.filter isCall = a.calls
  | .word _ => rfl
  | .plainReference _ => rfl
  | .bracedReference _ => rfl
  | .substitution inside => filter_listed_sequence inside
  | .quoted q => filter_listed_quoted q

theorem filter_listed_quoted : (q : Quoted) → q.listed.filter isCall = q.calls
  | .literal _ => rfl
  | .substitution _ inside rest => by
      rw [Quoted.listed, Quoted.calls, List.filter_append, filter_listed_sequence inside,
        filter_listed_quoted rest]

theorem filter_listed_arms : (arms : Arms) → arms.listed.filter isCall = arms.calls
  | .none => rfl
  | .more _ _ _ body rest => by
      rw [Arms.listed, Arms.calls, List.filter_append, filter_listed_sequence body,
        filter_listed_arms rest]

end

/-- **The calls of a program are those of its tree**, but for reserved words. -/
theorem filter_callsOf (s : Sequence) (hs : s.Allowed false) :
    (callsOf (String.ofList s.text)).filter isCall = s.calls := by
  rw [callsOf_text s hs, filter_listed_sequence]

end ShellIndex.Program
