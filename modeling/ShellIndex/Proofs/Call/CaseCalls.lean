import ShellIndex.Proofs.Call.CaseCommand

set_option autoImplicit false

/-! # The calls of `case` commands

The tracker goes through three states in a `case` command: its subject, the patterns of an arm and
the body of an arm. The end of an arm leads back to the patterns of the innermost open command, and
`esac` leads out of it, so that the commands that were open before are open behind it
(`tracks_statement`).

What stands in front of a body decides how it is read (`ArmHead.tracks`). Where no command is
expected at its start a call loses its name.
-/

namespace ShellIndex.Program

open Text Source Call

/-! ## The parts of a `case` command -/

section
variable {cases : List CasePart} {b : Bool}

theorem tracks_lineEnds {pre : Cursor → Prop} (hline : Tracks Anything pre ['\n'] pre []) (n : Nat) :
    Tracks Anything pre (lineEnds n) pre [] := by
  induction n with
  | zero => exact Tracks.nil
  | succ n ih => exact hline.before ih

/-- Line ends lead into command position. -/
theorem tracks_newLines (n : Nat) :
    Tracks Anything (Stands cases b) (lineEnds n) (Stands cases (decide (0 < n) || b)) [] := by
  cases n with
  | zero => exact Tracks.nil
  | succ n => exact tracks_lineFeed.before (tracks_lineEnds tracks_lineFeed n)

theorem tracks_patternLineFeed :
    Tracks Anything (InPatterns cases) ['\n'] (InPatterns cases) [] := by
  refine tracks_lineEnd ?_
  rintro k ⟨b, hk⟩
  exact ⟨true, ⟨⟨hk.cases_eq, rfl, hk.inArray_eq⟩, rfl, rfl, rfl, rfl, rfl⟩⟩

theorem Ending.tracks (ending : Ending) :
    Tracks Anything (Stands (.body :: cases) b) ending.text (InPatterns cases) [] := by
  cases ending with
  | stop => exact tracks_armMark (Or.inl rfl)
  | fall => exact tracks_armMark (Or.inr rfl)
  | test =>
      -- The ampersand is read among the patterns of the next arm.
      exact (tracks_armMark (c := ';') (Or.inl rfl)).before (tracks_patternMark (c := '&') (by simp))

/-- **The head of an arm** leads from the patterns into the body. -/
theorem ArmHead.tracks (head : ArmHead) :
    Tracks Anything (InPatterns cases) head.text (Stands (.body :: cases) head.expects)
      head.listed := by
  have hopen : Tracks Anything (InPatterns cases) (if head.opened then " (" else " ").toList
      (InPatterns cases) [] := by
    cases head.opened with
    | true => exact tracks_blank.before (tracks_patternMark (Or.inl rfl))
    | false => exact tracks_blank
  have hpatterns : Tracks EndsWord (InPatterns cases) head.patterns.text
      (AtSide cases (head.patterns.after .before)) head.listed := by
    refine head.patterns.tracks.imp ?_ fun _ hk => hk
    rintro k ⟨b, hk⟩
    exact ⟨b, hk.awaits⟩
  have hclose : Tracks Anything (AtSide cases (head.patterns.after .before)) ")".toList
      (Stands (.body :: cases) (!head.patterns.hasParens)) [] :=
    tracks_lone .closeParen (by decide) (by decide) (fun _ => rfl) (by simp) fun _ hk =>
      ⟨hk.closeParen head.patterns.close_after, rfl⟩
  have hbelow := hclose.before ((tracks_newLines head.below).before tracks_blank)
  refine (tracks_lineEnds tracks_patternLineFeed head.above).before (hopen.before ?_)
  exact hpatterns.append_silent hbelow fun rest _ => by
    rw [List.append_assoc]
    exact endsWord_closeParen _

/-- No word of the patterns is a call, and a command is expected in front of the body. -/
def ArmHead.WellRead (head : ArmHead) (body : Option Block) : Prop :=
  ∀ cases : List CasePart, ∃ b, (b = true ∨ body = none) ∧
    Tracks Anything (InPatterns cases) head.text (Stands (.body :: cases) b) []

theorem ArmHead.wellRead_iff (head : ArmHead) (body : Option Block) :
    head.WellRead body ↔ head.Kept body := by
  constructor
  · intro h
    obtain ⟨b, hb, htracks⟩ := h []
    have hstart : InPatterns [] (Tracker.startLine ⟨[.pattern], true, false, false⟩) :=
      ⟨true, ⟨rfl, rfl, rfl⟩, rfl, rfl, rfl, rfl, rfl⟩
    have hlisted : head.listed = [] := by
      rw [← head.tracks.anywhere.resume_eq hstart, htracks.anywhere.resume_eq hstart]
    -- A name behind the head tells whether a command is expected there.
    let x : Name := ⟨⟨"x", by decide, by decide +kernel, by decide⟩, by decide⟩
    have hname : ∀ b, Tracks EndsWord (Stands [.body] b) x.text.toList (Stands [.body] false)
        (if b then [x.text] else []) := by
      intro b
      cases b with
      | true => exact (x.tracks_call rfl).standing
      | false => exact (x.tracks_argument rfl).standing.endsWord
    have hlisted' := (head.tracks.before (hname head.expects)).resume_eq hstart
    have hnone := (htracks.before (hname b)).resume_eq hstart
    have hexpects : head.expects = b := by
      rw [hnone, hlisted] at hlisted'
      revert hlisted'
      cases head.expects <;> cases b <;> simp
    rw [← hexpects] at hb
    exact ⟨hlisted, hb⟩
  · rintro ⟨hlisted, hexpects⟩ cases
    refine ⟨head.expects, hexpects, ?_⟩
    rw [← hlisted]
    exact head.tracks

/-- In the body of an arm `esac` ends its `case` command. -/
theorem tracks_esacBody :
    Tracks EndsRun (Stands (.body :: cases) true) "esac".toList (Stands cases false) [] := by
  have htoken : IsToken "esac" := ⟨⟨by decide, by decide, by decide⟩, by decide⟩
  refine tracks_word htoken.toIsWord fun k defines hk => ?_
  have hread := hk.toWithin.reading htoken defines
  have hcommand : (reading k "esac" defines).command "esac" defines =
      ({ reading k "esac" defines with cases := cases, atCommand := false }, none) := by
    rw [Cursor.command, if_neg (by decide), if_pos rfl, hread.cases_eq]
    rfl
  rw [hk.awaits.word_eq rfl, hcommand]
  exact ⟨hread.with_cases cases false, rfl⟩

/-! ## Subjects -/

/-- Among patterns the word `in` means nothing. -/
theorem tracks_patternIn :
    Tracks EndsRun (InPatterns cases) " in".toList (InPatterns cases) [] := by
  have htoken : IsToken "in" := ⟨⟨by decide, by decide, by decide⟩, by decide⟩
  have hword : Tracks EndsRun (InPatterns cases) "in".toList (InPatterns cases) [] := by
    refine tracks_word htoken.toIsWord ?_
    rintro k defines ⟨b, hk⟩
    have hread := hk.toWithin.reading htoken defines
    rw [word_eq, hk.afterRedirection_eq, place_pattern hread.toWithin, if_neg (by decide)]
    exact ⟨⟨b, hread⟩, rfl⟩
  exact tracks_blank.before hword

/-- Behind a variable with the name `in` the patterns are taken to start. -/
theorem Variable.tracks_subject (v : Variable) :
    Tracks EndsRun (InSubject cases) (['$'] ++ v.text.toList)
      (if v.text = "in" then InPatterns cases else InSubject cases) [] := by
  have hdollar : Tracks Anything (InSubject cases) ['$'] (AtDollar (.subject :: cases) false) [] :=
    tracks_dollar.standing
  refine hdollar.before (tracks_word v.isToken.toIsWord fun k defines hk => ?_)
  have hread := hk.toWithin.reading v.isToken defines
  rw [word_eq, hk.afterRedirection_eq, place_subject hread.toWithin]
  by_cases hin : v.text = "in"
  · rw [if_pos hin, if_pos hin]
    exact ⟨⟨_, hread.with_cases (.pattern :: cases) _⟩, rfl⟩
  · rw [if_neg hin, if_neg hin]
    exact ⟨hread, rfl⟩

theorem tracks_subjectQuote :
    Tracks Anything (Stands (.subject :: cases) b) ['"'] (Stands (.subject :: cases) b) [] := by
  refine tracks_lone .quote (by decide) (by decide) (fun _ => rfl) (by simp) fun k hk => ?_
  have hi : Within (.subject :: cases) b (k.interpret .quote) := by
    rw [Cursor.interpret, hk.inArray_eq, hk.cases_eq]
    exact hk.toWithin
  exact ⟨hk.of_interpret hi (by simp) (by simp), rfl⟩

/-- Whatever the subject is, the patterns follow behind `in`. -/
theorem Subject.tracks_in (subject : Subject) :
    Tracks EndsRun (InSubject cases) (subject.print blankOut ++ " in".toList) (InPatterns cases)
      [] := by
  have hend : ∀ rest, EndsRun (" in".toList ++ rest) := fun _ => endsRun_cons (by decide) _
  cases subject with
  | word w => exact w.tracks_subject.silent_append Program.tracks_in fun _ _ => hend _
  | reference v =>
      have hname : Tracks EndsRun (InSubject cases) _ _ _ := v.tracks_subject
      split at hname
      · exact hname.silent_append tracks_patternIn fun _ _ => hend _
      · exact hname.silent_append Program.tracks_in fun _ _ => hend _
  | quoted q =>
      have hopen : Tracks Anything (InSubject cases) ['"'] (StandsAnyhow (.subject :: cases)) [] :=
        tracks_subjectQuote.imp (fun _ hk => hk) fun _ hk => ⟨false, hk⟩
      have hsubject := hopen.before (Tracks.behind_blankOut
        (fun _ => tracks_subjectQuote.before Program.tracks_in) q.text)
      rw [Subject.print, List.append_assoc, List.append_assoc]
      exact hsubject

/-! ## Bodies -/

/-- Where no command is expected the name of a call is an argument. -/
theorem tracks_lost (hc : inCommands cases = true) (wrapped : List (Wrapper × List WrapperOption))
    (name : Name) (args : Arguments) :
    Tracks EndsWord (Stands cases false) ((Command.call wrapped name args).print blankOut)
      (Stands cases false) args.listed := by
  have hword : ∀ {text : String}, IsToken text →
      Tracks Anything (Stands cases false) (text.toList ++ [' ']) (Stands cases false) [] := by
    intro text htoken
    refine (tracks_word htoken.toIsWord fun k defines hk => ?_).then_blank
    have hread := hk.toWithin.reading htoken defines
    rw [hk.awaits.argument_eq hc]
    exact ⟨hread.with_atCommand false, rfl⟩
  have hoptions : ∀ options : List WrapperOption, Tracks Anything (Stands cases false)
      (options.flatMap fun o => o.text.toList ++ [' ']) (Stands cases false) [] := by
    intro options
    induction options with
    | nil => exact Tracks.nil
    | cons o options ih => exact (hword o.isToken).before ih
  have hwrapped : Tracks Anything (Stands cases false) (wrapped.flatMap wrapperText)
      (Stands cases false) [] := by
    induction wrapped with
    | nil => exact Tracks.nil
    | cons w wrapped ih =>
        have htoken : IsToken w.1.text := by
          cases w.1 <;> exact ⟨⟨by decide, by decide, by decide⟩, by decide⟩
        exact ((hword htoken).before (hoptions w.2)).before ih
  refine hwrapped.before ?_
  refine (name.tracks_argument hc).standing.silent_append (tracks_arguments args hc) fun rest h => ?_
  exact (endsWord_arguments args h).1

/-- Where no command is expected a call loses its name, and nothing else. -/
theorem Statement.tracks_from (s : Statement) (hc : inCommands cases = true) {expected : Bool}
    (hs : expected = true ∨ s.isCall = true)
    (h : Tracks EndsWord (Stands cases true) (s.print blankOut) (Stands cases false) s.listed) :
    Tracks EndsWord (Stands cases expected) (s.print blankOut) (Stands cases false)
      (namesFrom expected s.listed) := by
  cases expected with
  | true => exact h
  | false =>
      have hcall : s.isCall = true := hs.resolve_left (by simp)
      match s, hcall with
      | .plain (.call wrapped name args), _ => exact tracks_lost hc wrapped name args

/-- Only the first command of a row can lose its name. -/
theorem Statement.namesFrom_append (s : Statement) {expected : Bool}
    (hs : expected = true ∨ s.isCall = true) (more : List String) :
    namesFrom expected (s.listed ++ more) = namesFrom expected s.listed ++ more := by
  cases expected with
  | true => rfl
  | false =>
      have hcall : s.isCall = true := hs.resolve_left (by simp)
      match s, hcall with
      | .plain (.call wrapped name args), _ => rfl

theorem endsRun_armList (arms : ArmList) (s : List Char) :
    EndsRun (arms.print blankOut ++ s) := by
  have hlines : ∀ (n : Nat) (c : Char) (t : List Char), Lexeme.isWordChar c = false →
      EndsRun (lineEnds n ++ c :: t) := by
    intro n c t hc
    cases n with
    | zero => exact endsRun_cons hc t
    | succ n => exact endsRun_cons (c := '\n') (by decide) _
  have hhead : ∀ (head : ArmHead) (t : List Char), EndsRun (head.text ++ t) := by
    intro head t
    rw [ArmHead.text, List.append_assoc]
    cases head.opened <;> exact hlines head.above ' ' _ (by decide)
  cases arms with
  | none above =>
      rw [ArmList.print, List.append_assoc]
      exact hlines above ' ' _ (by decide)
  | skip head ending rest =>
      rw [ArmList.print, List.append_assoc]
      exact hhead head _
  | more head body above ending rest =>
      rw [ArmList.print, List.append_assoc]
      exact hhead head _
  | last head body onNext =>
      rw [ArmList.print, List.append_assoc]
      exact hhead head _

/-- What may follow the body of an arm. -/
theorem endsWord_ending (above : Nat) (ending : Ending) (s : List Char) :
    EndsWord (lineEnds above ++ (" ".toList ++ (ending.text ++ s))) := by
  cases above with
  | zero => cases ending <;> exact endsWord_blank (c := ';') (by decide) (by decide) _
  | succ n => exact endsWord_lineFeed _

end

/-! ## Nested commands -/

-- The induction follows the trees. The open `case` commands are arbitrary, since the body of an arm
-- stands in one more of them.
mutual

/-- Where a command is expected a statement yields its listed words, and leaves the open `case`
commands as they are. -/
theorem tracks_statement : (s : Statement) → {cases : List CasePart} → inCommands cases = true →
    s.ForArms ArmHead.Regular →
    Tracks EndsWord (Stands cases true) (s.print blankOut) (Stands cases false) s.listed
  | .plain command, _, hc, _ => tracks_command command hc
  | .group body, _, hc, h => tracks_group hc (tracks_block body hc (Or.inl rfl) h)
  | .subshell body, _, hc, h => tracks_subshell hc (tracks_block body hc (Or.inl rfl) h)
  | .branch condition yes no, _, hc, ⟨hcondition, hyes, hno⟩ =>
      tracks_branch hc (tracks_block condition hc (Or.inl rfl) hcondition)
        (tracks_block yes hc (Or.inl rfl) hyes) (tracks_block no hc (Or.inl rfl) hno)
  | .loop condition body, _, hc, ⟨hcondition, hbody⟩ =>
      tracks_loop hc (tracks_block condition hc (Or.inl rfl) hcondition)
        (tracks_block body hc (Or.inl rfl) hbody)
  | .define keyword name body, _, hc, h => by
      refine (tracks_headerText hc keyword name).before ?_
      have hbody := tracks_block body hc (Or.inl rfl) h
      exact hbody.append_silent (tracks_bodyEnd hc) fun rest _ => endsWord_semicolon _
  | .choose subject arms, _, hc, h => by
      refine (tracks_case hc).before ?_
      refine subject.tracks_in.silent_append (tracks_armList arms h) fun rest _ => ?_
      exact endsRun_armList arms rest

theorem tracks_block : (body : Block) → {cases : List CasePart} → {expected : Bool} →
    inCommands cases = true → expected = true ∨ body.startsWithCall = true →
    body.ForArms ArmHead.Regular →
    Tracks EndsWord (Stands cases expected) (body.print blankOut) (Stands cases false)
      (namesFrom expected body.listed)
  | .single s, _, _, hc, hs, h => s.tracks_from hc hs (tracks_statement s hc h)
  | .join s joint rest, _, expected, hc, hs, ⟨h, hrest⟩ => by
      have hfirst := s.tracks_from hc hs (tracks_statement s hc h)
      have hboth := tracks_join hc joint hfirst (tracks_block rest hc (Or.inl rfl) hrest)
      rw [Block.listed, s.namesFrom_append hs]
      exact hboth

theorem tracks_armList : (arms : ArmList) → {cases : List CasePart} →
    arms.ForArms ArmHead.Regular →
    Tracks EndsWord (InPatterns cases) (arms.print blankOut) (Stands cases false) arms.listed
  | .none above, _, _ =>
      (tracks_lineEnds tracks_patternLineFeed above).before tracks_esac.endsWord
  | .skip head ending rest, _, ⟨_, h⟩ => by
      refine head.tracks.before ?_
      exact ending.tracks.before (tracks_armList rest h)
  | .more head body above ending rest, cases, ⟨hs, hbody, hrest⟩ => by
      have hcommands : Tracks EndsWord (Stands (.body :: cases) head.expects) (body.print blankOut)
          (Stands (.body :: cases) false) (namesFrom head.expects body.listed) :=
        tracks_block body rfl (hs.imp_right fun h => h body rfl) hbody
      refine head.tracks.before (hcommands.append ?_ fun t _ => ?_)
      · refine (tracks_newLines above).before ?_
        exact tracks_blank.before (ending.tracks.before (tracks_armList rest hrest))
      · simp only [List.append_assoc]
        exact endsWord_ending above ending _
  | .last head body onNext, cases, ⟨hs, hbody⟩ => by
      have hcommands : Tracks EndsWord (Stands (.body :: cases) head.expects) (body.print blankOut)
          (Stands (.body :: cases) false) (namesFrom head.expects body.listed) :=
        tracks_block body rfl (hs.imp_right fun h => h body rfl) hbody
      refine head.tracks.before (hcommands.append_silent ?_ fun t _ => ?_)
      · exact (Joint.tracks _ rfl).before tracks_esacBody.endsWord
      · rw [List.append_assoc]
        exact endsWord_joint _ _

end

/-! ## What `case` commands show -/

section
variable {last : Option Char}

/-- Text between double quotes shows its line ends and nothing else. -/
theorem QuotedText.shows (q : QuotedText) {outer : List Context} :
    Shows (.double :: outer) last (q.text ++ ['"']) (blankOut q.text ++ ['"']) outer := by
  have key : ∀ (s : List Char) (last : Option Char),
      (∀ c ∈ s, c ≠ '"' ∧ c ≠ '\\' ∧ c ≠ '`' ∧ c ≠ '\r') → ¬ ['$', '('] <:+: s →
        Shows (.double :: outer) last (s ++ ['"']) (blankOut s ++ ['"']) outer := by
    intro s
    induction s with
    | nil => exact fun _ _ _ => Shows.closeDouble
    | cons c s ih =>
        intro last hplain hnone
        obtain ⟨hquote, hbackslash, hbackquote, hreturn⟩ := hplain c List.mem_cons_self
        have hblank : blankOut (c :: s) = maskInLine c ++ blankOut s := by
          simp [blankOut, hreturn]
        have hrest := ih (lastAfter last [c]) (fun d hd => hplain d (List.mem_cons_of_mem _ hd))
          fun h => hnone (h.trans (List.suffix_cons c s).isInfix)
        rw [hblank, List.cons_append, List.append_assoc]
        refine Shows.literal (by simp) ⟨hquote, hbackslash, hbackquote⟩ hreturn ?_ hrest
        rintro rfl hparen
        cases s with
        | nil => cases hparen
        | cons d s =>
            obtain rfl : d = '(' := Option.some.inj hparen
            exact hnone ⟨[], s, rfl⟩
  exact key q.text last q.plain q.no_substitution

theorem Subject.shows (subject : Subject) :
    Shows [] last (subject.print id) (subject.print blankOut) [] := by
  cases subject with
  | word w => exact w.shows rfl
  | reference v => exact (shows_marks (s := ['$']) rfl (by decide)).append (v.shows rfl)
  | quoted q => exact (Shows.openDouble rfl).append q.shows

theorem shows_lineEnds (n : Nat) : Shows [] last (lineEnds n) (lineEnds n) [] := by
  refine Shows.inert rfl fun c hc => ?_
  rw [List.eq_of_mem_replicate hc]
  decide

theorem ArmHead.shows (head : ArmHead) : Shows [] last head.text head.text [] := by
  have hopen : ∀ last, Shows [] last (if head.opened then " (" else " ").toList
      (if head.opened then " (" else " ").toList [] := by
    intro last
    cases head.opened with
    | true => exact (shows_marks (s := [' ']) rfl (by decide)).append (Shows.openParen rfl)
    | false => exact shows_marks rfl (by decide)
  refine (shows_lineEnds head.above).append ((hopen _).append ?_)
  refine head.patterns.shows.append ((Shows.closeParen rfl).append ?_)
  exact (shows_lineEnds head.below).append (shows_marks rfl (by decide))

theorem Ending.shows (ending : Ending) : Shows [] last ending.text ending.text [] :=
  shows_marks rfl (by cases ending <;> decide)

mutual

theorem shows_statement : (s : Statement) → {last : Option Char} → s.Allowed →
    Shows [] last (s.print id) (s.print blankOut) []
  | .plain command, _, h => shows_command command h rfl fun _ => rfl
  | .group body, _, h => shows_group rfl fun _ => shows_block body h
  | .subshell body, _, h => shows_subshell rfl fun _ => shows_block body h
  | .branch condition yes no, _, ⟨hcondition, hyes, hno⟩ =>
      shows_branch rfl (fun _ => shows_block condition hcondition)
        (fun _ => shows_block yes hyes) fun _ => shows_block no hno
  | .loop condition body, _, ⟨hcondition, hbody⟩ =>
      shows_loop rfl (fun _ => shows_block condition hcondition) fun _ => shows_block body hbody
  | .define keyword name body, _, h => by
      refine (shows_headerText rfl keyword name).append ?_
      exact (shows_block body h).append (shows_marks rfl (by decide))
  | .choose subject arms, _, h => by
      refine (shows_marks rfl (by decide)).append ?_
      exact (subject.shows.append (shows_marks rfl (by decide))).append (shows_armList arms h)

theorem shows_block : (body : Block) → {last : Option Char} → body.Allowed →
    Shows [] last (body.print id) (body.print blankOut) []
  | .single s, _, h => shows_statement s h
  | .join s joint rest, _, ⟨h, hrest⟩ =>
      shows_join rfl joint (shows_statement s h) fun _ => shows_block rest hrest

theorem shows_armList : (arms : ArmList) → {last : Option Char} → arms.Allowed →
    Shows [] last (arms.print id) (arms.print blankOut) []
  | .none above, _, _ => (shows_lineEnds above).append (shows_marks rfl (by decide))
  | .skip head ending rest, _, h =>
      head.shows.append (ending.shows.append (shows_armList rest h))
  | .more head body above ending rest, _, ⟨hbody, hrest⟩ => by
      refine head.shows.append ((shows_block body hbody).append ?_)
      refine (shows_lineEnds above).append ((shows_marks rfl (by decide)).append ?_)
      exact ending.shows.append (shows_armList rest hrest)
  | .last head body onNext, _, h => by
      refine head.shows.append ((shows_block body h).append ?_)
      exact (shows_marks rfl (by cases onNext <;> decide)).append (shows_marks rfl (by decide))

end

end

/-- The calls of a script that is one statement. -/
theorem callsOf_statement (s : Statement) (ha : s.Allowed)
    (hs : s.ForArms ArmHead.Regular) :
    callsOf (String.ofList (s.print id)) = s.listed := by
  have hshows : Shows [] none (s.print id) (s.print blankOut) [] := shows_statement s ha
  have htracks : Tracks EndsWord (Stands [] true) (s.print blankOut) (Stands [] false) s.listed :=
    tracks_statement s rfl hs
  rw [callsOf, hshows.map_code_scan.1]
  exact htracks.calls_lines

end ShellIndex.Program
