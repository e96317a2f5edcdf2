import ShellIndex.Proofs.Call.Words

set_option autoImplicit false

/-! # The marks of structured programs

A mark is one step of the tracker. Separators and opening brackets lead into command position,
quotes and closing brackets out of it. The dollar sign, the redirection sign and the word
`function` decide how the next word is read.
-/

namespace ShellIndex.Program

open Text Call

variable {cases : List CasePart} {b : Bool} {k : Cursor} {mark : Lexeme}

/-! ## Marks in a state -/

theorem Within.interpret_eq (h : Within cases b k) (hc : inCommands cases = true) :
    k.interpret mark = k.markInCode mark := by
  have hcases := h.cases_eq
  rw [Cursor.interpret, h.inArray_eq]
  match cases, hc with
  | [], _ => simp [hcases]
  | .body :: _, _ => simp [hcases]

theorem interpret_afterFunction (k : Cursor) (mark : Lexeme) :
    (k.interpret mark).afterFunction = k.afterFunction := by
  unfold Cursor.interpret Cursor.markInCode
  repeat' split
  all_goals rfl

/-- Behind a mark nothing is known about the next word, unless it is a redirection sign or the
brace of a variable. -/
theorem stands_mark (hi : Within cases b (k.interpret mark))
    (hd : (k.afterDollar && mark == .openBrace) = false) (hf : k.afterFunction = false)
    (hm : ∀ p, mark ≠ .redirection p) (hw : ∀ text defines, mark ≠ .word text defines) :
    Stands cases b (k.mark mark) := by
  refine ⟨⟨hi.cases_eq, hi.atCommand_eq, hi.inArray_eq⟩, hd, ?_, ?_, ?_, ?_⟩
  · rw [← hf, ← interpret_afterFunction k mark]
    rfl
  · simpa [Cursor.mark] using hm false
  · simp only [Cursor.mark, Cursor.followsRedirection]
    split
    · next p e => exact absurd (Option.some.inj e) (hm p)
    · rfl
  · simp only [Cursor.mark, Cursor.followsEquals]
    split
    · next text defines e => exact absurd (Option.some.inj e) (hw text defines)
    · rfl

theorem Awaits.of_interpret (h : Awaits cases b k) {cases' : List CasePart} {b' : Bool}
    (hi : Within cases' b' (k.interpret mark)) (hm : ∀ p, mark ≠ .redirection p)
    (hw : ∀ text defines, mark ≠ .word text defines) : Stands cases' b' (k.mark mark) :=
  stands_mark hi (by simp [h.afterDollar_eq]) h.afterFunction_eq hm hw

theorem Stands.of_interpret (h : Stands cases b k) {cases' : List CasePart} {b' : Bool}
    (hi : Within cases' b' (k.interpret mark)) (hm : ∀ p, mark ≠ .redirection p)
    (hw : ∀ text defines, mark ≠ .word text defines) : Stands cases' b' (k.mark mark) :=
  h.awaits.of_interpret hi hm hw

theorem Stands.separator (h : Stands cases b k) (hc : inCommands cases = true)
    (hm : mark = .semicolon ∨ mark = .bar ∨ mark = .ampersand) :
    Stands cases true (k.mark mark) := by
  have hi : Within cases true (k.interpret mark) := by
    rw [h.interpret_eq hc]
    rcases hm with rfl | rfl | rfl
    · exact ⟨h.cases_eq, rfl, h.inArray_eq⟩
    · exact ⟨h.cases_eq, rfl, h.inArray_eq⟩
    · -- An ampersand behind a redirection sign would belong to it.
      rw [Cursor.markInCode, h.no_redirection]
      exact ⟨h.cases_eq, rfl, h.inArray_eq⟩
  refine h.of_interpret hi ?_ ?_ <;> rcases hm with rfl | rfl | rfl <;> simp

theorem Awaits.closer (h : Awaits cases b k) (hc : inCommands cases = true)
    (hm : mark = .quote ∨ mark = .closeParen ∨ mark = .closeBrace) :
    Stands cases false (k.mark mark) := by
  have hi : Within cases false (k.interpret mark) := by
    rw [h.interpret_eq hc]
    rcases hm with rfl | rfl | rfl <;> exact ⟨h.cases_eq, rfl, h.inArray_eq⟩
  refine h.of_interpret hi ?_ ?_ <;> rcases hm with rfl | rfl | rfl <;> simp

/-- In command position an opening parenthesis or brace does not leave it. -/
theorem Stands.opener (h : Stands cases true k) (hc : inCommands cases = true)
    (hm : mark = .openParen ∨ mark = .openBrace) : Stands cases true (k.mark mark) := by
  have hi : Within cases true (k.interpret mark) := by
    rw [h.interpret_eq hc]
    rcases hm with rfl | rfl
    · -- A parenthesis behind an equals sign would start an array.
      rw [Cursor.markInCode, h.no_equals]
      simp only [Bool.false_eq_true, if_false]
      split
      · exact ⟨h.cases_eq, rfl, h.inArray_eq⟩
      · exact h.toWithin
    · rw [Cursor.markInCode]
      split
      · exact ⟨h.cases_eq, rfl, h.inArray_eq⟩
      · exact h.toWithin
  refine h.of_interpret hi ?_ ?_ <;> rcases hm with rfl | rfl <;> simp

/-- Among patterns a mark other than a closing parenthesis means nothing. -/
theorem Awaits.patternMark (h : Awaits (.pattern :: cases) b k)
    (hm : mark = .openParen ∨ mark = .bar ∨ mark = .ampersand) :
    Stands (.pattern :: cases) b (k.mark mark) := by
  have hi : Within (.pattern :: cases) b (k.interpret mark) := by
    rw [Cursor.interpret, h.inArray_eq, h.cases_eq]
    rcases hm with rfl | rfl | rfl <;> exact h.toWithin
  refine h.of_interpret hi ?_ ?_ <;> rcases hm with rfl | rfl | rfl <;> simp

/-- A closing parenthesis among patterns is taken for their end. -/
theorem Awaits.patternEnd (h : Awaits (.pattern :: cases) b k) :
    Stands (.body :: cases) true (k.mark .closeParen) := by
  have hi : Within (.body :: cases) true (k.interpret .closeParen) := by
    rw [Cursor.interpret, h.inArray_eq, h.cases_eq]
    exact ⟨rfl, rfl, rfl⟩
  exact h.of_interpret hi (by simp) (by simp)

/-! ## Separators and brackets -/

section
variable {tail : List Char → Prop} {pre post : Cursor → Prop}

/-- Reads a mark that is the same whatever follows. -/
theorem tracks_lone (mark : Lexeme) {c : Char} (hc : isWordBreak c = false) (hb : c ≠ '\\')
    (hmark : ∀ rest, Lexeme.punctuation? c rest = some mark)
    (hend : mark ≠ .armEnd) (hstep : ∀ k, pre k → post (k.step mark).1 ∧ (k.step mark).2 = none) :
    Tracks Anything pre [c] post [] :=
  tracks_mark mark hc hb (fun rest _ => hmark rest) hend hstep

/-- A semicolon before a blank is a single one. -/
theorem tracks_semicolonMark (hstep : ∀ k, pre k → post (k.mark .semicolon)) :
    Tracks Anything pre "; ".toList post [] := by
  have hmark : Tracks (fun rest => rest.head? = some ' ') pre [';'] post [] := by
    refine tracks_mark .semicolon (by decide) (by decide) ?_ (by simp) ?_
    · intro rest hrest
      simp [Lexeme.punctuation?, hrest]
    · exact fun k hk => ⟨hstep k hk, rfl⟩
  exact hmark.silent_append tracks_blank fun _ _ => rfl

end

theorem tracks_semicolon (hc : inCommands cases = true) :
    Tracks Anything (Stands cases b) "; ".toList (Stands cases true) [] :=
  tracks_semicolonMark fun _ hk => hk.separator hc (by simp)

theorem tracks_separator {c : Char} (hc : inCommands cases = true) (h : c = '&' ∨ c = '|') :
    Tracks Anything (Stands cases b) [c] (Stands cases true) [] := by
  rcases h with rfl | rfl <;>
    exact tracks_lone _ (by decide) (by decide) (fun _ => rfl) (by simp) fun _ hk =>
      ⟨hk.separator hc (by simp), rfl⟩

theorem Joint.tracks (joint : Joint) (hc : inCommands cases = true) :
    Tracks Anything (Stands cases b) joint.text.toList (Stands cases true) [] := by
  have htwice : ∀ c, c = '&' ∨ c = '|' → Tracks Anything (Stands cases b)
      ([' '] ++ ([c] ++ ([c] ++ [' ']))) (Stands cases true) [] := by
    intro c h
    have hsecond := (tracks_separator (b := true) hc h).before tracks_blank
    exact tracks_blank.before ((tracks_separator hc h).before hsecond)
  cases joint with
  | semicolon => exact tracks_semicolon hc
  | lineFeed => exact tracks_lineFeed
  | both => exact htwice '&' (Or.inl rfl)
  | either => exact htwice '|' (Or.inr rfl)
  | pipe => exact tracks_blank.before ((tracks_separator hc (Or.inr rfl)).before tracks_blank)

theorem tracks_closer {c : Char} (hc : inCommands cases = true)
    (h : c ∈ ['\'', '"', ')', '}']) :
    Tracks Anything (Awaits cases b) [c] (Stands cases false) [] := by
  simp only [List.mem_cons, List.not_mem_nil, or_false] at h
  rcases h with rfl | rfl | rfl | rfl <;>
    exact tracks_lone _ (by decide) (by decide) (fun _ => rfl) (by simp) fun _ hk =>
      ⟨hk.closer hc (by simp), rfl⟩

theorem tracks_opener {c : Char} (hc : inCommands cases = true) (h : c = '(' ∨ c = '{') :
    Tracks Anything (Stands cases true) [c] (Stands cases true) [] := by
  rcases h with rfl | rfl <;>
    exact tracks_lone _ (by decide) (by decide) (fun _ => rfl) (by simp) fun _ hk =>
      ⟨hk.opener hc (by simp), rfl⟩

/-! ## The arms of `case` commands -/

/-- At the end of an arm the patterns of the next one may stand. -/
theorem tracks_armMark {c : Char} (h : c = ';' ∨ c = '&') :
    Tracks Anything (Stands (.body :: cases) b) [';', c] (InPatterns cases) [] := by
  intro k before rest after hk hb _ hnext
  have hi : Within (.pattern :: cases) true (k.interpret .armEnd) := by
    rw [hk.interpret_eq rfl, Cursor.markInCode, hk.cases_eq]
    exact ⟨rfl, rfl, hk.inArray_eq⟩
  have hpost : InPatterns cases (k.step .armEnd).1 :=
    ⟨true, hk.of_interpret hi (by simp) (by simp)⟩
  have hc : '\\' ≠ c := by rcases h with rfl | rfl <;> decide
  show k.resume before (';' :: c :: rest) = after
  rw [k.resume_armEnd before h]
  exact hnext _ _ hpost (by simp [hb, hc])

theorem tracks_armEnd :
    Tracks Anything (Stands (.body :: cases) b) " ;;".toList (InPatterns cases) [] :=
  tracks_blank.before (tracks_armMark (Or.inl rfl))

theorem tracks_patternMark {c : Char} (h : c = '(' ∨ c = '|' ∨ c = '&') :
    Tracks Anything (InPatterns cases) [c] (InPatterns cases) [] := by
  rcases h with rfl | rfl | rfl <;>
    exact tracks_lone _ (by decide) (by decide) (fun _ => rfl) (by simp) fun _ ⟨b, hk⟩ =>
      ⟨⟨b, hk.awaits.patternMark (by simp)⟩, rfl⟩

/-- The patterns of an arm end in a parenthesis. -/
theorem tracks_patternEnd :
    Tracks Anything (InPatterns cases) ") ".toList (Stands (.body :: cases) true) [] := by
  have hmark : Tracks Anything (InPatterns cases) [')'] (Stands (.body :: cases) true) [] := by
    exact tracks_lone _ (by decide) (by decide) (fun _ => rfl) (by simp) fun _ ⟨_, hk⟩ =>
      ⟨hk.awaits.patternEnd, rfl⟩
  exact hmark.before tracks_blank

theorem tracks_patternText (opened : Bool) (pattern : PlainWord) (alternatives : List PlainWord) :
    Tracks Anything (InPatterns cases) (patternText opened pattern alternatives)
      (Stands (.body :: cases) true) [] := by
  have hopen : Tracks Anything (InPatterns cases) (if opened then " (".toList else " ".toList)
      (InPatterns cases) [] := by
    cases opened with
    | true => exact tracks_blank.before (tracks_patternMark (Or.inl rfl))
    | false => exact tracks_blank
  have hmore : Tracks EndsRun (InPatterns cases)
      (alternatives.flatMap fun w => '|' :: w.text.toList) (InPatterns cases) [] ∧
      ∀ rest, EndsRun rest →
        EndsRun (alternatives.flatMap (fun w => '|' :: w.text.toList) ++ rest) := by
    induction alternatives with
    | nil => exact ⟨Tracks.nil, fun _ h => h⟩
    | cons w alternatives ih =>
        obtain ⟨htracks, hends⟩ := ih
        refine ⟨?_, fun rest _ => endsRun_cons (by decide) _⟩
        rw [List.flatMap_cons]
        have hword : Tracks EndsRun (InPatterns cases) (['|'] ++ w.text.toList)
            (InPatterns cases) [] := (tracks_patternMark (by simp)).before w.tracks_pattern
        exact hword.silent_append htracks hends
  have hpatterns := (hopen.before pattern.tracks_pattern).silent_append hmore.1 hmore.2
  exact hpatterns.silent_append tracks_patternEnd fun _ _ => endsRun_cons (by decide) _

/-! ## Redirections and references -/

/-- The target of a redirection is no call. -/
theorem PlainWord.tracks_target (w : PlainWord) (hc : inCommands cases = true) :
    Tracks EndsRun (Stands cases b) (" > ".toList ++ w.text.toList) (Stands cases b) [] := by
  have hmark : Tracks (fun rest => rest.head? = some ' ') (Stands cases b) ['>']
      (fun k => Within cases b k ∧ k.afterRedirection = true) [] := by
    refine tracks_mark (.redirection false) (by decide) (by decide) ?_ (by simp) ?_
    · intro rest hrest
      simp [Lexeme.punctuation?, hrest]
    · intro k hk
      have hi : Within cases b (k.interpret (.redirection false)) := by
        rw [hk.interpret_eq hc]
        exact hk.toWithin
      exact ⟨⟨⟨hi.cases_eq, hi.atCommand_eq, hi.inArray_eq⟩, rfl⟩, rfl⟩
  have hword : Tracks EndsRun (fun k => Within cases b k ∧ k.afterRedirection = true) w.text.toList
      (Stands cases b) [] := by
    refine tracks_word w.isToken.toIsWord ?_
    rintro k defines ⟨hk, hafter⟩
    have hread := hk.reading w.isToken defines
    have hplace : ∀ k reference defines,
        Cursor.place k w.text reference true defines = (k, none) := fun k reference defines => by
      rw [Cursor.place, if_pos (by simp)]
    rw [word_eq, hafter, hplace]
    exact ⟨hread, rfl⟩
  have hsign := hmark.silent_append tracks_blank fun _ _ => rfl
  exact (tracks_blank.before hsign).before hword

/-- Behind a dollar sign the next word is the name of a variable. -/
structure AfterDollar (cases : List CasePart) (b : Bool) (k : Cursor) : Prop
    extends Within cases b k where
  afterDollar_eq : k.afterDollar = true
  afterFunction_eq : k.afterFunction = false
  afterRedirection_eq : k.afterRedirection = false

/-- The dollar sign is the lexeme before. -/
structure AtDollar (cases : List CasePart) (b : Bool) (k : Cursor) : Prop
    extends AfterDollar cases b k where
  last_eq : k.last = some .dollar

theorem tracks_dollar : Tracks Anything (Awaits cases b) ['$'] (AtDollar cases b) [] := by
  refine tracks_lone .dollar (by decide) (by decide) (fun _ => rfl) (by simp) ?_
  intro k hk
  have hwithin : Within cases b (k.step .dollar).1 :=
    ⟨hk.cases_eq, hk.atCommand_eq, hk.inArray_eq⟩
  exact ⟨⟨⟨hwithin, rfl, hk.afterFunction_eq, hk.afterRedirection_eq⟩, rfl⟩, rfl⟩

theorem Variable.isToken (v : Variable) : IsToken v.text := by
  refine isToken_of_isPlain v.ne_empty fun c hc => ?_
  rcases v.plain c hc with h | h <;> simp [isPlain, h]

/-- The name of a variable is no call. -/
theorem Variable.tracks (v : Variable) (hc : inCommands cases = true) :
    Tracks EndsRun (AfterDollar cases b) v.text.toList (Stands cases false) [] := by
  refine tracks_word v.isToken.toIsWord ?_
  intro k defines hk
  have hread := hk.toWithin.reading v.isToken defines
  rw [word_eq, hk.afterRedirection_eq, hread.place_eq hc, if_pos (by simp [hk.afterDollar_eq])]
  exact ⟨hread.with_atCommand false, rfl⟩

theorem tracks_plainReference (v : Variable) (hc : inCommands cases = true) :
    Tracks EndsRun (Awaits cases b) (['$'] ++ v.text.toList) (Stands cases false) [] := by
  refine tracks_dollar.before ?_
  exact (v.tracks (b := b) hc).imp (fun _ h => h.toAfterDollar) fun _ h => h

theorem tracks_bracedReference (v : Variable) (hc : inCommands cases = true) :
    Tracks Anything (Awaits cases b) ("$\x7b".toList ++ (v.text.toList ++ "\x7d".toList))
      (Stands cases false) [] := by
  have hbrace : Tracks Anything (AtDollar cases b) ['{'] (AfterDollar cases b) [] := by
    refine tracks_lone .openBrace (by decide) (by decide) (fun _ => rfl) (by simp) ?_
    intro k hk
    -- The brace of a variable opens no body and leaves the name behind it a name.
    have hi : Within cases b (k.interpret .openBrace) := by
      rw [hk.interpret_eq hc, Cursor.markInCode, hk.afterDollar_eq]
      exact hk.toWithin
    have hdollar : (k.mark .openBrace).afterDollar = true := by
      simp [Cursor.mark, hk.afterDollar_eq]
    have hfunction : (k.interpret .openBrace).afterFunction = false := by
      rw [interpret_afterFunction, hk.afterFunction_eq]
    exact ⟨⟨⟨hi.cases_eq, hi.atCommand_eq, hi.inArray_eq⟩, hdollar, hfunction, rfl⟩, rfl⟩
  have hname : Tracks Anything (AfterDollar cases b) (v.text.toList ++ "\x7d".toList)
      (Stands cases false) [] :=
    (v.tracks hc).silent_append (tracks_closer (c := '}') hc (by simp)).standing fun _ _ =>
      endsRun_cons (by decide) _
  exact (tracks_dollar.before hbrace).before hname

theorem tracks_openSubstitution (hc : inCommands cases = true) :
    Tracks Anything (Awaits cases b) "$(".toList (Stands cases true) [] := by
  have hparen : Tracks Anything (AtDollar cases b) ['('] (Stands cases true) [] := by
    refine tracks_lone .openParen (by decide) (by decide) (fun _ => rfl) (by simp) ?_
    intro k hk
    have hi : Within cases true (k.interpret .openParen) := by
      rw [hk.interpret_eq hc, Cursor.markInCode, Cursor.followsEquals, hk.last_eq]
      exact ⟨hk.cases_eq, rfl, hk.inArray_eq⟩
    exact ⟨stands_mark hi (Bool.and_false _) hk.afterFunction_eq (by simp) (by simp), rfl⟩
  exact tracks_dollar.before hparen

/-! ## Headers of definitions -/

/-- Behind the word `function` the next word is the name of a definition. -/
structure AfterFunction (cases : List CasePart) (k : Cursor) : Prop
    extends Within cases true k where
  afterDollar_eq : k.afterDollar = false
  afterFunction_eq : k.afterFunction = true
  afterRedirection_eq : k.afterRedirection = false

theorem tracks_function (hc : inCommands cases = true) :
    Tracks Anything (Stands cases true) "function ".toList (AfterFunction cases) [] := by
  have htoken : IsToken "function" := ⟨⟨by decide, by decide, by decide⟩, by decide⟩
  have hword : Tracks EndsRun (Stands cases true) "function".toList (AfterFunction cases) [] := by
    refine tracks_word htoken.toIsWord ?_
    intro k defines hk
    rw [hk.awaits.word_eq hc]
    exact ⟨⟨⟨hk.cases_eq, hk.atCommand_eq, hk.inArray_eq⟩, rfl, rfl, rfl⟩, rfl⟩
  exact hword.then_blank

/-- The name of a definition is no call. -/
theorem Name.command_definition (name : Name) (k : Cursor) :
    k.command name.text true = (k, none) := by
  rw [name.command_eq, if_neg (by simp [name.not_option]), if_pos rfl]

theorem Name.tracks_keywordName (name : Name) (hc : inCommands cases = true) :
    Tracks EndsRun (AfterFunction cases) name.text.toList (Stands cases true) [] := by
  refine tracks_word name.isToken.toIsWord ?_
  intro k defines hk
  have hread := hk.toWithin.reading name.isToken defines
  rw [word_eq, hk.afterRedirection_eq, hread.place_eq hc, if_neg (by simp [hk.afterDollar_eq]),
    hk.afterFunction_eq, Bool.true_or, name.command_definition]
  exact ⟨hread, rfl⟩

theorem Name.tracks_parensName (name : Name) (hc : inCommands cases = true) :
    Tracks (fun rest => EndsRun rest ∧ Lexeme.startsWithParens (firstLine rest) = true)
      (Stands cases true) name.text.toList (Stands cases true) [] := by
  refine tracks_wordDefining true name.isToken.toIsWord ?_
  intro k hk
  rw [hk.awaits.word_eq hc, name.command_definition]
  exact ⟨hk.toWithin.reading name.isToken true, rfl⟩

/-- Empty parentheses and the brace behind them lead into a body. -/
theorem tracks_emptyParens (hc : inCommands cases = true) :
    Tracks Anything (Stands cases true) "() \x7b ".toList (Stands cases true) [] := by
  have hclose : Tracks Anything (Stands cases true) [')']
      (fun k => Stands cases false k ∧ k.last = some .closeParen) [] := by
    refine tracks_lone .closeParen (by decide) (by decide) (fun _ => rfl) (by simp) ?_
    intro k hk
    exact ⟨⟨hk.awaits.closer hc (by simp), rfl⟩, rfl⟩
  have hbrace : Tracks Anything (fun k => Stands cases false k ∧ k.last = some .closeParen)
      ['{'] (Stands cases true) [] := by
    refine tracks_lone .openBrace (by decide) (by decide) (fun _ => rfl) (by simp) ?_
    rintro k ⟨hk, hlast⟩
    have hi : Within cases true (k.interpret .openBrace) := by
      rw [hk.interpret_eq hc, Cursor.markInCode, hk.afterDollar_eq, hlast]
      exact ⟨hk.cases_eq, rfl, hk.inArray_eq⟩
    exact ⟨hk.of_interpret hi (by simp) (by simp), rfl⟩
  have hparens : Tracks Anything (Stands cases true) (['('] ++ [')'])
      (fun k => Stands cases false k ∧ k.last = some .closeParen) [] :=
    (tracks_opener hc (Or.inl rfl)).before hclose
  exact hparens.before (tracks_blank.before (hbrace.before tracks_blank))

theorem startsWithParens_emptyParens (rest : List Char) :
    Lexeme.startsWithParens (firstLine ("() \x7b ".toList ++ rest)) = true := by
  have hline : firstLine ("() \x7b ".toList ++ rest) =
      '(' :: ')' :: firstLine (" \x7b ".toList ++ rest) := by
    show firstLine ('(' :: ')' :: (" \x7b ".toList ++ rest)) = _
    rw [firstLine_cons (by decide) (by simp), firstLine_cons (by decide) (by simp)]
  rw [hline]
  rfl

theorem tracks_headerText (hc : inCommands cases = true) (keyword : Bool) (name : Name) :
    Tracks Anything (Stands cases true) (headerText keyword name) (Stands cases true) [] := by
  cases keyword with
  | true =>
      have hbrace : Tracks Anything (Stands cases true) " \x7b ".toList (Stands cases true) [] :=
        tracks_blank.before ((tracks_opener hc (Or.inr rfl)).before tracks_blank)
      have hheader := (tracks_function hc).before (name.tracks_keywordName hc)
      exact hheader.silent_append hbrace fun _ _ => endsRun_cons (by decide) _
  | false =>
      refine (name.tracks_parensName hc).silent_append (tracks_emptyParens hc) fun rest _ => ?_
      exact ⟨endsRun_cons (by decide) _, startsWithParens_emptyParens rest⟩

end ShellIndex.Program
