import ShellIndex.Proofs.Call.Tracks
import ShellIndex.Proofs.Text.Characters

set_option autoImplicit false

/-! # The words of structured programs

A word is one step of the tracker. For each kind of word of a structured program this file says
where the tracker stands before and behind it, and whether the word is a call.
-/

namespace ShellIndex.Program

open Text Call

variable {cases : List CasePart} {b : Bool} {k : Cursor} {text : String} {defines : Bool}
variable {reference : Bool}

/-! ## Words in a state -/

/-- A word is read where only the flags for the next word are changed. -/
def reading (k : Cursor) (text : String) (defines : Bool) : Cursor :=
  { k with
    afterDollar := false
    afterFunction := false
    afterRedirection := false
    last := some (.word text defines) }

theorem word_eq (k : Cursor) (text : String) (defines : Bool) :
    k.word text defines = (reading k text defines).place text k.afterDollar k.afterRedirection
      (k.afterFunction || defines) := rfl

theorem command_keeps (k : Cursor) (text : String) (defines : Bool) :
    (k.command text defines).1.inBackquote = k.inBackquote ∧
      (k.command text defines).1.last = k.last := by
  unfold Cursor.command
  repeat' split
  all_goals exact ⟨rfl, rfl⟩

theorem place_keeps (k : Cursor) (text : String) (reference target defines : Bool) :
    (k.place text reference target defines).1.inBackquote = k.inBackquote ∧
      (k.place text reference target defines).1.last = k.last := by
  unfold Cursor.place
  split
  · exact ⟨rfl, rfl⟩
  · split
    · split <;> exact ⟨rfl, rfl⟩
    · split <;> exact ⟨rfl, rfl⟩
    · split
      · exact ⟨rfl, rfl⟩
      · exact command_keeps k text defines

/-- A word leaves backquotes alone, and is the lexeme before the next one. -/
theorem word_keeps (k : Cursor) (text : String) (defines : Bool) :
    (k.word text defines).1.inBackquote = k.inBackquote ∧
      (k.word text defines).1.last = some (.word text defines) :=
  place_keeps (reading k text defines) text _ _ _

theorem Within.awaits_reading (h : Within cases b k) (text : String) (defines : Bool) :
    Awaits cases b (reading k text defines) :=
  ⟨⟨h.cases_eq, h.atCommand_eq, h.inArray_eq⟩, rfl, rfl, rfl⟩

theorem Within.reading (h : Within cases b k) (ht : IsToken text) (defines : Bool) :
    Stands cases b (reading k text defines) :=
  ⟨⟨h.cases_eq, h.atCommand_eq, h.inArray_eq⟩, rfl, rfl, rfl, rfl, by
    simpa [Cursor.followsEquals, Program.reading] using ht.no_equals⟩

theorem Within.place_eq (h : Within cases b k) (hc : inCommands cases = true)
    (reference : Bool) : k.place text reference false defines =
      if reference || !b then ({ k with atCommand := false }, none)
      else k.command text defines := by
  have hcases := h.cases_eq
  have hat := h.atCommand_eq
  rw [Cursor.place, h.inArray_eq]
  match cases, hc with
  | [], _ => simp [hcases, hat]
  | .body :: _, _ => simp [hcases, hat]

/-- In command position every word without parentheses is read as one. -/
theorem Awaits.word_eq (h : Awaits cases true k) (hc : inCommands cases = true) (text : String)
    (defines : Bool) : k.word text defines = (reading k text defines).command text defines := by
  have hread := h.toWithin.awaits_reading text defines
  rw [Program.word_eq, h.afterRedirection_eq, hread.place_eq hc,
    if_neg (by simp [h.afterDollar_eq]), h.afterFunction_eq, Bool.false_or]

/-- Outside command position no word is read as one. -/
theorem Awaits.argument_eq (h : Awaits cases false k) (hc : inCommands cases = true)
    (text : String) (defines : Bool) :
    k.word text defines = ({ reading k text defines with atCommand := false }, none) := by
  have hread := h.toWithin.awaits_reading text defines
  rw [Program.word_eq, h.afterRedirection_eq, hread.place_eq hc, if_pos (by simp)]

theorem Awaits.with_atCommand (h : Awaits cases b k) (b' : Bool) :
    Awaits cases b' { k with atCommand := b' } :=
  ⟨⟨h.cases_eq, rfl, h.inArray_eq⟩, h.afterDollar_eq, h.afterFunction_eq, h.afterRedirection_eq⟩

theorem Stands.with_atCommand (h : Stands cases b k) (b' : Bool) :
    Stands cases b' { k with atCommand := b' } :=
  ⟨⟨h.cases_eq, rfl, h.inArray_eq⟩, h.afterDollar_eq, h.afterFunction_eq, h.afterRedirection_eq,
    h.no_redirection, h.no_equals⟩

theorem Stands.with_afterWrapper (h : Stands cases b k) (wrapped : Bool) :
    Stands cases b { k with afterWrapper := wrapped } :=
  ⟨⟨h.cases_eq, h.atCommand_eq, h.inArray_eq⟩, h.afterDollar_eq, h.afterFunction_eq,
    h.afterRedirection_eq, h.no_redirection, h.no_equals⟩

theorem Stands.with_cases (h : Stands cases b k) (cases' : List CasePart) (b' : Bool) :
    Stands cases' b' { k with cases := cases', atCommand := b' } :=
  ⟨⟨rfl, rfl, h.inArray_eq⟩, h.afterDollar_eq, h.afterFunction_eq, h.afterRedirection_eq,
    h.no_redirection, h.no_equals⟩

/-! ## Plain characters -/

/-- A plain character is a letter or digit or one of few others. -/
theorem isPlain_cases {P : Char → Prop} (halphanumeric : ∀ c, isAlphanumeric c = true → P c)
    (hmarks : ∀ c ∈ ['_', '.', '/', '-'], P c) {c : Char} (h : isPlain c = true) : P c := by
  simp only [isPlain, Bool.or_eq_true, beq_iff_eq] at h
  rcases h with (((h | rfl) | rfl) | rfl) | rfl
  · exact halphanumeric c h
  all_goals exact hmarks _ (by simp)

theorem isBlank_of_isPlain {c : Char} (h : isPlain c = true) : isBlank c = false :=
  isPlain_cases (fun _ => isBlank_of_isAlphanumeric) (by simp; decide) h

theorem ne_of_isPlain {c : Char} (h : isPlain c = true) {d : Char} (hd : d ∈ cutMarks) : c ≠ d := by
  have key : (cutMarks.all fun d => ['_', '.', '/', '-'].all fun c => c != d) = true := by decide
  have hmarks := List.all_eq_true.mp (List.all_eq_true.mp key d hd)
  exact isPlain_cases (P := (· ≠ d)) (fun _ h => ne_of_isAlphanumeric h hd)
    (fun c hc => by simpa using hmarks c hc) h

theorem isWordChar_of_isPlain {c : Char} (h : isPlain c = true) : Lexeme.isWordChar c = true := by
  have hbreak : isWordBreak c = false := by
    refine Bool.eq_false_iff.mpr fun hb => ?_
    have hblank := isBlank_of_isWordBreak hb
    rw [isBlank_of_isPlain h] at hblank
    cases hblank
  have hne := fun d => ne_of_isPlain h (d := d)
  simp only [cutMarks, List.mem_cons, List.not_mem_nil, or_false, forall_eq_or_imp,
    forall_eq] at hne
  simp [Lexeme.isWordChar, Lexeme.punctuation?, hbreak, hne]

theorem isToken_of_isPlain (hne : text ≠ "") (hplain : ∀ c ∈ text.toList, isPlain c = true) :
    IsToken text := by
  have hword : ∀ c ∈ text.toList, Lexeme.isWordChar c = true := fun c hc =>
    isWordChar_of_isPlain (hplain c hc)
  refine ⟨⟨hne, List.all_eq_true.mpr hword, ?_⟩, ?_⟩
  · intro hb
    exact ne_of_isPlain (hplain _ hb) (by decide) rfl
  · intro h
    exact ne_of_isPlain (hplain _ (List.mem_of_getLast? h)) (by decide) rfl

/-! ## Plain words -/

namespace PlainWord
variable (w : PlainWord)

theorem isToken : IsToken w.text := isToken_of_isPlain w.ne_empty (List.all_eq_true.mp w.plain)

theorem ne_reserved {t : String} (h : t ∈ reservedWords) : w.text ≠ t := by
  rintro rfl
  exact w.unreserved.1 h

/-- A plain word in command position is a call, unless it is an option or names a definition. -/
theorem command_eq (k : Cursor) (defines : Bool) :
    k.command w.text defines =
      if k.afterWrapper && isOption w.text then (k, none)
      else if defines then (k, none)
      else ({ k with afterWrapper := false, atCommand := false }, some w.text) := by
  have hkeyword : w.text ∉ keywords := by
    intro h
    have hsub : ∀ t ∈ keywords, t ∈ reservedWords := by decide
    exact w.unreserved.1 (hsub _ h)
  have hequals : '=' ∉ w.text.toList := fun h =>
    ne_of_isPlain (List.all_eq_true.mp w.plain _ h) (by decide) rfl
  have hassignment : isAssignment w.text = false := by simp [isAssignment, hequals]
  rw [Cursor.command, if_neg (w.ne_reserved (by decide)), if_neg (w.ne_reserved (by decide)),
    if_neg (w.ne_reserved (by decide)), if_neg hkeyword, if_neg w.unreserved.2, hassignment]
  simp

/-- A plain word outside command position changes nothing. -/
theorem tracks_argument (hc : inCommands cases = true) :
    Tracks EndsRun (Awaits cases false) w.text.toList (Stands cases false) [] := by
  refine tracks_word w.isToken.toIsWord ?_
  intro k defines hk
  have hread := hk.toWithin.reading w.isToken defines
  rw [hk.argument_eq hc]
  exact ⟨hread.with_atCommand false, rfl⟩

end PlainWord

/-- The name of a command is a call. -/
theorem Name.tracks_call (name : Name) (hc : inCommands cases = true) :
    Tracks EndsWord (Awaits cases true) name.text.toList (Stands cases false) [name.text] := by
  refine tracks_wordDefining false name.isToken.toIsWord ?_
  intro k hk
  have hread := hk.toWithin.reading name.isToken false
  rw [hk.word_eq hc, name.command_eq, if_neg (by simp [name.not_option]),
    if_neg (by simp)]
  exact ⟨(hread.with_afterWrapper false).with_atCommand false, rfl⟩

/-! ## Wrappers -/

/-- Behind a wrapper and its options. -/
def Wrapped (cases : List CasePart) (k : Cursor) : Prop :=
  Stands cases true k ∧ k.afterWrapper = true

theorem WrapperOption.tracks (o : WrapperOption) (hc : inCommands cases = true) :
    Tracks EndsRun (Wrapped cases) o.text.toList (Wrapped cases) [] := by
  refine tracks_word o.isToken.toIsWord ?_
  rintro k defines ⟨hk, hwrapper⟩
  have hread := hk.toWithin.reading o.isToken defines
  have hafter : (reading k o.text defines).afterWrapper = true := hwrapper
  rw [hk.awaits.word_eq hc, o.command_eq, if_pos (by simp [hafter, o.is_option])]
  exact ⟨⟨hread, hwrapper⟩, rfl⟩

theorem Wrapper.tracks (w : Wrapper) (hc : inCommands cases = true) :
    Tracks EndsRun (Stands cases true) w.text.toList (Wrapped cases) [] := by
  have htoken : IsToken w.text := by
    cases w <;> exact ⟨⟨by decide, by decide, by decide⟩, by decide⟩
  refine tracks_word htoken.toIsWord ?_
  intro k defines hk
  have hread := hk.toWithin.reading htoken defines
  have hcommand : (reading k w.text defines).command w.text defines =
      ({ reading k w.text defines with afterWrapper := true }, none) := by
    cases w <;> rfl
  rw [hk.awaits.word_eq hc, hcommand]
  exact ⟨⟨hread.with_afterWrapper true, rfl⟩, rfl⟩

/-- A call may stand behind wrappers with their options. -/
theorem tracks_wrapperText (hc : inCommands cases = true) (w : Wrapper × List WrapperOption) :
    Tracks Anything (Stands cases true) (wrapperText w) (Stands cases true) [] := by
  have hname : Tracks Anything (Stands cases true) (w.1.text.toList ++ [' ']) (Wrapped cases) [] :=
    (w.1.tracks hc).then_blank
  have hoptions : ∀ options : List WrapperOption, Tracks Anything (Wrapped cases)
      (options.flatMap fun o => o.text.toList ++ [' ']) (Wrapped cases) [] := by
    intro options
    induction options with
    | nil => exact Tracks.nil
    | cons o options ih =>
        rw [List.flatMap_cons]
        exact (o.tracks hc).then_blank.before ih
  exact (hname.before (hoptions w.2)).imp (fun _ h => h) fun _ h => h.1

/-! ## Reserved words -/

/-- The words after which the next command may follow. -/
theorem tracks_keyword (hc : inCommands cases = true) (text : String)
    (ht : text ∈ ["if", "then", "else", "while", "do", "!"]) :
    Tracks Anything (Stands cases true) (text.toList ++ [' ']) (Stands cases true) [] := by
  have htoken : IsToken text := by
    simp only [List.mem_cons, List.not_mem_nil, or_false] at ht
    rcases ht with rfl | rfl | rfl | rfl | rfl | rfl <;>
      exact ⟨⟨by decide, by decide, by decide⟩, by decide⟩
  have hcommand : ∀ (k : Cursor) (defines : Bool), k.command text defines = (k, none) := by
    intro k defines
    simp only [List.mem_cons, List.not_mem_nil, or_false] at ht
    rcases ht with rfl | rfl | rfl | rfl | rfl | rfl <;> rfl
  have hword : Tracks EndsRun (Stands cases true) text.toList (Stands cases true) [] := by
    refine tracks_word htoken.toIsWord ?_
    intro k defines hk
    rw [hk.awaits.word_eq hc, hcommand]
    exact ⟨hk.toWithin.reading htoken defines, rfl⟩
  exact hword.then_blank

/-- The words that end a command are listed among the calls. -/
theorem tracks_closing (hc : inCommands cases = true) (text : String)
    (ht : text = "fi" ∨ text = "done") :
    Tracks EndsWord (Stands cases true) text.toList (Stands cases false) [text] := by
  have htoken : IsToken text := by
    rcases ht with rfl | rfl <;> exact ⟨⟨by decide, by decide, by decide⟩, by decide⟩
  refine tracks_wordDefining false htoken.toIsWord ?_
  intro k hk
  have hread := hk.toWithin.reading htoken false
  have hcommand : (reading k text false).command text false =
      ({ reading k text false with afterWrapper := false, atCommand := false }, some text) := by
    have hoption : isOption text = false := by rcases ht with rfl | rfl <;> decide
    rcases ht with rfl | rfl <;> simp [Cursor.command, hoption] <;> rfl
  rw [hk.awaits.word_eq hc, hcommand]
  exact ⟨(hread.with_afterWrapper false).with_atCommand false, rfl⟩

/-! ## `case` commands -/

/-- Between `case` and `in`. -/
def InSubject (cases : List CasePart) (k : Cursor) : Prop := Stands (.subject :: cases) false k

/-- Among the patterns of a `case` command. -/
def InPatterns (cases : List CasePart) (k : Cursor) : Prop :=
  ∃ b, Stands (.pattern :: cases) b k

theorem tracks_case (hc : inCommands cases = true) :
    Tracks Anything (Stands cases true) "case ".toList (InSubject cases) [] := by
  have htoken : IsToken "case" := ⟨⟨by decide, by decide, by decide⟩, by decide⟩
  have hword : Tracks EndsRun (Stands cases true) "case".toList (InSubject cases) [] := by
    refine tracks_word htoken.toIsWord ?_
    intro k defines hk
    have hread := hk.toWithin.reading htoken defines
    rw [hk.awaits.word_eq hc]
    have hcases : (reading k "case" defines).cases = cases := hread.cases_eq
    rw [← hcases]
    exact ⟨hread.with_cases _ _, rfl⟩
  exact hword.then_blank

/-- In the subject of a `case` command a word is no call. -/
theorem place_subject (h : Within (.subject :: cases) b k) :
    k.place text reference false defines =
      if text = "in" then ({ k with cases := .pattern :: cases }, none) else (k, none) := by
  rw [Cursor.place, h.inArray_eq]
  simp [h.cases_eq]

/-- Among patterns a word is no call. -/
theorem place_pattern (h : Within (.pattern :: cases) b k) :
    k.place text reference false defines =
      if text = "esac" then ({ k with cases := cases, atCommand := false }, none)
      else (k, none) := by
  rw [Cursor.place, h.inArray_eq]
  simp [h.cases_eq]

theorem PlainWord.tracks_subject (w : PlainWord) :
    Tracks EndsRun (InSubject cases) w.text.toList (InSubject cases) [] := by
  refine tracks_word w.isToken.toIsWord ?_
  intro k defines hk
  have hread : InSubject cases _ := hk.toWithin.reading w.isToken defines
  rw [word_eq, hk.afterRedirection_eq, place_subject hread.toWithin,
    if_neg (w.ne_reserved (by decide))]
  exact ⟨hread, rfl⟩

theorem tracks_in :
    Tracks EndsRun (Stands (.subject :: cases) b) " in".toList (InPatterns cases) [] := by
  have htoken : IsToken "in" := ⟨⟨by decide, by decide, by decide⟩, by decide⟩
  have hword : Tracks EndsRun (Stands (.subject :: cases) b) "in".toList (InPatterns cases) [] := by
    refine tracks_word htoken.toIsWord ?_
    intro k defines hk
    have hread := hk.toWithin.reading htoken defines
    rw [word_eq, hk.afterRedirection_eq, place_subject hread.toWithin, if_pos rfl]
    exact ⟨⟨_, hread.with_cases (.pattern :: cases) _⟩, rfl⟩
  exact tracks_blank.before hword

theorem PlainWord.tracks_pattern (w : PlainWord) :
    Tracks EndsRun (InPatterns cases) w.text.toList (InPatterns cases) [] := by
  refine tracks_word w.isToken.toIsWord ?_
  rintro k defines ⟨b, hk⟩
  have hread := hk.toWithin.reading w.isToken defines
  rw [word_eq, hk.afterRedirection_eq, place_pattern hread.toWithin,
    if_neg (w.ne_reserved (by decide))]
  exact ⟨⟨b, hread⟩, rfl⟩

theorem tracks_esac : Tracks EndsRun (InPatterns cases) " esac".toList (Stands cases false) [] := by
  have htoken : IsToken "esac" := ⟨⟨by decide, by decide, by decide⟩, by decide⟩
  have hword : Tracks EndsRun (InPatterns cases) "esac".toList (Stands cases false) [] := by
    refine tracks_word htoken.toIsWord ?_
    rintro k defines ⟨b, hk⟩
    have hread := hk.toWithin.reading htoken defines
    rw [word_eq, hk.afterRedirection_eq, place_pattern hread.toWithin, if_pos rfl]
    exact ⟨hread.with_cases cases false, rfl⟩
  exact tracks_blank.before hword

end ShellIndex.Program
