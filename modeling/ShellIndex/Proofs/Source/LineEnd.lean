import ShellIndex.Proofs.Source.Announcements

set_option autoImplicit false

/-! # How a line ends

The masked view of a line that ends in plain code may end in a backslash for two reasons: the line
ends in a backslash that escapes its end, or in an escaped character, which is masked, so that only
its backslash is seen. This file tells the two apart by what the line itself ends in. The argument
follows the reader along the line (`Reached`) with an invariant for the places in plain code
(`InCode`).
-/

namespace ShellIndex.Source

open Text

/-! ## Following the reader -/

/-- Reading a line the reader comes to `r`, with `rest` still to be read. -/
inductive Reached (line : List Char) : Reader → List Char → Prop
  | start : Reached line (Reader.start []) line
  | step {r : Reader} {c : Char} {rest : List Char} (h : Reached line r (c :: rest))
      (hc : r.opensComment c = false) : Reached line (r.step c rest) rest

section
variable {line rest : List Char} {r : Reader} {c : Char}

theorem Reached.run_eq (h : Reached line r rest) : (Reader.start []).run line = r.run rest := by
  induction h with
  | start => rfl
  | step h hc ih => rw [ih, Reader.run, hc, if_neg (by simp)]

/-- A reader comes to the end of the line or to a comment. -/
theorem Reached.exists_end (h : Reached line r rest) :
    Reached line ((Reader.start []).run line).1 [] ∨
      ∃ r' d comment, Reached line r' (d :: comment) ∧ r'.opensComment d = true ∧
        ((Reader.start []).run line).1 = { r' with code := mask (d :: comment) ++ r'.code } := by
  induction rest generalizing r with
  | nil =>
      rw [h.run_eq]
      exact Or.inl h
  | cons c rest ih =>
      cases hc : r.opensComment c with
      | false => exact ih (h.step hc)
      | true =>
          refine Or.inr ⟨r, c, rest, h, hc, ?_⟩
          rw [h.run_eq, Reader.run, if_pos hc]

/-- Here-documents are only ever added. -/
theorem Reached.heredocs_eq (h : Reached line r rest)
    (hdocs : ((Reader.start []).run line).1.heredocs = []) : r.heredocs = [] := by
  rw [h.run_eq, Reader.heredocs_run] at hdocs
  exact (List.append_eq_nil_iff.mp hdocs).1

/-- An operator that announces no here-document is `<<`. -/
theorem Reader.owed_announce {m : Nat} (ho : (r.announce rest).owed = .verbatim m)
    (hdocs : (r.announce rest).heredocs = []) (hopens : r.opensHeredoc rest = true) :
    m = 0 ∧ rest.head? = some '<' := by
  have hhead : rest.head? = some '<' := by
    unfold Reader.opensHeredoc at hopens
    split at hopens
    · rfl
    · cases hopens
  unfold Reader.announce at ho hdocs
  split at ho
  · next doc n hread =>
      rw [hread] at hdocs
      exact absurd hdocs (by simp)
  · cases ho
    exact ⟨rfl, hhead⟩

theorem Reader.owed_stepCode {m : Nat} (ho : (r.stepCode c rest).owed = .verbatim m)
    (hdocs : (r.stepCode c rest).heredocs = []) : m = 0 ∧ rest.head? = some '<' := by
  by_cases hc : c = '<'
  · subst hc
    simp only [Reader.stepCode] at ho hdocs
    split at ho
    · next hopens =>
        simp only [hopens, if_true] at hdocs
        exact Reader.owed_announce ho hdocs hopens
    · cases ho
  · unfold Reader.stepCode at ho
    split at ho
    all_goals first | exact absurd rfl hc | cases ho

/-- Without here-documents only `<<` and `$(` are operators of more than one character. -/
theorem Reader.owed_step_verbatim {m : Nat} (ho : (r.step c rest).owed = .verbatim m)
    (hdocs : (r.step c rest).heredocs = []) (hr : ∀ n, r.owed ≠ .verbatim (n + 1)) :
    m = 0 ∧ (rest.head? = some '<' ∨ rest.head? = some '(') := by
  have hcode : (r.stepCode c rest).owed = .verbatim m → (r.stepCode c rest).heredocs = [] →
      m = 0 ∧ (rest.head? = some '<' ∨ rest.head? = some '(') := fun ho hdocs =>
    (Reader.owed_stepCode ho hdocs).imp_right Or.inl
  unfold Reader.step at ho hdocs
  split at ho
  · next howed =>
      rw [howed] at hdocs
      simp only at hdocs
      unfold Reader.stepFree at ho hdocs
      rcases hcontexts : r.contexts with _ | ⟨top, outer⟩
      · rw [hcontexts] at ho hdocs
        exact hcode ho hdocs
      · rw [hcontexts] at ho hdocs
        cases top with
        | substitution | backquote => exact hcode ho hdocs
        | double =>
            by_cases hparen : rest.head? = some '('
            · simp only [Reader.stepDouble, hparen] at ho
              split at ho
              all_goals first | exact ⟨(Owed.verbatim.inj ho).symm, Or.inr hparen⟩ | cases ho
            · have hno : (rest.head? == some '(') = false := by simpa using hparen
              simp only [Reader.stepDouble, hno, Bool.false_eq_true, if_false] at ho
              split at ho
              all_goals cases ho
        | single =>
            simp only [Reader.stepSingle] at ho
            split at ho <;> cases ho
        | ansi =>
            simp only [Reader.stepAnsi] at ho
            split at ho <;> cases ho
  · unfold Reader.stepEscaped at ho
    split at ho <;> cases ho
  · cases ho
  · next n hn => exact absurd hn (hr n)

theorem Reached.owed_verbatim (h : Reached line r rest)
    (hdocs : ((Reader.start []).run line).1.heredocs = []) {m : Nat}
    (ho : r.owed = .verbatim m) : m = 0 ∧ (rest.head? = some '<' ∨ rest.head? = some '(') := by
  induction h generalizing m with
  | start => cases ho
  | step h hc ih =>
      refine Reader.owed_step_verbatim ho ((h.step hc).heredocs_eq hdocs) fun n hn => ?_
      cases (ih hn).1

end

/-! ## Steps in plain code -/

/-- Whether a character is masked behind a backslash in code. -/
def isHidden (c : Char) : Bool := !(isAlphanumeric c || c == '_')

/-- How a step can lead to plain code. -/
inductive StepToCode (r : Reader) (c : Char) : Reader → Prop
  /-- A backslash that escapes the next character. -/
  | escape (hcontexts : r.contexts = []) (ho : r.owed = .nothing) (hc : c = '\\') :
      StepToCode r c { r.keep c with owed := .escaped }
  /-- An escaped character that is masked. -/
  | hidden (hcontexts : r.contexts = []) (ho : r.owed = .escaped) (hc : isHidden c = true) :
      StepToCode r c (r.hide c)
  | blank (hcontexts : r.contexts = []) (ho : r.owed = .nothing) (hc : isBlank c = true) :
      StepToCode r c (r.keep c)
  /-- Any other character that stays visible. -/
  | visible (r' : Reader) (hcode : r'.code = c :: r.code) (hbefore : r'.before = c :: r.before)
      (hc : isBlank c = false) (hb : c ≠ '\\') (ho : r'.owed ≠ .escaped) : StepToCode r c r'

section
variable {r : Reader} {c : Char} {rest : List Char}

theorem Reader.stepToCode_stepCode (hcontexts : (r.stepCode c rest).contexts = [])
    (ho : r.owed = .nothing) : StepToCode r c (r.stepCode c rest) := by
  revert hcontexts
  unfold Reader.stepCode
  split <;> intro hcontexts
  · exact .escape hcontexts ho rfl
  · cases hcontexts
  · cases hcontexts
  · exact .visible _ rfl rfl (by decide) (by decide) (by simp [Reader.keep])
  · exact .visible _ rfl rfl (by decide) (by decide) (by simp [Reader.keep])
  · exact .visible _ rfl rfl (by decide) (by decide) (by simp [Reader.keep])
  · split
    · unfold Reader.announce
      split <;> exact .visible _ rfl rfl (by decide) (by decide) (by simp)
    · exact .visible _ rfl rfl (by decide) (by decide) (by simp [Reader.keep])
  · next hb _ _ _ _ _ _ =>
      cases hc : isBlank c with
      | true => exact .blank hcontexts ho hc
      | false => exact .visible _ rfl rfl hc hb (by simp [Reader.keep])

/-- Out of double quotes only the closing quote leads. -/
theorem Reader.stepToCode_stepDouble {outer : List Context} (hr : r.contexts ≠ [])
    (hcontexts : (r.stepDouble outer c rest).contexts = []) :
    StepToCode r c (r.stepDouble outer c rest) := by
  revert hcontexts
  unfold Reader.stepDouble
  split
  · exact fun hcontexts => absurd hcontexts hr
  · exact fun _ => .visible _ rfl rfl (by decide) (by decide) (by simp [Reader.keep])
  · split
    · intro hcontexts
      cases hcontexts
    · exact fun hcontexts => absurd hcontexts hr
  · intro hcontexts
    cases hcontexts
  · exact fun hcontexts => absurd hcontexts hr

theorem Reader.stepToCode_stepSingle {outer : List Context} (hr : r.contexts ≠ [])
    (hcontexts : (r.stepSingle outer c).contexts = []) :
    StepToCode r c (r.stepSingle outer c) := by
  revert hcontexts
  unfold Reader.stepSingle
  split
  · exact fun _ => .visible _ rfl rfl (by decide) (by decide) (by simp [Reader.keep])
  · exact fun hcontexts => absurd hcontexts hr

theorem Reader.stepToCode_stepAnsi {outer : List Context} (hr : r.contexts ≠ [])
    (hcontexts : (r.stepAnsi outer c).contexts = []) :
    StepToCode r c (r.stepAnsi outer c) := by
  revert hcontexts
  unfold Reader.stepAnsi
  split
  · exact fun hcontexts => absurd hcontexts hr
  · exact fun _ => .visible _ rfl rfl (by decide) (by decide) (by simp [Reader.keep])
  · exact fun hcontexts => absurd hcontexts hr

theorem Reader.stepToCode_stepFree (ho : r.owed = .nothing)
    (hcontexts : (r.stepFree c rest).contexts = []) : StepToCode r c (r.stepFree c rest) := by
  revert hcontexts
  unfold Reader.stepFree
  rcases hr : r.contexts with _ | ⟨top, outer⟩
  · exact fun hcontexts => Reader.stepToCode_stepCode hcontexts ho
  have hne : r.contexts ≠ [] := by simp [hr]
  cases top with
  | substitution | backquote => exact fun hcontexts => Reader.stepToCode_stepCode hcontexts ho
  | double => exact Reader.stepToCode_stepDouble hne
  | single => exact Reader.stepToCode_stepSingle hne
  | ansi => exact Reader.stepToCode_stepAnsi hne

/-- An escaped character stays visible only if it is a letter, a digit or an underscore. -/
theorem Reader.stepToCode_stepEscaped (ho : r.owed = .escaped)
    (hcontexts : (r.stepEscaped c).contexts = []) : StepToCode r c (r.stepEscaped c) := by
  revert hcontexts
  unfold Reader.stepEscaped
  split
  · next hword =>
      intro _
      have hplain : isBlank c = false ∧ c ≠ '\\' := by
        simp only [Bool.and_eq_true, Bool.or_eq_true, beq_iff_eq] at hword
        rcases hword.2 with h | rfl
        · exact ⟨isBlank_of_isAlphanumeric h, ne_of_isAlphanumeric h (by decide)⟩
        · decide
      exact .visible _ rfl rfl hplain.1 hplain.2 (by simp [Reader.keep])
  · next hmasked =>
      intro hcontexts
      have hr : r.contexts = [] := hcontexts
      refine .hidden hr ho ?_
      simpa [hr, readsCode, isHidden] using hmasked

theorem Reader.stepToCode (hcontexts : (r.step c rest).contexts = [])
    (hverbatim : ∀ m, r.owed = .verbatim m → c = '<' ∨ c = '(') :
    StepToCode r c (r.step c rest) := by
  have hoperator : ∀ r' : Reader, c = '<' ∨ c = '(' → r'.code = c :: r.code →
      r'.before = c :: r.before → r'.owed ≠ .escaped → StepToCode r c r' := by
    rintro r' (rfl | rfl) hcode hbefore ho
    all_goals exact .visible _ hcode hbefore (by decide) (by decide) ho
  revert hcontexts
  unfold Reader.step
  cases ho : r.owed with
  | nothing => exact Reader.stepToCode_stepFree ho
  | escaped => exact Reader.stepToCode_stepEscaped ho
  | verbatim more =>
      intro _
      cases more with
      | zero => exact hoperator _ (hverbatim 0 ho) rfl rfl (by simp [Reader.keep])
      | succ more => exact hoperator _ (hverbatim _ ho) rfl rfl (by simp)

end

/-! ## The invariant in plain code -/

/-- Whether the view that ends in `code` (nearest first) ends in a backslash, blanks aside. -/
def showsBackslash (code : List Char) : Prop := (code.dropWhile isBlank).head? = some '\\'

/-- The number of backslashes in a row that a text ends in (nearest first). -/
def backslashes (before : List Char) : Nat := (before.takeWhile (· == '\\')).length

/-- The reader has read an escaped character that is masked, and then only blanks. -/
def EscapedBefore (line : List Char) (r : Reader) (rest : List Char) : Prop :=
  ∃ (r₀ : Reader) (c : Char) (blanks : List Char),
    Reached line r₀ ('\\' :: c :: (blanks ++ rest)) ∧ r₀.contexts = [] ∧ r₀.owed = .nothing ∧
      isHidden c = true ∧ allBlank blanks = true ∧
      r.before = blanks.reverse ++ c :: '\\' :: r₀.before

/-- What is known about a reader in plain code. -/
structure InCode (line : List Char) (r : Reader) (rest : List Char) : Prop where
  /-- A backslash escapes if it ends a run of odd length. -/
  parity : r.owed = .escaped ↔ backslashes r.before % 2 = 1
  /-- Behind an escaping backslash. -/
  escaping : r.owed = .escaped → ∃ r₀ : Reader, Reached line r₀ ('\\' :: rest) ∧
    r₀.contexts = [] ∧ r₀.owed = .nothing ∧ r.before = '\\' :: r₀.before ∧
      r.code = '\\' :: r₀.code
  /-- The view ends in a backslash only behind one or behind a masked character. -/
  shows : showsBackslash r.code → r.owed = .escaped ∨ EscapedBefore line r rest

section
variable {line rest : List Char} {r : Reader} {c : Char}

theorem backslashes_cons_self (before : List Char) :
    backslashes ('\\' :: before) = backslashes before + 1 := by
  simp [backslashes]

theorem backslashes_cons_of_ne (hc : c ≠ '\\') (before : List Char) :
    backslashes (c :: before) = 0 := by
  simp [backslashes, hc]

theorem showsBackslash_cons_blank (hc : isBlank c = true) {code : List Char} :
    showsBackslash (c :: code) ↔ showsBackslash code := by
  rw [showsBackslash, List.dropWhile_cons_of_pos hc, showsBackslash]

theorem not_showsBackslash_cons (hc : isBlank c = false) (hb : c ≠ '\\') (code : List Char) :
    ¬ showsBackslash (c :: code) := by
  rw [showsBackslash, List.dropWhile_cons_of_neg (by simp [hc])]
  simpa using hb

theorem InCode.escape (h : Reached line r ('\\' :: rest)) (hr : r.contexts = [])
    (ho : r.owed = .nothing) (ih : InCode line r ('\\' :: rest)) :
    InCode line { r.keep '\\' with owed := .escaped } rest := by
  refine ⟨⟨fun _ => ?_, fun _ => rfl⟩, fun _ => ⟨r, h, hr, ho, rfl, rfl⟩, fun _ => Or.inl rfl⟩
  have heven : ¬ backslashes r.before % 2 = 1 := fun hodd => by
    rw [ih.parity.mpr hodd] at ho
    cases ho
  show backslashes ('\\' :: r.before) % 2 = 1
  rw [backslashes_cons_self]
  omega

theorem InCode.hidden (hc : isHidden c = true) (ho : r.owed = .escaped)
    (ih : InCode line r (c :: rest)) : InCode line (r.hide c) rest := by
  have hodd := ih.parity.mp ho
  refine ⟨⟨fun h => (by cases h), fun h => ?_⟩, fun h => (by cases h), fun _ => Or.inr ?_⟩
  · exfalso
    revert h
    show ¬ backslashes (c :: r.before) % 2 = 1
    by_cases hb : c = '\\'
    · rw [hb, backslashes_cons_self]
      omega
    · rw [backslashes_cons_of_ne hb]
      decide
  · obtain ⟨r₀, hreached, hr₀, ho₀, hbefore, -⟩ := ih.escaping ho
    exact ⟨r₀, c, [], hreached, hr₀, ho₀, hc, rfl, congrArg (c :: ·) hbefore⟩

theorem InCode.blank (hc : isBlank c = true) (ho : r.owed = .nothing)
    (ih : InCode line r (c :: rest)) : InCode line (r.keep c) rest := by
  have hne : c ≠ '\\' := by
    rintro rfl
    exact absurd hc (by decide)
  refine ⟨⟨fun h => (by cases h), fun h => ?_⟩, fun h => (by cases h), fun h => Or.inr ?_⟩
  · exfalso
    revert h
    show ¬ backslashes (c :: r.before) % 2 = 1
    rw [backslashes_cons_of_ne hne]
    decide
  · rcases ih.shows ((showsBackslash_cons_blank hc).mp h) with h | h
    · rw [ho] at h
      cases h
    · obtain ⟨r₀, d, blanks, hreached, hr₀, ho₀, hd, hblanks, hbefore⟩ := h
      refine ⟨r₀, d, blanks ++ [c], by simpa using hreached, hr₀, ho₀, hd, ?_, ?_⟩
      · simpa [allBlank, hc] using hblanks
      · rw [Reader.keep, hbefore]
        simp

theorem InCode.visible {r' : Reader} (hc : isBlank c = false) (hb : c ≠ '\\')
    (hcode : r'.code = c :: r.code) (hbefore : r'.before = c :: r.before)
    (ho : r'.owed ≠ .escaped) : InCode line r' rest := by
  refine ⟨⟨fun h => absurd h ho, fun h => ?_⟩, fun h => absurd h ho, fun h => ?_⟩
  · rw [hbefore, backslashes_cons_of_ne hb] at h
    cases h
  · rw [hcode] at h
    exact absurd h (not_showsBackslash_cons hc hb r.code)

theorem InCode.step (h : Reached line r (c :: rest))
    (hdocs : ((Reader.start []).run line).1.heredocs = [])
    (ih : r.contexts = [] → InCode line r (c :: rest))
    (hcontexts : (r.step c rest).contexts = []) : InCode line (r.step c rest) rest := by
  have hverbatim : ∀ m, r.owed = .verbatim m → c = '<' ∨ c = '(' := fun m ho => by
    simpa using (h.owed_verbatim hdocs ho).2
  have hstep := Reader.stepToCode hcontexts hverbatim
  generalize r.step c rest = r' at hstep
  cases hstep with
  | escape hr ho hb =>
      subst hb
      exact InCode.escape h hr ho (ih hr)
  | hidden hr ho hc => exact (ih hr).hidden hc ho
  | blank hr ho hc => exact (ih hr).blank hc ho
  | visible _ hcode hbefore hc hb ho => exact InCode.visible hc hb hcode hbefore ho

theorem Reached.inCode (h : Reached line r rest)
    (hdocs : ((Reader.start []).run line).1.heredocs = []) (hr : r.contexts = []) :
    InCode line r rest := by
  induction h with
  | start =>
      exact ⟨by simp [Reader.start, backslashes], fun h => (by cases h),
        fun h => (by simp [Reader.start, showsBackslash] at h)⟩
  | step h hc ih => exact InCode.step h hdocs ih hr

theorem Reached.line_eq (h : Reached line r rest) : line = r.before.reverse ++ rest := by
  induction h with
  | start => rfl
  | step h hc ih =>
      rw [Reader.before_step, List.reverse_cons, List.append_assoc, List.singleton_append]
      exact ih

end

/-! ## How the view of a line ends -/

/-- Whether only blanks and a comment follow behind the character `c`. -/
def onlyComment (c : Char) : List Char → Bool
  | [] => true
  | d :: rest => (d == '#' && separatesWords c) || (isBlank d && onlyComment d rest)

/-- The line ends, blanks and a comment aside, in an escaped character that is neither a letter nor
a digit nor an underscore. -/
def EndsInEscape (line : List Char) : Prop :=
  ∃ (r : Reader) (c : Char) (rest : List Char), Reached line r ('\\' :: c :: rest) ∧
    r.contexts = [] ∧ r.owed = .nothing ∧ isHidden c = true ∧ onlyComment c rest = true

section
variable {line rest : List Char} {r : Reader} {c : Char}

theorem showsBackslash_append {s code : List Char} (hs : ∀ c ∈ s, c = ' ') :
    showsBackslash (s ++ code) ↔ showsBackslash code := by
  have hblank : ∀ c ∈ s, isBlank c = true := fun c hc => by
    rw [hs c hc]
    decide
  rw [showsBackslash, List.dropWhile_append_of_pos hblank, showsBackslash]

theorem onlyComment_of_allBlank {blanks : List Char} (h : allBlank blanks = true) :
    onlyComment c blanks = true := by
  induction blanks generalizing c with
  | nil => rfl
  | cons d blanks ih =>
      simp only [allBlank, List.all_cons, Bool.and_eq_true] at h
      rw [onlyComment, h.1, ih h.2]
      simp

/-- Behind blanks a comment may start where it may start behind the last of them. -/
theorem onlyComment_append {blanks comment : List Char} (h : allBlank blanks = true)
    (hlast : ∀ d, (c :: blanks).getLast? = some d → separatesWords d = true) :
    onlyComment c (blanks ++ '#' :: comment) = true := by
  induction blanks generalizing c with
  | nil => simp [onlyComment, hlast c rfl]
  | cons d blanks ih =>
      simp only [allBlank, List.all_cons, Bool.and_eq_true] at h
      have hrest : onlyComment d (blanks ++ '#' :: comment) = true := ih h.2 fun e he =>
        hlast e (by rw [List.getLast?_cons_cons]; exact he)
      rw [List.cons_append, onlyComment, h.1, hrest]
      simp

theorem Reader.opensComment_iff : r.opensComment c = true ↔
    c = '#' ∧ r.owed = .nothing ∧ readsCode r.contexts = true ∧
      ∀ b, r.before.head? = some b → separatesWords b = true := by
  unfold Reader.opensComment
  cases r.before <;> simp [and_assoc]

/-- Behind `c` blanks and a comment show nothing. -/
theorem Reader.showsBackslash_run (hr : r.contexts = []) (ho : r.owed = .nothing)
    (hbefore : r.before.head? = some c) (h : onlyComment c rest = true) :
    showsBackslash (r.run rest).1.code ↔ showsBackslash r.code := by
  induction rest generalizing r c with
  | nil => exact Iff.rfl
  | cons d rest ih =>
      rw [Reader.run]
      split
      · exact showsBackslash_append fun e he => mem_mask he
      · next hcomment =>
          rw [onlyComment, Bool.or_eq_true, Bool.and_eq_true, Bool.and_eq_true, beq_iff_eq] at h
          rcases h with ⟨hd, hsep⟩ | ⟨hd, hrest⟩
          · refine absurd (Reader.opensComment_iff.mpr ⟨hd, ho, by rw [hr]; rfl, fun b hb => ?_⟩)
              hcomment
            rw [hbefore] at hb
            obtain rfl := Option.some.inj hb
            exact hsep
          · rw [(Reader.Coding.mk (by rw [hr]; rfl) ho).step_blank hd]
            exact (ih (r := r.keep d) hr rfl rfl hrest).trans (showsBackslash_cons_blank hd)

theorem EndsInEscape.mem_backslash (h : EndsInEscape line) : '\\' ∈ line := by
  obtain ⟨r, c, rest, hreached, -⟩ := h
  rw [hreached.line_eq]
  simp

theorem EndsInEscape.showsBackslash_run (h : EndsInEscape line) :
    showsBackslash ((Reader.start []).run line).1.code := by
  obtain ⟨r, c, rest, hreached, hr, ho, hc, hrest⟩ := h
  let escaping : Reader := { r.keep '\\' with owed := .escaped }
  have hescape : r.step '\\' (c :: rest) = escaping := by
    rw [Reader.step, ho]
    show r.stepFree '\\' (c :: rest) = escaping
    rw [Reader.stepFree, hr]
    rfl
  have hhide : escaping.step c rest = escaping.hide c := by
    have hcontexts : escaping.contexts = [] := hr
    have hword : (isAlphanumeric c || c == '_') = false := by simpa [isHidden] using hc
    show escaping.stepEscaped c = escaping.hide c
    rw [Reader.stepEscaped, hword, Bool.and_false]
    rfl
  have hread := hreached.step (show r.opensComment '\\' = false from rfl)
  rw [hescape] at hread
  have hbehind := hread.step (show escaping.opensComment c = false by
    simp [Reader.opensComment, escaping])
  rw [hhide] at hbehind
  rw [hbehind.run_eq]
  refine (Reader.showsBackslash_run (r := escaping.hide c) hr rfl rfl hrest).mpr ?_
  exact (showsBackslash_append fun e he => mem_maskChar he).mpr rfl

/-- **A view that ends in a backslash.** If nothing is open behind a line and the line does not end
in a backslash that escapes its end, then its view ends in a backslash exactly if the line ends in
an escaped character that is masked. -/
theorem getLast?_code_eq_backslash_iff (hnext : (Open.nothing.read line).next = Open.nothing)
    (heven : backslashes line.reverse % 2 = 0) :
    (trimEnd (Open.nothing.read line).code).getLast? = some '\\' ↔ EndsInEscape line := by
  have hcontexts : ((Reader.start []).run line).1.contexts = [] := (Open.mk.inj hnext).1
  have hdocs : ((Reader.start []).run line).1.heredocs = [] := (Open.mk.inj hnext).2
  have hview : (trimEnd (Open.nothing.read line).code).getLast? = some '\\' ↔
      showsBackslash ((Reader.start []).run line).1.code := by
    show (trimEnd ((Reader.start []).run line).1.code.reverse).getLast? = some '\\' ↔ _
    rw [trimEnd, List.reverse_reverse, List.getLast?_reverse]
    rfl
  rw [hview]
  refine ⟨fun h => ?_, fun h => h.showsBackslash_run⟩
  have hstart : Reached line (Reader.start []) line := Reached.start
  rcases hstart.exists_end with hend | ⟨r, d, comment, hr, hd, hcode⟩
  · have hin := hend.inCode hdocs hcontexts
    rcases hin.shows h with ho | ⟨r₀, c, blanks, hreached, hr₀, ho₀, hc, hblanks, -⟩
    · have hodd := hin.parity.mp ho
      have hline := hend.line_eq
      rw [List.append_nil] at hline
      rw [hline, List.reverse_reverse] at heven
      omega
    · rw [List.append_nil] at hreached
      exact ⟨r₀, c, blanks, hreached, hr₀, ho₀, hc, onlyComment_of_allBlank hblanks⟩
  · -- The comment shows nothing.
    obtain ⟨rfl, ho, -, hsep⟩ := Reader.opensComment_iff.mp hd
    have hr' : r.contexts = [] := by
      rw [hcode] at hcontexts
      exact hcontexts
    rw [hcode] at h
    have hshows := (showsBackslash_append fun e he => mem_mask he).mp h
    rcases (hr.inCode hdocs hr').shows hshows with ho' | hescaped
    · rw [ho] at ho'
      cases ho'
    · obtain ⟨r₀, c, blanks, hreached, hr₀, ho₀, hc, hblanks, hbefore⟩ := hescaped
      refine ⟨r₀, c, _, hreached, hr₀, ho₀, hc, onlyComment_append hblanks fun e he => ?_⟩
      refine hsep e ?_
      have hlast : (blanks.reverse ++ [c]).head? = some e := by
        rw [← List.reverse_cons, List.head?_reverse]
        exact he
      rw [hbefore, List.append_cons, List.head?_append, hlast]
      rfl

end

end ShellIndex.Source
