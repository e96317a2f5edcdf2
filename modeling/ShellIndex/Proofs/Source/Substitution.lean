import ShellIndex.Proofs.Source.Shows

set_option autoImplicit false

/-! # A substitution within a line

A substitution may start anywhere in a line that stands in code or in double quotes. Its marks and
the name of its command are then shown as they are, behind the view of what stands before
(`Reader.Expanding.exists_code`), whatever the rest of the line holds.
-/

namespace ShellIndex.Source

open Text

namespace Reader
variable {r : Reader} {c : Char} {s rest : List Char}

/-- Reads the text `s`, which `rest` follows, unless a comment starts in it. -/
def readTo (r : Reader) (rest : List Char) : List Char → Option Reader
  | [] => some r
  | c :: s => if r.opensComment c then none else (r.step c (s ++ rest)).readTo rest s

theorem run_append {r' : Reader} (h : r.readTo rest s = some r') :
    r.run (s ++ rest) = r'.run rest := by
  induction s generalizing r with
  | nil =>
      obtain rfl := Option.some.inj h
      rfl
  | cons c s ih =>
      rw [readTo] at h
      split at h
      · cases h
      · next hopens =>
          rw [List.cons_append, run, if_neg hopens]
          exact ih h

/-! ## The view grows -/

/-- A step shows its character or masks it. -/
theorem code_step (r : Reader) (c : Char) (rest : List Char) :
    (r.step c rest).code = maskChar c ++ r.code ∨ (r.step c rest).code = c :: r.code := by
  unfold step stepFree stepCode stepDouble stepSingle stepAnsi stepEscaped announce
  repeat' split
  all_goals first | exact Or.inl rfl | exact Or.inr rfl

/-- A step adds to the view. -/
theorem exists_code_step (r : Reader) (c : Char) (rest : List Char) :
    ∃ shown, (r.step c rest).code = shown ++ r.code ∧ ∀ d ∈ shown, d = c ∨ d = ' ' := by
  rcases r.code_step c rest with h | h
  · exact ⟨_, h, fun d hd => Or.inr (mem_maskChar hd)⟩
  · exact ⟨[c], h, fun d hd => Or.inl (List.mem_singleton.mp hd)⟩

/-- What a line adds to the view are its characters and the blanks of masked ones. -/
theorem exists_code_run (r : Reader) (rest : List Char) :
    ∃ shown, (r.run rest).1.code = shown ++ r.code ∧ ∀ d ∈ shown, d ∈ rest ∨ d = ' ' := by
  induction rest generalizing r with
  | nil => exact ⟨[], rfl, by simp⟩
  | cons c rest ih =>
      rw [run]
      split
      · exact ⟨mask (c :: rest), rfl, fun d hd => Or.inr (mem_mask hd)⟩
      · obtain ⟨shown, hstep, hmem⟩ := r.exists_code_step c rest
        obtain ⟨more, hrun, hmore⟩ := ih (r.step c rest)
        refine ⟨more ++ shown, by rw [hrun, hstep, List.append_assoc], fun d hd => ?_⟩
        rcases List.mem_append.mp hd with hd | hd
        · exact (hmore d hd).imp_left (List.mem_cons_of_mem c)
        · exact (hmem d hd).imp_left fun e => List.mem_cons.mpr (Or.inl e)

/-! ## In code -/

/-- The reader stands in code, and nothing is decided about the next character. -/
structure Coding (r : Reader) : Prop where
  reads_code : readsCode r.contexts = true
  owed_eq : r.owed = .nothing

theorem Coding.step_eq (h : r.Coding) (c : Char) (rest : List Char) :
    r.step c rest = r.stepCode c rest := by
  have hcode := h.reads_code
  rw [step, h.owed_eq]
  dsimp only
  unfold stepFree
  rcases hcontexts : r.contexts with _ | ⟨top, outer⟩
  · rfl
  · rw [hcontexts] at hcode
    cases top <;> first | rfl | cases hcode

/-- In code every character is visible. -/
theorem code_stepCode (r : Reader) (c : Char) (rest : List Char) :
    (r.stepCode c rest).code = c :: r.code := by
  unfold stepCode announce
  repeat' split
  all_goals rfl

theorem Coding.step_inert (h : r.Coding) (hc : isInert c = true) (rest : List Char) :
    r.step c rest = r.keep c := by
  simp only [isInert, Bool.and_eq_true, bne_iff_ne, ne_eq] at hc
  obtain ⟨⟨⟨hplain, hopen⟩, hclose⟩, -⟩ := hc
  obtain ⟨⟨hc₁, hc₂, hc₃, hc₄⟩, -, hc₆⟩ := ne_of_isPlainCode hplain
  rw [h.step_eq]
  unfold stepCode
  split <;> first | rfl | contradiction

theorem Coding.keep (h : r.Coding) (c : Char) : (r.keep c).Coding := ⟨h.reads_code, rfl⟩

/-- In code a text without marks is read as it is. -/
theorem Coding.run_inert (h : r.Coding) (hs : ∀ c ∈ s, isInert c = true) (rest : List Char) :
    ∃ r' : Reader, r'.Coding ∧ r'.code = s.reverse ++ r.code ∧ r.run (s ++ rest) = r'.run rest := by
  induction s generalizing r with
  | nil => exact ⟨r, h, rfl, rfl⟩
  | cons c s ih =>
      have hc := hs c (by simp)
      have hopens : ¬ r.opensComment c = true := by
        rintro hopens
        obtain rfl : c = '#' := by
          simp only [opensComment, Bool.and_eq_true, beq_iff_eq] at hopens
          exact hopens.1.1.1
        exact absurd hc (by decide)
      obtain ⟨r', hr', hcode, hrun⟩ := ih (h.keep c) fun d hd => hs d (List.mem_cons_of_mem c hd)
      refine ⟨r', hr', ?_, ?_⟩
      · rw [hcode]
        simp [Reader.keep]
      · rw [List.cons_append, run, if_neg hopens, h.step_inert hc, hrun]

theorem Coding.step_blank (h : r.Coding) (hc : isBlank c = true) (rest : List Char) :
    r.step c rest = r.keep c := by
  rw [h.step_eq]
  unfold stepCode
  split <;> first | rfl | exact absurd hc (by decide)

theorem trimStart_mask (s t : List Char) : trimStart ((mask s).reverse ++ t) = trimStart t := by
  have hblank : ∀ c ∈ (mask s).reverse, isBlank c = true := by
    intro c hc
    rw [mem_mask (List.mem_reverse.mp hc)]
    decide
  exact List.dropWhile_append_of_pos hblank

/-- What a text in code shows starts as the text does, or with the blank of a masked comment. -/
theorem Coding.exists_view (h : r.Coding) (rest : List Char) :
    ∃ view, (r.run rest).1.code = view.reverse ++ r.code ∧
      (∀ c, view.head? = some c → rest.head? = some c ∨ c = ' ') ∧
      ∀ c, (trimStart view).head? = some c → (trimStart rest).head? = some c := by
  induction rest generalizing r with
  | nil => exact ⟨[], rfl, by simp, by simp⟩
  | cons d rest ih =>
      rw [run]
      split
      · refine ⟨(mask (d :: rest)).reverse, by simp, fun c hc => Or.inr ?_, fun c hc => ?_⟩
        · exact mem_mask (List.mem_reverse.mp (List.mem_of_head? hc))
        · have htrim := trimStart_mask (d :: rest) []
          rw [List.append_nil] at htrim
          rw [htrim] at hc
          cases hc
      · -- Behind a blank the reader still stands in code. Behind any other character nothing more
        -- is claimed of the view.
        by_cases hd : isBlank d = true
        · rw [h.step_blank hd]
          obtain ⟨view, hcode, -, htrim⟩ := ih (h.keep d)
          refine ⟨d :: view, ?_, fun c hc => Or.inl hc, fun c hc => ?_⟩
          · rw [hcode]
            simp [Reader.keep]
          · rw [trimStart, List.dropWhile_cons_of_pos hd] at hc ⊢
            exact htrim c hc
        · obtain ⟨shown, hshown, -⟩ := (r.step d rest).exists_code_run rest
          rw [h.step_eq, code_stepCode, ← h.step_eq] at hshown
          refine ⟨d :: shown.reverse, ?_, fun c hc => Or.inl hc, fun c hc => ?_⟩
          · rw [hshown]
            simp
          · rw [trimStart, List.dropWhile_cons_of_neg hd] at hc ⊢
            exact hc

/-! ## The start of a substitution -/

/-- A substitution that starts here is one: the reader stands in code or in double quotes, and
nothing is decided about the next character. -/
structure Expanding (r : Reader) : Prop where
  owed_eq : r.owed = .nothing
  expands : readsCode r.contexts = true ∨ r.contexts.head? = some .double

/-- Behind the marks that start a substitution the reader stands in code. -/
theorem Expanding.run_open (h : r.Expanding) (rest : List Char) :
    ∃ r' : Reader, r'.Coding ∧ r'.code = '(' :: '$' :: r.code ∧
      r.run ('$' :: '(' :: rest) = r'.run rest := by
  have hopens : ∀ r : Reader, r.opensComment '$' = false ∧ r.opensComment '(' = false :=
    fun r => ⟨by simp [opensComment], by simp [opensComment]⟩
  have hrun : r.run ('$' :: '(' :: rest) =
      ((r.step '$' ('(' :: rest)).step '(' rest).run rest := by
    rw [run, if_neg (by simp [(hopens r).1]), run, if_neg (by simp [(hopens _).2])]
  rcases h.expands with hcode | hdouble
  · have hr : r.Coding := ⟨hcode, h.owed_eq⟩
    refine ⟨_, ?_, ?_, hrun⟩
    · rw [hr.step_inert (by decide), (hr.keep '$').step_eq]
      exact ⟨readsCode_openParen hcode, rfl⟩
    · rw [hr.step_inert (by decide), (hr.keep '$').step_eq, code_stepCode]
      rfl
  · obtain ⟨outer, hcontexts⟩ := List.head?_eq_some_iff.mp hdouble
    -- The dollar sign decides about the parenthesis too, which is then taken as it is.
    have hstep : r.step '$' ('(' :: rest) =
        { r.keep '$' with contexts := .substitution 0 :: r.contexts, owed := .verbatim 0 } := by
      rw [step, h.owed_eq]
      dsimp only
      rw [stepFree, hcontexts]
      show r.stepDouble outer '$' ('(' :: rest) = _
      simp [stepDouble, hcontexts]
    rw [hstep] at hrun
    exact ⟨_, ⟨rfl, rfl⟩, rfl, hrun⟩

/-- **A substitution within a line** is shown with the name of its command, behind the view of what
stands before it. -/
theorem Expanding.exists_code (h : r.Expanding) {name : List Char}
    (hname : ∀ c ∈ name, isInert c = true) (rest : List Char) :
    ∃ view, (r.run ('$' :: '(' :: (name ++ rest))).1.code.reverse =
        r.code.reverse ++ '$' :: '(' :: (name ++ view) ∧
      (∀ c, view.head? = some c → rest.head? = some c ∨ c = ' ') ∧
      ∀ c, (trimStart view).head? = some c → (trimStart rest).head? = some c := by
  obtain ⟨r₁, hr₁, hcode₁, hrun₁⟩ := h.run_open (name ++ rest)
  obtain ⟨r₂, hr₂, hcode₂, hrun₂⟩ := hr₁.run_inert hname rest
  obtain ⟨view, hcode, hhead, htrim⟩ := hr₂.exists_view rest
  refine ⟨view, ?_, hhead, htrim⟩
  rw [hrun₁, hrun₂, hcode, hcode₂, hcode₁]
  simp

end Reader

end ShellIndex.Source
