import ShellIndex.Proofs.Call.Behind

set_option autoImplicit false

/-! # The command of a substitution

Behind `$(` a command is expected, wherever the substitution stands: unless the tracker reads an
array, the subject or the patterns of a `case` command, or the name of a definition, none of which
it leaves for a substitution (`Cursor.run_substitution`). Where a script has neither arrays nor
`case` commands before the substitution, that does not happen (`Cursor.Simple.run`).
-/

namespace ShellIndex.Call

open Text Program

/-! ## The lexemes of a substitution -/

namespace Lexeme

/-- A mark that is no parenthesis hides no empty pair of parentheses and makes none. -/
theorem startsWithParens_append_mark {d : Char} (hd : isBlank d = false) (hopen : d ≠ '(')
    (hclose : d ≠ ')') (u t : List Char) :
    startsWithParens (u ++ d :: t) = startsWithParens u := by
  have hmark : ∀ t, trimStart (d :: t) = d :: t := fun t => by simp [trimStart, hd]
  have hskip : ∀ v, trimStart v = [] → trimStart (v ++ d :: t) = d :: t := by
    intro v hv
    have hall : ∀ c ∈ v, isBlank c = true := by simpa [allBlank] using trimStart_eq_nil_iff.mp hv
    rw [trimStart, List.dropWhile_append_of_pos hall]
    exact hmark t
  have hinner : ∀ v, (trimStart (v ++ d :: t)).head? = some ')' ↔
      (trimStart v).head? = some ')' := by
    intro v
    cases hv : trimStart v with
    | nil =>
        rw [hskip v hv]
        simp [hclose]
    | cons e w =>
        rw [trimStart_append hv]
        simp
  rw [Bool.eq_iff_iff, startsWithParens_iff, startsWithParens_iff]
  cases hu : trimStart u with
  | nil =>
      rw [hskip u hu]
      simp [hopen]
  | cons e w =>
      rw [trimStart_append hu, List.cons_append]
      constructor
      · rintro ⟨inner, e', hhead⟩
        obtain ⟨rfl, rfl⟩ := List.cons.inj e'
        exact ⟨w, rfl, (hinner w).mp hhead⟩
      · rintro ⟨inner, e', hhead⟩
        obtain ⟨rfl, rfl⟩ := List.cons.inj e'
        exact ⟨_, rfl, (hinner w).mpr hhead⟩

/-- The lexemes at the start of a substitution in a line. -/
theorem ofCode_substitution {s name t : List Char} (hne : name ≠ [])
    (hname : ∀ c ∈ name, isWordChar c = true) (hend : EndsRun t)
    (hparens : startsWithParens t = false) :
    ofCode (s ++ '$' :: '(' :: (name ++ t)) =
      ofCode s ++ ([.dollar, .openParen, .word (String.ofList name) false] ++ ofCode t) := by
  have hcut : ofCode (s ++ '$' :: '(' :: (name ++ t)) =
      ofCode s ++ ofCode ('$' :: '(' :: (name ++ t)) :=
    listFrom_append (by decide) (by decide)
      (fun u _ => startsWithParens_append_mark (by decide) (by decide) (by decide) u _) (by simp)
  rw [hcut, ofCode_mark (by decide) rfl (by simp), ofCode_mark (by decide) rfl (by simp),
    ofCode_word hne hname hend, hparens]
  rfl

end Lexeme

namespace Cursor
variable {k : Cursor} {l : Lexeme}

/-! ## The tracker in a substitution -/

/-- Whether a substitution that starts here is read as one. -/
def substitutes (k : Cursor) : Bool := !k.inArray && inCommands k.cases && !k.afterFunction

theorem meaning_eq_call_iff {text : String} {defines : Bool} :
    meaning text false defines = .call ↔ isCommandName text = true ∧ defines = false := by
  simp only [meaning, isCommandName, Bool.and_eq_true, Bool.not_eq_true', List.contains_eq_mem,
    decide_eq_false_iff_not, List.mem_append, List.mem_cons, List.not_mem_nil, or_false, not_or,
    Bool.false_and, Bool.false_eq_true, if_false]
  repeat' split
  all_goals simp_all

/-- In command position a word is a call if it has no meaning of its own and is not defined. -/
theorem command_call (hwrapper : k.afterWrapper = false) (text : String) (defines : Bool) :
    (k.command text defines).2.toList =
      if isCommandName text && !defines then [text] else [] := by
  rw [command_eq_enact, hwrapper]
  by_cases h : isCommandName text = true ∧ defines = false
  · rw [meaning_eq_call_iff.mpr h, h.1, h.2]
    rfl
  · have hmeaning : meaning text false defines ≠ .call := fun e => h (meaning_eq_call_iff.mp e)
    have hcall : ¬ (isCommandName text && !defines) = true := by simpa using h
    rw [if_neg hcall]
    cases hm : meaning text false defines <;> first | rfl | exact absurd hm hmeaning

/-- In an array, and between `case` and the body of an arm, no word is a call. -/
theorem place_silent (h : k.inArray = true ∨ inCommands k.cases = false) (text : String)
    (reference target defines : Bool) : (k.place text reference target defines).2 = none := by
  unfold place
  split
  · rfl
  · next hplace =>
      have hcases : inCommands k.cases = false := h.resolve_left fun e => hplace (by simp [e])
      split
      · split <;> rfl
      · split <;> rfl
      · next hsubject hpattern =>
          have hin := inCommands_eq_true hsubject hpattern
          rw [hcases] at hin
          cases hin

/-- Behind `$(` a command is expected, if commands are read at all. -/
theorem run_open (k : Cursor) : ∃ k' : Cursor, k.run [.dollar, .openParen] = (k', []) ∧
    (k'.inArray = k.inArray ∧ k'.cases = k.cases ∧ k'.afterFunction = k.afterFunction) ∧
    (k'.afterDollar = false ∧ k'.afterRedirection = false ∧ k'.afterWrapper = false) ∧
    (k.inArray = false → inCommands k.cases = true → k'.atCommand = true) := by
  let k₁ : Cursor := { k with afterDollar := true, last := some .dollar }
  have hfunction : (k₁.mark .openParen).afterFunction = k.afterFunction :=
    interpret_afterFunction k₁ .openParen
  have hflags : (k₁.mark .openParen).afterDollar = false ∧
      (k₁.mark .openParen).afterRedirection = false ∧
      (k₁.mark .openParen).afterWrapper = false := ⟨rfl, rfl, Bool.and_false _⟩
  refine ⟨k₁.mark .openParen, rfl, ?_⟩
  by_cases hread : k.inArray = false ∧ inCommands k.cases = true
  · have hwithin : Within k.cases k.atCommand k₁ := ⟨rfl, rfl, hread.1⟩
    have hinterpret : k₁.interpret .openParen = { k₁ with atCommand := true } :=
      hwithin.interpret_eq hread.2
    refine ⟨⟨?_, ?_, hfunction⟩, hflags, fun _ _ => ?_⟩
    · show (k₁.interpret .openParen).inArray = k.inArray
      rw [hinterpret]
    · show (k₁.interpret .openParen).cases = k.cases
      rw [hinterpret]
    · show (k₁.interpret .openParen).atCommand = true
      rw [hinterpret]
  · -- Only a closing parenthesis means anything here.
    have hinterpret : k₁.interpret .openParen = k₁ := by
      unfold interpret
      split
      · rfl
      · next harray =>
          split
          · rfl
          · rfl
          · next hsubject hpattern =>
              have harray' : k.inArray = false := by simpa using harray
              exact absurd ⟨harray', inCommands_eq_true hsubject hpattern⟩ hread
    refine ⟨⟨?_, ?_, hfunction⟩, hflags, fun harray hcases => absurd ⟨harray, hcases⟩ hread⟩
    · show (k₁.interpret .openParen).inArray = k.inArray
      rw [hinterpret]
    · show (k₁.interpret .openParen).cases = k.cases
      rw [hinterpret]

/-- **The command of a substitution** is a call unless the substitution is not read as one. -/
theorem run_substitution (k : Cursor) (name : String) :
    (k.run [.dollar, .openParen, .word name false]).2 =
      if k.substitutes && isCommandName name then [name] else [] := by
  obtain ⟨k', hrun, ⟨harray, hcases, hfunction⟩, ⟨hdollar, hredirection, hwrapper⟩, hat⟩ :=
    k.run_open
  have hword : (k.run [.dollar, .openParen, .word name false]).2 =
      (k'.word name false).2.toList := by
    have happend := run_append k [.dollar, .openParen] [.word name false]
    rw [hrun] at happend
    rw [List.cons_append, List.cons_append, List.nil_append] at happend
    rw [happend]
    simp [run, step]
  rw [hword, word_eq, hdollar, hredirection, hfunction, Bool.or_false]
  -- The parenthesis leads into command position only where commands are read before it.
  by_cases hread : k.inArray = false ∧ inCommands k.cases = true
  · have hwithin : Within k.cases true (reading k' name false) :=
      ⟨hcases, hat hread.1 hread.2, harray.trans hread.1⟩
    have hafter : (reading k' name false).afterWrapper = false := hwrapper
    rw [hwithin.place_eq hread.2, if_neg (by simp), command_call hafter, substitutes, hread.1,
      hread.2, Bool.and_comm]
    rfl
  · have hsilent : (reading k' name false).inArray = true ∨
        inCommands (reading k' name false).cases = false := by
      show k'.inArray = true ∨ inCommands k'.cases = false
      rw [harray, hcases]
      by_cases h : k.inArray = true
      · exact Or.inl h
      · refine Or.inr (Bool.eq_false_iff.mpr fun hin => hread ⟨by simpa using h, hin⟩)
    have hsubstitutes : ¬ (k.substitutes && isCommandName name) = true := by
      intro h
      simp only [substitutes, Bool.and_eq_true, Bool.not_eq_true'] at h
      exact hread ⟨h.1.1.1, h.1.1.2⟩
    rw [place_silent hsilent, if_neg hsubstitutes]
    rfl

end Cursor

/-! ## Without arrays and `case` commands -/

namespace Lexeme

/-- Whether a word that ends in an equals sign stands before. -/
def endsInEquals : Option Lexeme → Bool
  | some (.word text _) => text.toList.getLast? == some '='
  | _ => false

/-- Whether a lexeme starts an array or, in command position, a `case` command. -/
def opens (last : Option Lexeme) : Lexeme → Bool
  | .word text _ => text == "case"
  | .openParen => endsInEquals last
  | _ => false

/-- Whether no lexeme of some starts an array or a `case` command. -/
def opensNothing (last : Option Lexeme) : List Lexeme → Bool
  | [] => true
  | l :: ls => !l.opens last && opensNothing (some l) ls

end Lexeme

namespace Cursor
variable {k : Cursor} {l : Lexeme} {ls : List Lexeme}

/-- The tracker is in no array and no `case` command. -/
structure Simple (k : Cursor) : Prop where
  cases_eq : k.cases = []
  inArray_eq : k.inArray = false

theorem Simple.command (h : k.Simple) {text : String} (ht : text ≠ "case") (defines : Bool) :
    (k.command text defines).1.Simple := by
  have hmeaning : meaning text k.afterWrapper defines ≠ .opensCase := by
    unfold meaning
    rw [if_neg ht]
    repeat' split
    all_goals simp
  rw [command_eq_enact]
  cases hm : meaning text k.afterWrapper defines with
  | opensCase => exact absurd hm hmeaning
  | closesCase => exact ⟨by simp [enact, h.cases_eq], h.inArray_eq⟩
  | _ => exact ⟨h.cases_eq, h.inArray_eq⟩

theorem Simple.place (h : k.Simple) {text : String} (ht : text ≠ "case")
    (reference target defines : Bool) :
    (k.place text reference target defines).1.Simple := by
  have hwithin : Within [] k.atCommand k := ⟨h.cases_eq, rfl, h.inArray_eq⟩
  cases target with
  | true =>
      rw [Cursor.place, if_pos (by simp)]
      exact h
  | false =>
      rw [hwithin.place_eq rfl]
      split
      · exact ⟨h.cases_eq, h.inArray_eq⟩
      · exact h.command ht defines

theorem Simple.interpret (h : k.Simple) (hl : l.opens k.last = false) :
    (k.interpret l).Simple := by
  have hwithin : Within [] k.atCommand k := ⟨h.cases_eq, rfl, h.inArray_eq⟩
  rw [hwithin.interpret_eq rfl]
  cases l with
  | openParen =>
      have hequals : k.followsEquals = false := hl
      rw [markInCode, hequals, if_neg (by simp)]
      split <;> exact ⟨h.cases_eq, h.inArray_eq⟩
  | armEnd =>
      -- Outside of `case` commands the end of an arm leads back to no patterns.
      rw [markInCode, h.cases_eq]
      exact ⟨rfl, h.inArray_eq⟩
  | ampersand | openBrace =>
      rw [markInCode]
      split <;> exact ⟨h.cases_eq, h.inArray_eq⟩
  | _ => exact ⟨h.cases_eq, h.inArray_eq⟩

theorem Simple.step (h : k.Simple) (hl : l.opens k.last = false) : (k.step l).1.Simple := by
  cases l with
  | word text defines =>
      have ht : text ≠ "case" := by simpa [Lexeme.opens] using hl
      have hread : (reading k text defines).Simple := ⟨h.cases_eq, h.inArray_eq⟩
      exact hread.place ht _ _ _
  | dollar => exact ⟨h.cases_eq, h.inArray_eq⟩
  | _ => exact ⟨(h.interpret hl).cases_eq, (h.interpret hl).inArray_eq⟩

/-- **No lexeme leads into an array or a `case` command** unless it starts one. -/
theorem Simple.run (h : k.Simple) (hls : Lexeme.opensNothing k.last ls = true) :
    (k.run ls).1.Simple := by
  induction ls generalizing k with
  | nil => exact h
  | cons l ls ih =>
      rw [Lexeme.opensNothing, Bool.and_eq_true, Bool.not_eq_true'] at hls
      have hlast : (k.step l).1.last = some l := k.last_step l
      exact ih (h.step hls.1) (hlast ▸ hls.2)

theorem afterFunction_place {text : String} (ht : text ≠ "function") (k : Cursor)
    (reference target defines : Bool) :
    (k.place text reference target defines).1.afterFunction = k.afterFunction := by
  have hmeaning : meaning text k.afterWrapper defines ≠ .startsHeader := by
    unfold meaning
    rw [if_neg ht]
    repeat' split
    all_goals simp
  have hcommand : (k.command text defines).1.afterFunction = k.afterFunction := by
    rw [command_eq_enact]
    cases hm : meaning text k.afterWrapper defines <;> first | rfl | exact absurd hm hmeaning
  unfold place
  repeat' split
  all_goals first | rfl | exact hcommand

/-- The next word is the name of a definition only behind the word `function`. -/
theorem afterFunction_run (h : k.afterFunction = false)
    (hls : ∀ defines, .word "function" defines ∉ ls) : (k.run ls).1.afterFunction = false := by
  induction ls generalizing k with
  | nil => exact h
  | cons l ls ih =>
      have hstep : (k.step l).1.afterFunction = false := by
        cases l with
        | word text defines =>
            have ht : text ≠ "function" := fun e => hls defines (e ▸ List.mem_cons_self)
            exact afterFunction_place ht (reading k text defines) _ _ _
        | dollar => exact h
        | _ => exact (interpret_afterFunction k _).trans h
      exact ih hstep fun defines hmem => hls defines (List.mem_cons_of_mem l hmem)

theorem Simple.substitutes (h : k.Simple) (hfunction : k.afterFunction = false) :
    k.substitutes = true := by
  rw [Cursor.substitutes, h.cases_eq, h.inArray_eq, hfunction]
  rfl

end Cursor

/-- Lines without arrays and `case` commands lead into none. -/
theorem Tracker.simple_after {t : Tracker} (ht : t.startLine.Simple) {codes : List (List Char)}
    (hcodes : ∀ code ∈ codes, Lexeme.opensNothing none (Lexeme.ofCode code) = true) :
    (t.after codes).startLine.Simple := by
  induction codes generalizing t with
  | nil => exact ht
  | cons code codes ih =>
      have hline : (t.startLine.run (Lexeme.ofCode code)).1.Simple :=
        Cursor.Simple.run ht (hcodes code List.mem_cons_self)
      have hnext : (t.readLine code).1.startLine.Simple := ⟨hline.cases_eq, hline.inArray_eq⟩
      exact ih hnext fun code' hcode => hcodes code' (List.mem_cons_of_mem code hcode)

end ShellIndex.Call
