import ShellIndex.Proofs.Call.Marks

set_option autoImplicit false

/-! # Scripts of words and operators

Without quotes, expansions, redirections and assignments, of what the tracker knows only few
things matter: the open `case` commands, whether a command is expected, and whether a wrapper or the
word `function` was read before. Two cursors that agree on these yield the same calls
(`Alike.resume_eq`).
-/

namespace ShellIndex.Call

open Text Program

/-! ## Ordinary lexemes -/

/-- Whether a character separates plain words and operators or belongs to one. -/
def isScriptChar (c : Char) : Bool :=
  Source.isPlainCode c && c != '$' && c != '>' && c != '=' && c != '\r'

/-- Whether a lexeme is an operator or a word that starts no array. -/
def Lexeme.isOrdinary : Lexeme → Bool
  | .word text _ => text.toList.getLast? != some '='
  | .semicolon | .armEnd | .ampersand | .bar => true
  | .openParen | .closeParen | .openBrace | .closeBrace => true
  | .dollar | .redirection _ | .quote | .backquote => false

theorem ne_of_isScriptChar {c : Char} (h : isScriptChar c = true) {d : Char}
    (hd : isScriptChar d = false) : c ≠ d := by
  rintro rfl
  rw [h] at hd
  cases hd

theorem no_return {s : List Char} (hs : ∀ c ∈ s, isScriptChar c = true) : '\r' ∉ s := fun h =>
  ne_of_isScriptChar (hs _ h) (by decide) rfl

theorem Lexeme.isOrdinary_punctuation? {c : Char} (hc : isScriptChar c = true)
    {rest : List Char} {mark : Lexeme} (h : punctuation? c rest = some mark) :
    mark.isOrdinary = true := by
  unfold punctuation? at h
  split at h
  all_goals
    first
      | exact absurd hc (by decide)
      | cases h; done
      | split at h <;> cases h <;> rfl
      | cases h; rfl

theorem Lexeme.isOrdinary_listFrom {s : List Char} (hs : ∀ c ∈ s, isScriptChar c = true)
    (place : Place) : ∀ l ∈ listFrom place s, l.isOrdinary = true := by
  induction s generalizing place with
  | nil => simp [listFrom]
  | cons c s ih =>
      have hrest : ∀ place, ∀ l ∈ listFrom place s, l.isOrdinary = true :=
        ih fun d hd => hs d (List.mem_cons_of_mem c hd)
      have hword : (word (String.ofList (c :: s.takeWhile isWordChar))
          (startsWithParens (s.dropWhile isWordChar))).isOrdinary = true := by
        have hmem : ∀ d ∈ c :: s.takeWhile isWordChar, d ∈ c :: s := fun d hd =>
          (List.cons_subset_cons c (List.takeWhile_sublist isWordChar).subset) hd
        have hlast : (c :: s.takeWhile isWordChar).getLast? ≠ some '=' := fun h =>
          ne_of_isScriptChar (hs _ (hmem _ (List.mem_of_getLast? h))) (by decide) rfl
        simpa [isOrdinary] using hlast
      rw [listFrom]
      split
      · exact hrest _
      · split
        · exact hrest _
        · split
          · next h => exact List.forall_mem_cons.mpr ⟨rfl, hrest _⟩
          · next mark h =>
              exact List.forall_mem_cons.mpr
                ⟨isOrdinary_punctuation? (hs c (by simp)) h, hrest _⟩
          · split
            · exact hrest _
            · exact List.forall_mem_cons.mpr ⟨hword, hrest _⟩

/-! ## Ordinary cursors -/

namespace Cursor

/-- The cursor is behind ordinary lexemes of its line, and in no array. -/
structure Ordinary (k : Cursor) : Prop where
  inArray_eq : k.inArray = false
  afterDollar_eq : k.afterDollar = false
  afterRedirection_eq : k.afterRedirection = false
  isOrdinary_last : ∀ l, k.last = some l → l.isOrdinary = true

/-- Whether the next word is read as the name of a command. -/
def expectsCommand (k : Cursor) : Bool := k.atCommand && inCommands k.cases

/-- Whether a word has no meaning of its own in command position. -/
def isCommandName (text : String) : Bool :=
  !(["case", "esac", "function"] ++ keywords ++ wrappers).contains text && !isAssignment text

theorem command_of_isCommandName {text : String} (h : isCommandName text = true) {k : Cursor}
    (hoption : (k.afterWrapper && isOption text) = false) :
    k.command text false = ({ k with afterWrapper := false, atCommand := false }, some text) := by
  simp only [isCommandName, Bool.and_eq_true, Bool.not_eq_true', List.contains_eq_mem,
    decide_eq_false_iff_not, List.mem_append, List.mem_cons, List.not_mem_nil, or_false,
    not_or] at h
  obtain ⟨⟨⟨⟨hcase, hesac, hfunction⟩, hkeyword⟩, hwrapper⟩, hassignment⟩ := h
  rw [command, if_neg hcase, if_neg hesac, if_neg hfunction, if_neg hkeyword, if_neg hwrapper,
    hoption, hassignment]
  simp

/-- What a word in command position means. -/
inductive Meaning where
  /-- It starts a `case` command. -/
  | opensCase
  /-- It ends a `case` command. -/
  | closesCase
  /-- The name of a definition follows. -/
  | startsHeader
  /-- The command of a wrapper follows. -/
  | wraps
  /-- The command is still to come. -/
  | nothing
  /-- It is the name of the command. -/
  | call

/-- What a word in command position means depends only on the word, on whether it is read behind a
wrapper, and on whether it is the name of a definition. -/
def meaning (text : String) (afterWrapper defines : Bool) : Meaning :=
  if text = "case" then .opensCase
  else if text = "esac" then .closesCase
  else if text = "function" then .startsHeader
  else if text ∈ keywords then .nothing
  else if text ∈ wrappers then .wraps
  else if afterWrapper && isOption text then .nothing
  else if isAssignment text then .nothing
  else if defines then .nothing
  else .call

/-- Reads a word of a given meaning. -/
def enact (k : Cursor) (text : String) : Meaning → Cursor × Option String
  | .opensCase => ({ k with cases := .subject :: k.cases, atCommand := false }, none)
  | .closesCase => ({ k with cases := k.cases.tail, atCommand := false }, none)
  | .startsHeader => ({ k with afterFunction := true }, none)
  | .wraps => ({ k with afterWrapper := true }, none)
  | .nothing => (k, none)
  | .call => ({ k with afterWrapper := false, atCommand := false }, some text)

theorem command_eq_enact (k : Cursor) (text : String) (defines : Bool) :
    k.command text defines = k.enact text (meaning text k.afterWrapper defines) := by
  simp only [meaning, apply_ite (k.enact text)]
  rfl

/-- What no word changes beyond the flags for the next word. -/
def frame (k : Cursor) : Bool × Bool × Bool × Option Lexeme :=
  (k.inArray, k.afterDollar, k.afterRedirection, k.last)

theorem frame_command (k : Cursor) (text : String) (defines : Bool) :
    (k.command text defines).1.frame = k.frame := by
  rw [command_eq_enact]
  cases meaning text k.afterWrapper defines <;> rfl

theorem frame_place (k : Cursor) (text : String) (reference target defines : Bool) :
    (k.place text reference target defines).1.frame = k.frame := by
  unfold place
  repeat' split
  all_goals first | rfl | exact k.frame_command text defines

theorem last_step (k : Cursor) (l : Lexeme) : (k.step l).1.last = some l := by
  cases l with
  | word text defines => exact congrArg (·.2.2.2) (frame_place (reading k text defines) text _ _ _)
  | _ => rfl

theorem last_run (k : Cursor) (ls : List Lexeme) :
    (k.run ls).1.last = ls.getLast?.or k.last := by
  induction ls generalizing k with
  | nil => rfl
  | cons l ls ih =>
      rw [run_cons, ih, last_step, List.getLast?_cons]
      cases ls.getLast? <;> rfl

variable {k k' : Cursor} {l : Lexeme}

namespace Ordinary

theorem followsRedirection_eq (h : k.Ordinary) : k.followsRedirection = false := by
  unfold followsRedirection
  split
  · next p hp => exact absurd (h.isOrdinary_last _ hp) (by simp [Lexeme.isOrdinary])
  · rfl

theorem followsEquals_eq (h : k.Ordinary) : k.followsEquals = false := by
  unfold followsEquals
  split
  · next text defines hp => simpa [Lexeme.isOrdinary] using h.isOrdinary_last _ hp
  · rfl

theorem last_ne_dollar (h : k.Ordinary) : k.last ≠ some .dollar := fun hp =>
  absurd (h.isOrdinary_last _ hp) (by simp [Lexeme.isOrdinary])

end Ordinary

/-! ## Cursors that agree -/

/-- The cursors agree on what decides about the next command. -/
structure Alike (k k' : Cursor) : Prop where
  cases_eq : k.cases = k'.cases
  atCommand_eq : k.atCommand = k'.atCommand
  afterFunction_eq : k.afterFunction = k'.afterFunction
  /-- A wrapper matters only for the next command. -/
  afterWrapper_eq : k.expectsCommand = true → k.afterWrapper = k'.afterWrapper

theorem Alike.refl (k : Cursor) : k.Alike k := ⟨rfl, rfl, rfl, fun _ => rfl⟩

/-- The results of two steps agree, and the steps yield the same call. -/
def SameStep (result result' : Cursor × Option String) : Prop :=
  result.1.Alike result'.1 ∧ result.2 = result'.2

theorem Alike.command (h : k.Alike k') (hc : k.expectsCommand = true) (text : String)
    (defines : Bool) : SameStep (k.command text defines) (k'.command text defines) := by
  have hwrapper := h.afterWrapper_eq hc
  have hcases : k.cases.tail = k'.cases.tail := by rw [h.cases_eq]
  have hcons : CasePart.subject :: k.cases = .subject :: k'.cases := by rw [h.cases_eq]
  rw [command_eq_enact, command_eq_enact, ← hwrapper]
  cases meaning text k.afterWrapper defines with
  | opensCase => exact ⟨⟨hcons, rfl, h.afterFunction_eq, fun _ => hwrapper⟩, rfl⟩
  | closesCase => exact ⟨⟨hcases, rfl, h.afterFunction_eq, fun _ => hwrapper⟩, rfl⟩
  | startsHeader => exact ⟨⟨h.cases_eq, h.atCommand_eq, rfl, fun _ => hwrapper⟩, rfl⟩
  | wraps => exact ⟨⟨h.cases_eq, h.atCommand_eq, h.afterFunction_eq, fun _ => rfl⟩, rfl⟩
  | nothing => exact ⟨h, rfl⟩
  | call => exact ⟨⟨h.cases_eq, rfl, h.afterFunction_eq, fun _ => rfl⟩, rfl⟩

theorem inCommands_eq_true {cases : List CasePart} (hsubject : ∀ outer, cases ≠ .subject :: outer)
    (hpattern : ∀ outer, cases ≠ .pattern :: outer) : inCommands cases = true := by
  match cases with
  | [] => rfl
  | .body :: _ => rfl
  | .subject :: outer => exact absurd rfl (hsubject outer)
  | .pattern :: outer => exact absurd rfl (hpattern outer)

theorem Alike.place (h : k.Alike k') (ha : k.inArray = false) (ha' : k'.inArray = false)
    (text : String) (defines : Bool) :
    SameStep (k.place text false false defines) (k'.place text false false defines) := by
  unfold Cursor.place
  rw [ha, ha', ← h.cases_eq, ← h.atCommand_eq]
  simp only [Bool.false_or, Bool.false_eq_true, if_false, Bool.not_eq_true']
  split
  · -- Between `case` and `in`.
    split
    · exact ⟨⟨rfl, rfl, h.afterFunction_eq,
        fun hc => by simp [expectsCommand, inCommands] at hc⟩, rfl⟩
    · exact ⟨h, rfl⟩
  · -- Among patterns.
    split
    · exact ⟨⟨rfl, rfl, h.afterFunction_eq, fun hc => by simp [expectsCommand] at hc⟩, rfl⟩
    · exact ⟨h, rfl⟩
  · next hsubject hpattern =>
      split
      · exact ⟨⟨rfl, rfl, h.afterFunction_eq, fun hc => by simp [expectsCommand] at hc⟩, rfl⟩
      · next hat =>
          have hin := inCommands_eq_true hsubject hpattern
          have hc : k.expectsCommand = true := by simpa [expectsCommand, hin] using hat
          exact h.command hc text defines

/-- A mark leads cursors that agree to cursors that agree. -/
theorem Ordinary.interpret_congr (hk : k.Ordinary) (hk' : k'.Ordinary) (h : k.Alike k')
    (hl : l.isOrdinary = true)
    (hlast : l = .openBrace → (k.last = some .closeParen ↔ k'.last = some .closeParen)) :
    (k.interpret l).inArray = false ∧ (k.interpret l).cases = (k'.interpret l).cases ∧
      (k.interpret l).atCommand = (k'.interpret l).atCommand := by
  have hcases := h.cases_eq
  have hat := h.atCommand_eq
  have harray := hk.inArray_eq
  have hcode : (k.markInCode l).inArray = false ∧
      (k.markInCode l).cases = (k'.markInCode l).cases ∧
      (k.markInCode l).atCommand = (k'.markInCode l).atCommand := by
    cases l with
    | dollar | redirection | quote | backquote => cases hl
    | word => exact ⟨harray, hcases, hat⟩
    | semicolon | bar | closeParen | closeBrace => exact ⟨harray, hcases, rfl⟩
    | armEnd =>
        simp only [markInCode, hcases]
        split <;> exact ⟨harray, rfl, rfl⟩
    | ampersand =>
        simp only [markInCode, hk.followsRedirection_eq, hk'.followsRedirection_eq]
        exact ⟨harray, hcases, rfl⟩
    | openParen =>
        simp only [markInCode, hk.followsEquals_eq, hk'.followsEquals_eq, hk.last_ne_dollar,
          hk'.last_ne_dollar, hk.followsRedirection_eq, hk'.followsRedirection_eq]
        exact ⟨harray, hcases, hat⟩
    | openBrace =>
        have hp := hlast rfl
        simp only [markInCode, hk.afterDollar_eq, hk'.afterDollar_eq, hp]
        split
        · exact ⟨harray, hcases, rfl⟩
        · exact ⟨harray, hcases, hat⟩
  unfold interpret
  rw [hk.inArray_eq, hk'.inArray_eq, hcases]
  simp only [Bool.false_eq_true, if_false]
  split
  · exact ⟨harray, hcases, hat⟩
  · split
    · exact ⟨rfl, rfl, rfl⟩
    · exact ⟨harray, hcases, hat⟩
  · exact hcode

/-! ## Steps and runs -/

theorem Ordinary.step (hk : k.Ordinary) (hl : l.isOrdinary = true) : (k.step l).1.Ordinary := by
  have hlast : ∀ l', (k.step l).1.last = some l' → l'.isOrdinary = true := by
    intro l' h
    rw [last_step] at h
    exact Option.some.inj h ▸ hl
  cases l with
  | word text defines =>
      have hframe : (k.step (.word text defines)).1.frame = (reading k text defines).frame :=
        frame_place _ text _ _ _
      simp only [frame, Prod.mk.injEq] at hframe
      exact ⟨hframe.1.trans hk.inArray_eq, hframe.2.1, hframe.2.2.1, hlast⟩
  | _ =>
      first
        | cases hl; done
        | have harray := (hk.interpret_congr hk (Alike.refl k) hl fun _ => Iff.rfl).1
          refine ⟨harray, ?_, rfl, hlast⟩
          show (k.afterDollar && _) = false
          rw [hk.afterDollar_eq, Bool.false_and]

theorem Alike.step (hk : k.Ordinary) (hk' : k'.Ordinary) (h : k.Alike k')
    (hl : l.isOrdinary = true)
    (hlast : l = .openBrace → (k.last = some .closeParen ↔ k'.last = some .closeParen)) :
    SameStep (k.step l) (k'.step l) := by
  cases l with
  | word text defines =>
      have hread : (reading k text defines).Alike (reading k' text defines) :=
        ⟨h.cases_eq, h.atCommand_eq, rfl, h.afterWrapper_eq⟩
      show SameStep (k.word text defines) (k'.word text defines)
      rw [word_eq, word_eq, hk.afterDollar_eq, hk'.afterDollar_eq, hk.afterRedirection_eq,
        hk'.afterRedirection_eq, h.afterFunction_eq]
      exact hread.place hk.inArray_eq hk'.inArray_eq text _
  | _ =>
      first
        | cases hl; done
        | obtain ⟨-, hcases, hat⟩ := hk.interpret_congr hk' h hl hlast
          refine ⟨⟨hcases, hat, ?_, fun _ => ?_⟩, rfl⟩
          · exact (interpret_afterFunction k _).trans
              (h.afterFunction_eq.trans (interpret_afterFunction k' _).symm)
          · show (k.afterWrapper && false) = (k'.afterWrapper && false)
            rw [Bool.and_false, Bool.and_false]

theorem Ordinary.run (hk : k.Ordinary) {ls : List Lexeme} (hls : ∀ l ∈ ls, l.isOrdinary = true) :
    (k.run ls).1.Ordinary := by
  induction ls generalizing k with
  | nil => exact hk
  | cons l ls ih =>
      exact ih (hk.step (hls l (by simp))) fun l' hl' => hls l' (List.mem_cons_of_mem l hl')

/-- Cursors that agree yield the same calls. -/
theorem Alike.run (hk : k.Ordinary) (hk' : k'.Ordinary) (h : k.Alike k') {ls : List Lexeme}
    (hls : ∀ l ∈ ls, l.isOrdinary = true)
    (hlast : ls.head? = some .openBrace →
      (k.last = some .closeParen ↔ k'.last = some .closeParen)) :
    (k.run ls).1.Alike (k'.run ls).1 ∧ (k.run ls).2 = (k'.run ls).2 := by
  induction ls generalizing k k' with
  | nil => exact ⟨h, rfl⟩
  | cons l ls ih =>
      have hl := hls l (by simp)
      obtain ⟨hstep, hcall⟩ := h.step hk hk' hl fun e => hlast (by rw [e]; rfl)
      -- From the next lexeme on, the lexemes before are the same.
      have hsame : (k.step l).1.last = (k'.step l).1.last := by rw [last_step, last_step]
      obtain ⟨hrest, hcalls⟩ := ih (hk.step hl) (hk'.step hl) hstep
        (fun l' hl' => hls l' (List.mem_cons_of_mem l hl')) fun _ => by rw [hsame]
      refine ⟨hrest, ?_⟩
      rw [run_cons, run_cons, hcall, hcalls]

/-- Cursors that agree yield the same calls in the rest of a text. -/
theorem Alike.resume_eq (hk : k.Ordinary) (hk' : k'.Ordinary) (h : k.Alike k')
    {before before' s : List Char} (hbefore : '\\' ∉ before) (hbefore' : '\\' ∉ before')
    (hs : ∀ c ∈ s, isScriptChar c = true)
    (hlast : (Lexeme.ofCode (firstLine s)).head? = some .openBrace →
      (k.last = some .closeParen ↔ k'.last = some .closeParen)) :
    k.resume before s = k'.resume before' s := by
  have hline : ∀ c ∈ firstLine s, isScriptChar c = true := fun c hc =>
    hs c (mem_of_mem_firstLine hc)
  have hordinary : ∀ l ∈ Lexeme.ofCode (firstLine s), l.isOrdinary = true :=
    Lexeme.isOrdinary_listFrom hline .between
  obtain ⟨hrun, hcalls⟩ := h.run hk hk' hordinary hlast
  have hcontinued : ∀ (k : Cursor) (before : List Char), '\\' ∉ before →
      (Tracker.endLine k (before.reverse ++ firstLine s)).continued = false := by
    refine fun k before hb => Tracker.continued_endLine k ?_
    rw [List.mem_append, List.mem_reverse, not_or]
    exact ⟨hb, fun hc => absurd (hline _ hc) (by decide)⟩
  have htracker : Tracker.endLine (k.run (Lexeme.ofCode (firstLine s))).1
        (before.reverse ++ firstLine s) =
      Tracker.endLine (k'.run (Lexeme.ofCode (firstLine s))).1
        (before'.reverse ++ firstLine s) := by
    have harray := (hk.run hordinary).inArray_eq
    have harray' := (hk'.run hordinary).inArray_eq
    have hend := hcontinued (k.run (Lexeme.ofCode (firstLine s))).1 before hbefore
    have hend' := hcontinued (k'.run (Lexeme.ofCode (firstLine s))).1 before' hbefore'
    simp only [Tracker.endLine] at hend hend' ⊢
    rw [hend, hend', hrun.cases_eq, hrun.atCommand_eq, harray, harray']
  simp only [resume]
  rw [htracker, hcalls]

end Cursor

end ShellIndex.Call
