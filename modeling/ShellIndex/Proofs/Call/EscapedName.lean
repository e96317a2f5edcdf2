import ShellIndex.Proofs.Call.Continuation
import ShellIndex.Proofs.Call.Substitution
import ShellIndex.Proofs.Catalog.NextLine
import ShellIndex.Proofs.Source.EscapedLetter

set_option autoImplicit false

/-! # An escaped name in command position

To the tracker a backslash that is visible belongs to the word behind it. Where a command is expected,
the escaped word is a call as the plain one is, but of another name, and nothing else of the calls
changes (`Names.callsOf_escape`): of the word before, a step looks at the last character only, and of
the code of a line, its end only.
-/

namespace ShellIndex.Call

open Text Source Program

/-! ## The lexemes of a word within a line -/

namespace Lexeme

/-- What starts with a character that belongs to no mark is read anew behind a text that ends in no
word. -/
theorem listFrom_append_of_getLast? {b : Char} (hmarks : b ∉ [';', '&', '(']) {s t : List Char}
    (hparens : ∀ u, u <:+ s → startsWithParens (u ++ b :: t) = startsWithParens u)
    (hlast : ∀ c, s.getLast? = some c → isWordChar c = false) {place : Place}
    (hplace : s = [] → place = .between) :
    listFrom place (s ++ b :: t) = listFrom place s ++ ofCode (b :: t) := by
  induction s generalizing place with
  | nil =>
      rw [hplace rfl]
      rfl
  | cons c s ih =>
      have hlast' : ∀ d, s.getLast? = some d → isWordChar d = false := by
        intro d hd
        refine hlast d ?_
        rw [List.getLast?_cons, hd]
        rfl
      have hrest : ∀ {place : Place}, (s = [] → place = .between) →
          listFrom place (s ++ b :: t) = listFrom place s ++ ofCode (b :: t) :=
        ih (fun u hu => hparens u (hu.trans (List.suffix_cons c s))) hlast'
      have hbetween : listFrom .between (s ++ b :: t) = listFrom .between s ++ ofCode (b :: t) :=
        hrest fun _ => rfl
      have hmark : punctuation? c (s ++ b :: t) = punctuation? c s := by
        refine punctuation?_congr c fun d hd => ?_
        cases s with
        | nil =>
            have hbd : b ≠ d := by
              rintro rfl
              exact hmarks hd
            simp [hbd]
        | cons e s => simp
      -- A mark of two characters, and a word, have a further character in the text.
      have harm : punctuation? c s = some armEnd → s ≠ [] := by
        rintro harm rfl
        unfold punctuation? at harm
        split at harm <;> simp at harm
      have hword : isWordBreak c = false → punctuation? c s = none → s ≠ [] := by
        rintro hbreak hnone rfl
        have hc := hlast c rfl
        simp [isWordChar, hbreak, hnone] at hc
      have hwordRest : isWordBreak c = false → punctuation? c s = none →
          listFrom .inWord (s ++ b :: t) = listFrom .inWord s ++ ofCode (b :: t) ∧
            (s ++ b :: t).takeWhile isWordChar = s.takeWhile isWordChar ∧
            startsWithParens ((s ++ b :: t).dropWhile isWordChar) =
              startsWithParens (s.dropWhile isWordChar) := by
        intro hbreak hnone
        have hne := hword hbreak hnone
        obtain ⟨htake, hdrop⟩ := takeWhile_append_of_getLast? hne hlast' (b :: t)
        refine ⟨hrest fun hnil => absurd hnil hne, htake, ?_⟩
        rw [hdrop]
        exact hparens _ ((List.dropWhile_suffix _).trans (List.suffix_cons c s))
      rw [List.cons_append, listFrom, listFrom, hmark, hbetween]
      split
      · rfl
      split
      · rfl
      · next hbreak =>
          have hbreak : isWordBreak c = false := by simpa using hbreak
          split
          · next hc => rw [hrest fun hnil => absurd hnil (harm hc), List.cons_append]
          · rfl
          · next hnone =>
              obtain ⟨hinWord, htake, hdrop⟩ := hwordRest hbreak hnone
              rw [hinWord, htake, hdrop]
              split <;> rfl

/-- The lexemes of a line with a word in it. -/
theorem ofCode_word_within {s w t : List Char} {b : Char} (hb : isBlank b = false)
    (hw : ∀ c ∈ b :: w, isWordChar c = true) (hs : ∀ c, s.getLast? = some c → isWordChar c = false)
    (hend : EndsRun t) : ofCode (s ++ (b :: w ++ t)) =
      ofCode s ++ .word (String.ofList (b :: w)) (startsWithParens t) :: ofCode t := by
  have hmark : ∀ {d}, isWordChar d = false → b ≠ d := by
    rintro d hd rfl
    rw [hw b List.mem_cons_self] at hd
    cases hd
  have hmarks : b ∉ [';', '&', '('] := by
    simp only [List.mem_cons, List.not_mem_nil, or_false, not_or]
    exact ⟨hmark (by decide), hmark (by decide), hmark (by decide)⟩
  have hparens : ∀ u, u <:+ s → startsWithParens (u ++ b :: (w ++ t)) = startsWithParens u :=
    fun u _ => startsWithParens_append_mark hb (hmark (by decide)) (hmark (by decide)) u (w ++ t)
  have hcut : ofCode (s ++ b :: (w ++ t)) = ofCode s ++ ofCode (b :: (w ++ t)) :=
    listFrom_append_of_getLast? hmarks hparens hs fun _ => rfl
  have hword : ofCode (b :: (w ++ t)) = _ := ofCode_word (List.cons_ne_nil b w) hw hend
  rw [List.cons_append, hcut, hword]

end Lexeme

/-! ## A name with and without a backslash -/

namespace Cursor
variable {k : Cursor} {text text' : String} {ls : List Lexeme}

/-- Whether the next word is read as the name of a command, and not as anything else. -/
structure Expects (k : Cursor) : Prop where
  expectsCommand_eq : k.expectsCommand = true
  inArray_eq : k.inArray = false
  afterDollar_eq : k.afterDollar = false
  afterFunction_eq : k.afterFunction = false
  afterRedirection_eq : k.afterRedirection = false

instance (k : Cursor) : Decidable k.Expects :=
  decidable_of_iff (k.expectsCommand = true ∧ k.inArray = false ∧ k.afterDollar = false ∧
      k.afterFunction = false ∧ k.afterRedirection = false)
    ⟨fun ⟨hcommand, harray, hdollar, hfunction, htarget⟩ =>
      ⟨hcommand, harray, hdollar, hfunction, htarget⟩,
    fun h => ⟨h.expectsCommand_eq, h.inArray_eq, h.afterDollar_eq, h.afterFunction_eq,
      h.afterRedirection_eq⟩⟩

theorem Expects.step_eq (h : k.Expects) (hname : isCommandName text = true)
    (hoption : isOption text = false) :
    k.step (.word text false) = (called k text, some text) := by
  obtain ⟨hat, hin⟩ := Bool.and_eq_true_iff.mp h.expectsCommand_eq
  have hawaits : Awaits k.cases true k :=
    ⟨⟨rfl, hat, h.inArray_eq⟩, h.afterDollar_eq, h.afterFunction_eq, h.afterRedirection_eq⟩
  show k.word text false = _
  rw [hawaits.word_eq hin, command_of_isCommandName hname (by rw [hoption, Bool.and_false])]
  rfl

/-- Of the word before, a mark looks at the last character only. -/
theorem interpret_of_last (htext : text.toList.getLast? = text'.toList.getLast?) (k : Cursor)
    (defines : Bool) (l : Lexeme) :
    ({ k with last := some (.word text defines) } : Cursor).interpret l =
      { ({ k with last := some (.word text' defines) } : Cursor).interpret l with
        last := some (.word text defines) } := by
  obtain ⟨cases, atCommand, inArray, afterDollar, afterFunction, afterWrapper, afterRedirection,
    inBackquote, last⟩ := k
  unfold interpret markInCode followsEquals followsRedirection
  simp only [htext, reduceCtorEq, Option.some.injEq]
  cases inArray <;> rcases cases with _ | ⟨_ | _ | _, outer⟩ <;> cases l <;>
    simp <;> split <;> rfl

theorem step_of_last (htext : text.toList.getLast? = text'.toList.getLast?) (k : Cursor)
    (defines : Bool) (l : Lexeme) :
    ({ k with last := some (.word text defines) } : Cursor).step l =
      ({ k with last := some (.word text' defines) } : Cursor).step l := by
  have hmark : ({ k with last := some (.word text defines) } : Cursor).mark l =
      ({ k with last := some (.word text' defines) } : Cursor).mark l := by
    unfold mark
    rw [interpret_of_last htext]
  cases l with
  | word text defines => rfl
  | dollar => rfl
  | _ => exact congrArg (·, none) hmark

theorem run_of_last (htext : text.toList.getLast? = text'.toList.getLast?) (k : Cursor)
    (defines : Bool) (ls : List Lexeme) :
    (({ k with last := some (.word text defines) } : Cursor).run ls).2 =
        (({ k with last := some (.word text' defines) } : Cursor).run ls).2 ∧
      ∀ code, Tracker.endLine (({ k with last := some (.word text defines) } : Cursor).run ls).1 code =
        Tracker.endLine (({ k with last := some (.word text' defines) } : Cursor).run ls).1 code := by
  cases ls with
  | nil => exact ⟨rfl, fun _ => rfl⟩
  | cons l ls =>
      rw [run_cons, run_cons, step_of_last htext]
      exact ⟨rfl, fun _ => rfl⟩

theorem isOption_escaped (name : List Char) : isOption (String.ofList ('\\' :: name)) = false := by
  rw [isOption, String.toList_ofList]
  rfl

/-- No assignment starts with a backslash. -/
theorem isAssignment_escaped (name : List Char) :
    isAssignment (String.ofList ('\\' :: name)) = false := by
  have hleft : ('\\' :: name).takeWhile (· != '=') = '\\' :: name.takeWhile (· != '=') :=
    List.takeWhile_cons_of_pos (by decide)
  -- The sign of `+=` is not the only character on the left.
  have htarget : ∀ l : List Char, ∃ l',
      (if ('\\' :: l).getLast? = some '+' then ('\\' :: l).dropLast else '\\' :: l) = '\\' :: l' := by
    intro l
    cases l with
    | nil => exact ⟨[], rfl⟩
    | cons c l =>
        split
        · exact ⟨(c :: l).dropLast, rfl⟩
        · exact ⟨c :: l, rfl⟩
  obtain ⟨l, hl⟩ := htarget (name.takeWhile (· != '='))
  have hname : ('\\' :: l).takeWhile (· != '[') = '\\' :: l.takeWhile (· != '[') :=
    List.takeWhile_cons_of_pos (by decide)
  have hplain : ('\\'.isAlphanum || '\\' == '_') = false := by decide
  simp only [isAssignment, String.toList_ofList, hleft, hl, hname, List.all_cons, hplain,
    Bool.false_and, Bool.and_false]

/-- An escaped word has no meaning of its own. -/
theorem isCommandName_escaped (name : List Char) :
    isCommandName (String.ofList ('\\' :: name)) = true := by
  have hknown : ∀ t ∈ ["case", "esac", "function"] ++ keywords ++ wrappers,
      t.toList.head? ≠ some '\\' := by decide
  have hnew : String.ofList ('\\' :: name) ∉ ["case", "esac", "function"] ++ keywords ++ wrappers := by
    intro hmem
    refine hknown _ hmem ?_
    rw [String.toList_ofList]
    rfl
  rw [isCommandName, isAssignment_escaped, Bool.not_false, Bool.and_true, Bool.not_eq_true',
    Bool.eq_false_iff, ne_eq, List.contains_iff_mem]
  exact hnew

/-- A name in command position is a call, and the rest of the line is read behind it. -/
theorem Expects.run_name (h : k.Expects) (hname : isCommandName text = true)
    (hoption : isOption text = false) (ls : List Lexeme) :
    k.run (.word text false :: ls) =
      (((called k text).run ls).1, text :: ((called k text).run ls).2) := by
  rw [run_cons, h.step_eq hname hoption]
  rfl

end Cursor

/-- A line ends alike behind a character that is no blank, whatever stands before it. -/
theorem Tracker.endLine_append {c : Char} (hc : isBlank c = false) (k : Cursor)
    (s s' view : List Char) : endLine k (s ++ c :: view) = endLine k (s' ++ c :: view) := by
  have hne : trimEnd (c :: view) ≠ [] := by
    intro hnil
    rw [trimEnd, List.reverse_eq_nil_iff] at hnil
    have hblank := List.all_eq_true.mp (trimStart_eq_nil_iff.mp hnil) c (by simp)
    rw [hc] at hblank
    cases hblank
  obtain ⟨d, hd⟩ : ∃ d, (trimEnd (c :: view)).getLast? = some d :=
    ⟨_, List.getLast?_eq_some_getLast hne⟩
  rw [endLine, endLine, getLast?_trimEnd_append_left hd, getLast?_trimEnd_append_left hd]

section
variable {t : Tracker} {s name view : List Char} {c : Char}

/-- The line that a word is read in, where a command is expected. -/
theorem readLine_name (hk : (t.startLine.run (Lexeme.ofCode s)).1.Expects)
    (hc : isBlank c = false) (hplain : ∀ d ∈ c :: name, Lexeme.isWordChar d = true)
    (hapart : ∀ d, s.getLast? = some d → Lexeme.isWordChar d = false) (hends : EndsRun view)
    (hparens : Lexeme.startsWithParens view = false)
    (hname : Cursor.isCommandName (String.ofList (c :: name)) = true)
    (hoption : isOption (String.ofList (c :: name)) = false) :
    t.readLine (s ++ (c :: name ++ view)) =
      (Tracker.endLine ((called (t.startLine.run (Lexeme.ofCode s)).1
            (String.ofList (c :: name))).run (Lexeme.ofCode view)).1 (s ++ (c :: name ++ view)),
        (t.startLine.run (Lexeme.ofCode s)).2 ++ String.ofList (c :: name) ::
          ((called (t.startLine.run (Lexeme.ofCode s)).1
            (String.ofList (c :: name))).run (Lexeme.ofCode view)).2) := by
  have hlexemes := Lexeme.ofCode_word_within hc hplain hapart hends
  rw [hparens] at hlexemes
  rw [Tracker.readLine, hlexemes, Cursor.run_append, hk.run_name hname hoption]

/-- **An escaped name is a call of the escaped word**, and the line is read as with the plain name. -/
theorem readLine_escaped (hk : (t.startLine.run (Lexeme.ofCode s)).1.Expects)
    (hc : isNameLetter c = true) (hplain : ∀ d ∈ c :: name, Lexeme.isWordChar d = true)
    (hapart : ∀ d, s.getLast? = some d → Lexeme.isWordChar d = false) (hends : EndsRun view)
    (hparens : Lexeme.startsWithParens view = false)
    (hname : Cursor.isCommandName (String.ofList (c :: name)) = true) :
    ∃ (t' : Tracker) (before after : List String),
      t.readLine (s ++ (c :: name ++ view)) = (t', before ++ String.ofList (c :: name) :: after) ∧
      t.readLine (s ++ ('\\' :: c :: name ++ view)) =
        (t', before ++ String.ofList ('\\' :: c :: name) :: after) := by
  have hblank := isBlank_of_isNameLetter hc
  have hoption : isOption (String.ofList (c :: name)) = false := by
    have hdash : c ≠ '-' := by
      rintro rfl
      exact absurd hc (by decide +kernel)
    rw [isOption, String.toList_ofList, List.head?_cons]
    simpa using hdash
  have hplain' : ∀ d ∈ '\\' :: c :: name, Lexeme.isWordChar d = true :=
    List.forall_mem_cons.mpr ⟨by decide, hplain⟩
  have hread := readLine_name hk hblank hplain hapart hends hparens hname hoption
  have hread' := readLine_name hk (c := '\\') (by decide) hplain' hapart hends hparens
    (Cursor.isCommandName_escaped (c :: name)) (Cursor.isOption_escaped (c :: name))
  generalize (t.startLine.run (Lexeme.ofCode s)).1 = k at hread hread'
  have hlast : (String.ofList (c :: name)).toList.getLast? =
      (String.ofList ('\\' :: c :: name)).toList.getLast? := by
    simp [List.getLast?_cons]
  obtain ⟨hcalls, hend⟩ := Cursor.run_of_last hlast (called k "") false (Lexeme.ofCode view)
  refine ⟨_, _, _, hread, hread'.trans ?_⟩
  have hcontinued : ∀ k, Tracker.endLine k (s ++ ('\\' :: c :: name ++ view)) =
      Tracker.endLine k (s ++ (c :: name ++ view)) := by
    intro k
    have hsplit : s ++ ('\\' :: c :: name ++ view) = (s ++ ['\\']) ++ c :: (name ++ view) := by simp
    rw [hsplit]
    exact Tracker.endLine_append hblank k _ _ _
  rw [hcontinued]
  exact Prod.ext (hend _).symm (congrArg (fun calls => _ ++ _ :: calls) hcalls.symm)

end

/-! ## Scripts -/

/-- The tracker at a place, when the reader there is `r`. -/
def cursorAt (p : Place) (r : Reader) : Cursor :=
  ((trackerBehind p.above).startLine.run (Lexeme.ofCode r.code.reverse)).1

/-- The line shows the word `name` at a place where the name of a command is expected. It starts with
a letter, a digit or an underscore and has no meaning of its own. -/
structure Names (p : Place) (r : Reader) (name : List Char) : Prop where
  coding : r.Coding
  expects : (cursorAt p r).Expects
  apart : ∀ c, r.code.head? = some c → Lexeme.isWordChar c = false
  letter : ∃ c, name.head? = some c ∧ isNameLetter c = true
  plain : ∀ c ∈ name, Lexeme.isWordChar c = true
  named : Cursor.isCommandName (String.ofList name) = true
  shown : ∃ view, (r.run p.onward).1.code.reverse = r.code.reverse ++ (name ++ view) ∧
    EndsRun view ∧ Lexeme.startsWithParens view = false

/-- A name that is written at a place in code is shown there, whatever follows it. -/
theorem exists_view_name {p : Place} {r : Reader} {name behind : List Char} (hr : r.Coding)
    (honward : p.onward = name ++ behind) (hname : ∀ c ∈ name, isInert c = true)
    (hends : EndsRun behind) (hparens : (trimStart behind).head? ≠ some '(') :
    ∃ view, (r.run p.onward).1.code.reverse = r.code.reverse ++ (name ++ view) ∧
      EndsRun view ∧ Lexeme.startsWithParens view = false := by
  obtain ⟨r', hr', hcode, hrun⟩ := hr.run_inert hname behind
  obtain ⟨view, hview, hhead, htrim⟩ := hr'.exists_view behind
  refine ⟨view, ?_, fun c hc => ?_, ?_⟩
  · rw [honward, hrun, hview, hcode]
    simp
  · rcases hhead c hc with hbehind | rfl
    · exact hends c hbehind
    · decide
  · refine Bool.eq_false_iff.mpr fun hstart => hparens (htrim '(' ?_)
    obtain ⟨inner, hinner, -⟩ := Lexeme.startsWithParens_iff.mp hstart
    rw [hinner]
    rfl

/-- **A backslash before the name of a command changes that name among the calls**, and nothing
else. -/
theorem Names.callsOf_escape {p : Place} {text text' : String} {r : Reader} {name : List Char}
    (hp : Names p r name) (h : p.At text r)
    (h' : lines text'.toList = p.above ++ (p.insert ['\\']).line :: p.below) :
    ∃ before after, callsOf text = before ++ String.ofList name :: after ∧
      callsOf text' = before ++ String.ofList ('\\' :: name) :: after := by
  obtain ⟨c, hhead, hc⟩ := hp.letter
  obtain ⟨name, rfl⟩ := List.head?_eq_some_iff.mp hhead
  obtain ⟨view, hview, hends, hparens⟩ := hp.shown
  obtain ⟨comment, below, hscan, hscan'⟩ := h.scan_escape hp.coding hc h' hview
  have hapart : ∀ d, r.code.reverse.getLast? = some d → Lexeme.isWordChar d = false := by
    rw [List.getLast?_reverse]
    exact hp.apart
  obtain ⟨t, before, after, hline, hline'⟩ :=
    readLine_escaped hp.expects hc hp.plain hapart hends hparens hp.named
  -- The lines above are read alike, and so are those below.
  have hcalls : ∀ {text : String} {l : Line} {found : List String},
      scan text = Open.nothing.scan 1 p.above ++ l :: below →
      (trackerBehind p.above).readLine l.code = (t, found) →
      callsOf text = Tracker.start.calls ((Open.nothing.scan 1 p.above).map Line.code) ++
        (found ++ t.calls (below.map Line.code)) := by
    intro text l found hscan hread
    rw [callsOf, hscan, List.map_append, Tracker.calls_append, List.map_cons, Tracker.calls]
    show _ ++ (((trackerBehind p.above).readLine l.code).2 ++
      ((trackerBehind p.above).readLine l.code).1.calls _) = _
    rw [hread]
  refine ⟨Tracker.start.calls ((Open.nothing.scan 1 p.above).map Line.code) ++ before,
    after ++ t.calls (below.map Line.code), ?_, ?_⟩
  · rw [hcalls hscan hline]
    simp
  · rw [hcalls hscan' hline']
    simp

end ShellIndex.Call
