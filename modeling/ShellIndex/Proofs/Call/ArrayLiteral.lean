import ShellIndex.Proofs.Call.Assignment
import ShellIndex.Proofs.Call.Escapes

set_option autoImplicit false

/-! # Array literals

A literal `name=(…)` or `name+=(…)` may be spread over any number of lines. Its elements are plain
words, quoted strings, variables and substitutions. The tracker keeps one flag for the whole literal
and clears it at the first closing parenthesis, which may be that of a substitution. From there on
it reads the elements as the words of commands: what a substitution calls is found, and a plain word
at the start of a line is listed too.

Two flags decide what an element lists: whether a substitution has been read, so that the literal is
taken for ended, and whether the element starts a line (`Element.tracks`, `tracks_elementsText`).
-/

namespace ShellIndex.Program

open Text Source Call

/-! ## Literals -/

/-- A blank between the elements of an array. -/
inductive Blank where
  | space
  | tab
  | lineFeed
deriving DecidableEq, Repr

def Blank.char : Blank → Char
  | .space => ' '
  | .tab => '\t'
  | .lineFeed => '\n'

mutual

inductive Element where
  | word (w : PlainWord)
  /-- `'…'` -/
  | single (s : SingleText)
  /-- `$'…'` -/
  | ansi (s : EscapedText .ansi)
  /-- `"…"` -/
  | double (q : DoubleText)
  /-- `$v` -/
  | plainReference (v : Variable)
  /-- `${v}` -/
  | bracedReference (v : Variable)
  | substitution (inside : Substitution)

/-- `$(name arg*)`. The arguments are what the elements of an array are. -/
inductive Substitution where
  | call (name : Name) (args : Elements)

inductive Elements where
  | none
  | more (e : Element) (rest : Elements)

/-- What stands between double quotes: text, and substitutions between pieces of it. -/
inductive DoubleText where
  | literal (s : EscapedText .double)
  | substitution (s : EscapedText .double) (inside : Substitution) (rest : DoubleText)

end

/-- An assignment of an array to a variable, with the words in front of it, as in
`local name=(…)`. -/
structure ArrayLiteral where
  front : List PlainWord
  target : Target
  /-- Whether the elements are appended. -/
  appends : Bool
  /-- The elements, each with the blanks before it. -/
  elements : List (List Blank × Element)
  apart : ∀ item ∈ elements.tail, item.1 ≠ []
  /-- The blanks before the closing parenthesis. -/
  closing : List Blank

def gapText (gap : List Blank) : List Char := gap.map Blank.char

mutual

def Element.print (write : List Char → List Char) : Element → List Char
  | .word w => w.text.toList
  | .single s => ['\''] ++ (write s.text ++ ['\''])
  | .ansi s => ['$', '\''] ++ (write s.text ++ ['\''])
  | .double q => ['"'] ++ (q.print write ++ ['"'])
  | .plainReference v => ['$'] ++ v.text.toList
  | .bracedReference v => "$\x7b".toList ++ (v.text.toList ++ "\x7d".toList)
  | .substitution inside => ['$', '('] ++ inside.print write

/-- A substitution behind its dollar sign and parenthesis. -/
def Substitution.print (write : List Char → List Char) : Substitution → List Char
  | .call name args => name.text.toList ++ (args.print write ++ [')'])

def Elements.print (write : List Char → List Char) : Elements → List Char
  | .none => []
  | .more e rest => [' '] ++ (e.print write ++ rest.print write)

def DoubleText.print (write : List Char → List Char) : DoubleText → List Char
  | .literal s => write s.text
  | .substitution s inside rest =>
      write s.text ++ (['$', '('] ++ (inside.print write ++ rest.print write))

end

def elementsText (write : List Char → List Char) (elements : List (List Blank × Element)) :
    List Char :=
  elements.flatMap fun item => gapText item.1 ++ item.2.print write

def frontText (front : List PlainWord) : List Char := front.flatMap fun w => w.text.toList ++ [' ']

namespace ArrayLiteral
variable (a : ArrayLiteral)

/-- The assignment of nothing to the variable. -/
def start : Assignment := ⟨a.target, a.appends, ⟨[], by simp⟩, []⟩

def print (write : List Char → List Char) : List Char :=
  frontText a.front ++ (a.start.start ++ (['('] ++ (elementsText write a.elements ++
    (gapText a.closing ++ [')']))))

end ArrayLiteral

/-! ## What is listed -/

mutual

/-- Whether a substitution stands in an element. -/
def Element.substitutes : Element → Bool
  | .double q => q.substitutes
  | .substitution _ => true
  | _ => false

def DoubleText.substitutes : DoubleText → Bool
  | .literal _ => false
  | .substitution _ _ _ => true

end

def Elements.substitutes : Elements → Bool
  | .none => false
  | .more e rest => e.substitutes || rest.substitutes

mutual

/-- What the substitutions in an element call, as far as it is found. -/
def Element.called (ended : Bool) : Element → List String
  | .double q => q.called ended
  | .substitution inside => inside.called ended
  | _ => []

def Substitution.called (ended : Bool) : Substitution → List String
  | .call name args => (if ended then [name.text] else []) ++ args.called ended

def Elements.called (ended : Bool) : Elements → List String
  | .none => []
  | .more e rest => e.called ended ++ rest.called (ended || e.substitutes)

def DoubleText.called (ended : Bool) : DoubleText → List String
  | .literal _ => []
  | .substitution _ inside rest => inside.called ended ++ rest.called true

end

theorem Element.substitutes_word (w : PlainWord) : (Element.word w).substitutes = false := rfl

theorem Element.called_word (ended : Bool) (w : PlainWord) : (Element.word w).called ended = [] :=
  rfl

/-- What is listed of an element, if a literal is taken for ended before it or not, and if it starts
a line or not. -/
def Element.listed (ended starts : Bool) : Element → List String
  | .word w => if ended && starts then [w.text] else []
  | e => e.called ended

def listedAmong (ended starts : Bool) : List (List Blank × Element) → List String
  | [] => []
  | item :: items =>
      item.2.listed ended (starts || item.1.contains .lineFeed) ++
        listedAmong (ended || item.2.substitutes) false items

/-- What is listed of the words in front of a literal, if a command is expected there or not. -/
def frontListed (expected : Bool) (front : List PlainWord) : List String :=
  if expected then (front.take 1).map fun w => w.text else []

def ArrayLiteral.listed (a : ArrayLiteral) (expected : Bool) : List String :=
  frontListed expected a.front ++ listedAmong false false a.elements

/-! ## In an array -/

section
variable {cases : List CasePart} {ended starts : Bool} {k : Cursor}

/-- The tracker reads the elements of an array. -/
structure InArray (cases : List CasePart) (k : Cursor) : Prop where
  cases_eq : k.cases = cases
  inArray_eq : k.inArray = true
  afterFunction_eq : k.afterFunction = false

theorem InArray.mark (h : InArray cases k) {mark : Lexeme} (hm : mark ≠ .closeParen) :
    InArray cases (k.mark mark) := by
  have hi : k.interpret mark = k := by
    rw [Cursor.interpret, h.inArray_eq, if_pos rfl, if_neg hm]
  have hmark : (k.mark mark).cases = k.cases ∧ (k.mark mark).inArray = k.inArray ∧
      (k.mark mark).afterFunction = k.afterFunction := by
    simp only [Cursor.mark, hi, and_self]
  obtain ⟨hcases, harray, hfunction⟩ := hmark
  exact ⟨hcases.trans h.cases_eq, harray.trans h.inArray_eq, hfunction.trans h.afterFunction_eq⟩

/-- The first closing parenthesis ends the array. -/
theorem InArray.close (h : InArray cases k) : Stands cases false (k.mark .closeParen) := by
  have hi : Within cases false (k.interpret .closeParen) := by
    rw [Cursor.interpret, h.inArray_eq, if_pos rfl, if_pos rfl]
    exact ⟨h.cases_eq, rfl, rfl⟩
  exact stands_mark hi (Bool.and_false _) h.afterFunction_eq (by simp) (by simp)

theorem tracks_inArrayMark {c : Char} (h : c ∈ ['\'', '"', '$', '(', '{', '}']) :
    Tracks Anything (InArray cases) [c] (InArray cases) [] := by
  simp only [List.mem_cons, List.not_mem_nil, or_false] at h
  rcases h with rfl | rfl | rfl | rfl | rfl | rfl
  case inr.inr.inl =>
    exact tracks_lone .dollar (by decide) (by decide) (fun _ => rfl) (by simp) fun k hk =>
      ⟨⟨hk.cases_eq, hk.inArray_eq, hk.afterFunction_eq⟩, rfl⟩
  all_goals
    exact tracks_lone _ (by decide) (by decide) (fun _ => rfl) (by simp) fun k hk =>
      ⟨hk.mark (by simp), rfl⟩

/-- In an array no word is a call. -/
theorem tracks_inArrayWord {text : String} (hword : IsWord text) :
    Tracks EndsRun (InArray cases) text.toList (InArray cases) [] := by
  refine tracks_word hword fun k defines hk => ?_
  have hread : InArray cases (reading k text defines) := ⟨hk.cases_eq, hk.inArray_eq, rfl⟩
  rw [word_eq, Cursor.place, if_pos (by simp [hread.inArray_eq])]
  exact ⟨hread, rfl⟩

theorem tracks_endArray : Tracks Anything (InArray cases) [')'] (Stands cases false) [] :=
  tracks_lone .closeParen (by decide) (by decide) (fun _ => rfl) (by simp) fun _ hk =>
    ⟨hk.close, rfl⟩

/-! ## Among the elements of a literal -/

/-- The tracker stands among the elements of a literal: in the array, or behind what it takes for
the end of the array, in command position or not. -/
def Reads (cases : List CasePart) : Bool → Bool → Cursor → Prop
  | true, starts, k => Stands cases starts k ∧ (starts = true → k.afterWrapper = false)
  | false, _, k => InArray cases k

theorem Reads.of_stands (h : Stands cases false k) : Reads cases true false k := ⟨h, by simp⟩

/-- What leads out of command position, wherever it stands in a literal. -/
theorem tracks_reads {tail : List Char → Prop} {view : List Char}
    (harray : Tracks tail (InArray cases) view (InArray cases) [])
    (hcode : ∀ b, Tracks tail (Awaits cases b) view (Stands cases false) []) :
    Tracks tail (Reads cases ended starts) view (Reads cases ended false) [] := by
  cases ended with
  | false => exact harray
  | true => exact (hcode starts).imp (fun _ hk => hk.1.awaits) fun _ hk => Reads.of_stands hk

theorem tracks_readsQuote (hc : inCommands cases = true) {c : Char} (h : c = '\'' ∨ c = '"') :
    Tracks Anything (Reads cases ended starts) [c] (Reads cases ended false) [] := by
  refine tracks_reads (tracks_inArrayMark ?_) fun b => tracks_closer hc ?_
  · rcases h with rfl | rfl <;> simp
  · rcases h with rfl | rfl <;> simp

theorem tracks_readsClose (hc : inCommands cases = true) :
    Tracks Anything (Reads cases ended starts) [')'] (Reads cases true false) [] := by
  have hclose : Tracks Anything (Reads cases ended starts) [')'] (Stands cases false) [] := by
    cases ended with
    | false => exact tracks_endArray
    | true =>
        exact (tracks_closer hc (by simp)).imp (fun _ hk => hk.1.awaits) fun _ hk => hk
  exact hclose.imp (fun _ hk => hk) fun _ hk => Reads.of_stands hk

theorem tracks_readsLineFeed :
    Tracks Anything (Reads cases ended starts) ['\n'] (Reads cases ended true) [] := by
  cases ended with
  | false => exact tracks_lineEnd fun _ hk => ⟨hk.cases_eq, hk.inArray_eq, rfl⟩
  | true =>
      exact tracks_lineEnd fun _ hk =>
        ⟨⟨⟨hk.1.cases_eq, rfl, hk.1.inArray_eq⟩, rfl, rfl, rfl, rfl, rfl⟩, fun _ => rfl⟩

/-- In command position or not. -/
def ReadsAnyhow (cases : List CasePart) (ended : Bool) (k : Cursor) : Prop :=
  ∃ starts, Reads cases ended starts k

/-- What is tracked from any position is tracked from all. -/
theorem Tracks.anyhow {tail : List Char → Prop} {view : List Char} {post : Cursor → Prop}
    {calls : List String} (h : ∀ starts, Tracks tail (Reads cases ended starts) view post calls) :
    Tracks tail (ReadsAnyhow cases ended) view post calls := by
  rintro k before rest after ⟨starts, hk⟩
  exact h starts k before rest after hk

theorem Tracks.loosely {tail : List Char → Prop} {pre : Cursor → Prop} {view : List Char}
    {calls : List String} (h : Tracks tail pre view (Reads cases ended starts) calls) :
    Tracks tail pre view (ReadsAnyhow cases ended) calls :=
  h.imp (fun _ hk => hk) fun _ hk => ⟨starts, hk⟩

/-- The blanks before an element. -/
theorem tracks_gapText (gap : List Blank) :
    Tracks Anything (Reads cases ended starts) (gapText gap)
      (Reads cases ended (starts || gap.contains .lineFeed)) [] := by
  induction gap generalizing starts with
  | nil =>
      rw [List.contains_nil, Bool.or_false]
      exact Tracks.nil
  | cons b gap ih =>
      have hrest : Tracks Anything (Reads cases ended (starts || b == .lineFeed)) (gapText gap)
          (Reads cases ended ((starts || b == .lineFeed) || gap.contains .lineFeed)) [] := ih
      have hfirst : Tracks Anything (Reads cases ended starts) [b.char]
          (Reads cases ended (starts || b == .lineFeed)) [] := by
        cases b with
        | space =>
            rw [show (starts || Blank.space == .lineFeed) = starts from Bool.or_false _]
            exact tracks_inlineBlank (by decide)
        | tab =>
            rw [show (starts || Blank.tab == .lineFeed) = starts from Bool.or_false _]
            exact tracks_inlineBlank (by decide)
        | lineFeed =>
            rw [show (starts || Blank.lineFeed == .lineFeed) = true from Bool.or_true _]
            exact tracks_readsLineFeed
      have hboth := hfirst.before hrest
      rw [Bool.or_assoc] at hboth
      rw [List.contains_cons, BEq.comm]
      exact hboth

/-- Text in quotes. -/
theorem tracks_readsBlankOut (s : List Char) :
    Tracks Anything (ReadsAnyhow cases ended) (blankOut s) (ReadsAnyhow cases ended) [] := by
  exact tracks_blankOut_of (Tracks.anyhow fun _ => tracks_readsLineFeed.loosely) s

/-- A quotation without substitutions, from its first quote on. -/
theorem tracks_readsQuoted (hc : inCommands cases = true) {c : Char} (h : c = '\'' ∨ c = '"')
    (s : List Char) :
    Tracks Anything (ReadsAnyhow cases ended) (blankOut s ++ [c]) (Reads cases ended false) [] :=
  (tracks_readsBlankOut s).before (Tracks.anyhow fun _ => tracks_readsQuote hc h)

theorem PlainWord.tracks_reads (w : PlainWord) (hc : inCommands cases = true) :
    Tracks EndsWord (Reads cases ended starts) w.text.toList (Reads cases ended false)
      (if ended && starts then [w.text] else []) := by
  cases ended with
  | false => exact (tracks_inArrayWord w.isToken.toIsWord).endsWord
  | true =>
      cases starts with
      | false =>
          exact (w.tracks_argument hc).endsWord.imp (fun _ hk => hk.1.awaits) fun _ hk =>
            Reads.of_stands hk
      | true =>
          refine tracks_wordDefining false w.isToken.toIsWord fun k hk => ?_
          have hread := hk.1.toWithin.reading w.isToken false
          have hwrapper : (reading k w.text false).afterWrapper = false := hk.2 rfl
          rw [hk.1.awaits.word_eq hc, w.command_eq, if_neg (by simp [hwrapper]), if_neg (by simp)]
          exact ⟨Reads.of_stands ((hread.with_afterWrapper false).with_atCommand false), rfl⟩

theorem tracks_readsPlainReference (v : Variable) (hc : inCommands cases = true) :
    Tracks EndsRun (Reads cases ended starts) (['$'] ++ v.text.toList) (Reads cases ended false)
      [] := by
  refine tracks_reads ?_ fun b => tracks_plainReference v hc
  exact (tracks_inArrayMark (by simp)).before (tracks_inArrayWord v.isToken.toIsWord)

theorem tracks_readsBracedReference (v : Variable) (hc : inCommands cases = true) :
    Tracks Anything (Reads cases ended starts) ("$\x7b".toList ++ (v.text.toList ++ "\x7d".toList))
      (Reads cases ended false) [] := by
  refine tracks_reads ?_ fun b => tracks_bracedReference v hc
  have hopen : Tracks Anything (InArray cases) (['$'] ++ ['{']) (InArray cases) [] :=
    (tracks_inArrayMark (by simp)).before (tracks_inArrayMark (by simp))
  have hclose : Tracks Anything (InArray cases) ['}'] (InArray cases) [] :=
    tracks_inArrayMark (by simp)
  have hname : Tracks EndsRun (InArray cases) v.text.toList (InArray cases) [] :=
    tracks_inArrayWord v.isToken.toIsWord
  refine hopen.before (hname.silent_append hclose fun rest _ => ?_)
  exact endsRun_cons (by decide) rest

theorem tracks_readsAnsi (hc : inCommands cases = true) :
    Tracks Anything (Reads cases ended starts) ['$', '\''] (Reads cases ended false) [] := by
  refine tracks_reads ?_ fun b => ?_
  · exact (tracks_inArrayMark (c := '$') (by simp)).before (tracks_inArrayMark (by simp))
  · refine tracks_dollar.before ?_
    refine tracks_lone .quote (by decide) (by decide) (fun _ => rfl) (by simp) fun k hk => ?_
    have hi : Within cases false (k.interpret .quote) := by
      rw [hk.interpret_eq hc]
      exact ⟨hk.cases_eq, rfl, hk.inArray_eq⟩
    exact ⟨stands_mark hi (Bool.and_false _) hk.afterFunction_eq (by simp) (by simp), rfl⟩

/-- The command of a substitution is found behind what is taken for the end of the array. -/
theorem Name.tracks_readsSubstitution (name : Name) (hc : inCommands cases = true) :
    Tracks EndsWord (Reads cases ended starts) (['$', '('] ++ name.text.toList)
      (Reads cases ended false) (if ended then [name.text] else []) := by
  cases ended with
  | false =>
      have hopen : Tracks Anything (InArray cases) (['$'] ++ ['(']) (InArray cases) [] :=
        (tracks_inArrayMark (by simp)).before (tracks_inArrayMark (by simp))
      exact (hopen.before (tracks_inArrayWord name.isToken.toIsWord)).endsWord
  | true =>
      have hcall := (tracks_openSubstitution (b := starts) hc).before
        ((name.tracks_call hc).imp (fun _ hk => hk.awaits) fun _ hk => Reads.of_stands hk)
      exact hcall.imp (fun _ hk => hk.1.awaits) fun _ hk => hk

/-! ## Elements -/

/-- An element starts with a character that is neither blank nor an opening parenthesis. -/
theorem Element.exists_cons (e : Element) :
    ∃ c s, e.print blankOut = c :: s ∧ isBlank c = false ∧ c ≠ '(' := by
  cases e with
  | word w =>
      have hne : w.text.toList ≠ [] := by simpa using w.ne_empty
      obtain ⟨c, s, hs⟩ := List.exists_cons_of_ne_nil hne
      have hplain : isPlain c = true := List.all_eq_true.mp w.plain c (by simp [hs])
      exact ⟨c, s, hs, isBlank_of_isPlain hplain, ne_of_isPlain hplain (by decide)⟩
  | single s => exact ⟨'\'', _, rfl, by decide, by decide⟩
  | ansi s => exact ⟨'$', _, rfl, by decide, by decide⟩
  | double q => exact ⟨'"', _, rfl, by decide, by decide⟩
  | plainReference v => exact ⟨'$', _, rfl, by decide, by decide⟩
  | bracedReference v => exact ⟨'$', _, rfl, by decide, by decide⟩
  | substitution inside => exact ⟨'$', _, rfl, by decide, by decide⟩

theorem Elements.endsWord (args : Elements) {rest : List Char} (h : EndsWord rest) :
    EndsWord (args.print blankOut ++ rest) := by
  cases args with
  | none => exact h
  | more e args =>
      obtain ⟨c, s, hs, hblank, hparen⟩ := e.exists_cons
      rw [Elements.print, hs]
      exact endsWord_blank hblank hparen _

/-- An argument starts no line. -/
theorem Element.listed_false (e : Element) : e.listed ended false = e.called ended := by
  cases e with
  | word w =>
      rw [Element.listed, Bool.and_false, if_neg (by decide)]
      rfl
  | _ => rfl

-- The induction follows the tree. Whether the literal is taken for ended is arbitrary, since it
-- changes behind every substitution.
mutual

/-- **An element of an array** lists what its position says, and behind a substitution the literal
is taken for ended. -/
theorem Element.tracks : (e : Element) → {ended starts : Bool} → inCommands cases = true →
    Tracks EndsWord (Reads cases ended starts) (e.print blankOut)
      (Reads cases (ended || e.substitutes) false) (e.listed ended starts)
  | .word w, ended, _, hc => by
      rw [show (ended || Element.substitutes (.word w)) = ended from Bool.or_false _]
      exact w.tracks_reads hc
  | .single s, ended, starts, hc => by
      rw [show (ended || Element.substitutes (.single s)) = ended from Bool.or_false _]
      have hopen : Tracks Anything (Reads cases ended starts) ['\''] (Reads cases ended false) [] :=
        tracks_readsQuote hc (by simp)
      exact (hopen.loosely.before (tracks_readsQuoted hc (by simp) s.text)).anywhere
  | .ansi s, ended, starts, hc => by
      rw [show (ended || Element.substitutes (.ansi s)) = ended from Bool.or_false _]
      have hopen : Tracks Anything (Reads cases ended starts) ['$', '\''] (Reads cases ended false)
          [] := tracks_readsAnsi hc
      exact (hopen.loosely.before (tracks_readsQuoted hc (by simp) s.text)).anywhere
  | .double q, ended, starts, hc => by
      have hopen : Tracks Anything (Reads cases ended starts) ['"'] (Reads cases ended false) [] :=
        tracks_readsQuote hc (by simp)
      exact (hopen.loosely.before (q.tracks hc)).anywhere
  | .plainReference v, ended, _, hc => by
      rw [show (ended || Element.substitutes (.plainReference v)) = ended from Bool.or_false _]
      exact (tracks_readsPlainReference v hc).endsWord
  | .bracedReference v, ended, _, hc => by
      rw [show (ended || Element.substitutes (.bracedReference v)) = ended from Bool.or_false _]
      exact (tracks_readsBracedReference v hc).anywhere
  | .substitution inside, ended, _, hc => by
      rw [show (ended || Element.substitutes (.substitution inside)) = true from Bool.or_true _]
      exact (inside.tracks hc).anywhere

theorem Substitution.tracks : (inside : Substitution) → {ended starts : Bool} →
    inCommands cases = true →
    Tracks Anything (Reads cases ended starts) (['$', '('] ++ inside.print blankOut)
      (Reads cases true false) (inside.called ended)
  | .call name args, ended, starts, hc => by
      have hargs : Tracks Anything (Reads cases ended false) (args.print blankOut ++ [')'])
          (Reads cases true false) (args.called ended) :=
        (args.tracks hc).append_silent (tracks_readsClose hc) fun rest _ => endsWord_closeParen rest
      have hname : Tracks EndsWord (Reads cases ended starts) (['$', '('] ++ name.text.toList)
          (Reads cases ended false) (if ended then [name.text] else []) :=
        name.tracks_readsSubstitution hc
      have hall := hname.append hargs fun rest _ => by
        rw [List.append_assoc]
        exact args.endsWord (endsWord_closeParen rest)
      rwa [List.append_assoc] at hall

theorem Elements.tracks : (args : Elements) → {ended : Bool} → inCommands cases = true →
    Tracks EndsWord (Reads cases ended false) (args.print blankOut)
      (Reads cases (ended || args.substitutes) false) (args.called ended)
  | .none, ended, _ => by
      rw [show (ended || Elements.substitutes .none) = ended from Bool.or_false _]
      exact Tracks.nil
  | .more e rest, ended, hc => by
      have he : Tracks EndsWord (Reads cases ended false) (e.print blankOut)
          (Reads cases (ended || e.substitutes) false) (e.listed ended false) := e.tracks hc
      rw [e.listed_false] at he
      have hall := he.append (rest.tracks hc) fun _ h => rest.endsWord h
      rw [Bool.or_assoc] at hall
      exact tracks_blank.before hall

theorem DoubleText.tracks : (q : DoubleText) → {ended : Bool} → inCommands cases = true →
    Tracks Anything (ReadsAnyhow cases ended) (q.print blankOut ++ ['"'])
      (Reads cases (ended || q.substitutes) false) (q.called ended)
  | .literal s, ended, hc => by
      rw [show (ended || DoubleText.substitutes (.literal s)) = ended from Bool.or_false _]
      exact tracks_readsQuoted hc (by simp) s.text
  | .substitution s inside rest, ended, hc => by
      rw [show (ended || DoubleText.substitutes (.substitution s inside rest)) = true from
        Bool.or_true _]
      have hinside : Tracks Anything (ReadsAnyhow cases ended) (['$', '('] ++ inside.print blankOut)
          (ReadsAnyhow cases true) (inside.called ended) :=
        Tracks.anyhow fun _ => (inside.tracks hc).loosely
      have hall := (tracks_readsBlankOut s.text).before (hinside.before (rest.tracks hc))
      simpa [DoubleText.print, DoubleText.called] using hall

end

/-! ## Literals -/

/-- A word ends at the blanks before the next element or parenthesis. -/
theorem endsWord_gapText {gap : List Blank} (hgap : gap ≠ []) {c : Char}
    (hblank : isBlank c = false) (hparen : c ≠ '(') (s : List Char) :
    EndsWord (gapText gap ++ c :: s) := by
  have hparens : Lexeme.startsWithParens (firstLine (gapText gap ++ c :: s)) = false := by
    clear hgap
    induction gap with
    | nil =>
        obtain ⟨hn, hr⟩ := ne_lineEnd_of_isBlank hblank
        have hline : firstLine (c :: s) = c :: firstLine s :=
          firstLine_cons hn fun e => absurd e hr
        rw [gapText, List.map_nil, List.nil_append, hline]
        exact startsWithParens_cons hblank hparen _
    | cons b gap ih =>
        rw [gapText, List.map_cons, List.cons_append]
        cases b with
        | space =>
            rw [Blank.char, firstLine_cons (by decide) (by simp)]
            exact ih
        | tab =>
            rw [Blank.char, firstLine_cons (by decide) (by simp)]
            exact ih
        | lineFeed =>
            rw [Blank.char, firstLine_lineFeed]
            rfl
  refine ⟨?_, hparens⟩
  obtain ⟨b, gap, rfl⟩ := List.exists_cons_of_ne_nil hgap
  cases b <;> exact endsRun_cons (by decide) _

theorem endsWord_elementsText {elements : List (List Blank × Element)}
    (h : ∀ item ∈ elements, item.1 ≠ []) {rest : List Char} (hrest : EndsWord rest) :
    EndsWord (elementsText blankOut elements ++ rest) := by
  cases elements with
  | nil => exact hrest
  | cons item items =>
      obtain ⟨c, s, hs, hblank, hparen⟩ := item.2.exists_cons
      rw [elementsText, List.flatMap_cons, hs, List.append_assoc, List.append_assoc]
      exact endsWord_gapText (h item (by simp)) hblank hparen _

/-- **The elements of a literal**, one after another. -/
theorem tracks_elementsText (hc : inCommands cases = true)
    {elements : List (List Blank × Element)} (h : ∀ item ∈ elements.tail, item.1 ≠ []) :
    Tracks EndsWord (Reads cases ended starts) (elementsText blankOut elements)
      (ReadsAnyhow cases (ended || elements.any fun item => item.2.substitutes))
      (listedAmong ended starts elements) := by
  induction elements generalizing ended starts with
  | nil =>
      rw [List.any_nil, Bool.or_false]
      exact Tracks.nil.loosely
  | cons item items ih =>
      rw [List.any_cons, ← Bool.or_assoc]
      have helement : Tracks EndsWord (Reads cases ended (starts || item.1.contains .lineFeed))
          (item.2.print blankOut) (Reads cases (ended || item.2.substitutes) false)
          (item.2.listed ended (starts || item.1.contains .lineFeed)) := item.2.tracks hc
      have hitem := (tracks_gapText item.1).before helement
      refine hitem.append (ih fun item' hmem => h item' (List.mem_of_mem_tail hmem)) ?_
      exact fun rest hrest => endsWord_elementsText h hrest

theorem tracks_closingArray (hc : inCommands cases = true) (closing : List Blank) :
    Tracks Anything (ReadsAnyhow cases ended) (gapText closing ++ [')']) (Reads cases true false)
      [] :=
  Tracks.anyhow fun _ => (tracks_gapText closing).before (tracks_readsClose hc)

/-- The parenthesis behind the equals sign starts the array. -/
theorem ArrayLiteral.tracks_start (a : ArrayLiteral) (hc : inCommands cases = true) :
    Tracks Anything (ReadsAnyhow cases true) (a.start.start ++ ['(']) (Reads cases false false)
      [] := by
  -- The tracker behind the first word, which ends in an equals sign.
  let assigns : Cursor → Prop := fun k =>
    (∃ b, Within cases b k) ∧ k.followsEquals = true ∧ k.afterFunction = false
  have hword : ∀ b, Tracks EndsRun (Awaits cases b) a.start.start assigns [] := by
    intro b
    refine tracks_value (by simp [Assignment.start]) a.start.isValueChar_start
      fun k defines hk => ?_
    have hread := hk.toWithin.awaits_reading (String.ofList a.start.start) defines
    refine ⟨_, a.start.word_start hc hk defines, ⟨b, (hread.with_atCommand b).toWithin⟩, ?_, rfl⟩
    simp [Cursor.followsEquals, reading, Assignment.start, ArrayLiteral.start]
  have hopen : Tracks Anything assigns ['('] (InArray cases) [] := by
    refine tracks_lone .openParen (by decide) (by decide) (fun _ => rfl) (by simp) ?_
    rintro k ⟨⟨b, hwithin⟩, hequals, hfunction⟩
    have hi : k.interpret .openParen = { k with inArray := true } := by
      rw [hwithin.interpret_eq hc, Cursor.markInCode, if_pos hequals]
    have hmark : (k.mark .openParen).cases = k.cases ∧ (k.mark .openParen).inArray = true ∧
        (k.mark .openParen).afterFunction = k.afterFunction := by
      simp only [Cursor.mark, hi, and_self]
    exact ⟨⟨hmark.1.trans hwithin.cases_eq, hmark.2.1, hmark.2.2.trans hfunction⟩, rfl⟩
  refine Tracks.anyhow fun b => ?_
  have hboth : Tracks Anything (Awaits cases b) (a.start.start ++ ['(']) (InArray cases) [] :=
    (hword b).silent_append hopen fun rest _ => endsRun_cons (by decide) rest
  exact hboth.imp (fun _ hk => hk.1.awaits) fun _ hk => hk

/-- What may follow a word and a blank. -/
def StartsWord (rest : List Char) : Prop := ∃ c s, rest = c :: s ∧ isBlank c = false ∧ c ≠ '('

theorem startsWord_of_isPlain {s : List Char} (hne : s ≠ []) (hs : ∀ c ∈ s, isPlain c = true)
    (rest : List Char) : StartsWord (s ++ rest) := by
  obtain ⟨c, s, rfl⟩ := List.exists_cons_of_ne_nil hne
  have hc := hs c (by simp)
  exact ⟨c, s ++ rest, rfl, isBlank_of_isPlain hc, ne_of_isPlain hc (by decide)⟩

theorem startsWord_frontText (front : List PlainWord) {rest : List Char} (h : StartsWord rest) :
    StartsWord (frontText front ++ rest) := by
  cases front with
  | nil => exact h
  | cons w front =>
      rw [frontText, List.flatMap_cons, List.append_assoc, List.append_assoc]
      exact startsWord_of_isPlain (by simpa using w.ne_empty) (List.all_eq_true.mp w.plain) _

/-- The first word in front of a literal is a call where a command is expected. -/
theorem tracks_frontText (hc : inCommands cases = true) (front : List PlainWord) :
    Tracks StartsWord (Reads cases true starts) (frontText front) (ReadsAnyhow cases true)
      (frontListed starts front) := by
  induction front generalizing starts with
  | nil =>
      rw [frontListed, List.take_nil, List.map_nil, ite_self]
      exact Tracks.nil.loosely
  | cons w front ih =>
      have hword : Tracks EndsWord (Reads cases true starts) w.text.toList (Reads cases true false)
          (if true && starts then [w.text] else []) := w.tracks_reads hc
      have hboth := hword.append (tracks_blank.before ih) fun rest hrest => by
        obtain ⟨c, s, hs, hblank, hparen⟩ := startsWord_frontText front hrest
        rw [List.append_assoc, hs]
        exact endsWord_blank hblank hparen s
      -- Behind the first word no command is expected any more.
      have hlisted : frontListed starts (w :: front) =
          (if true && starts then [w.text] else []) ++ ([] ++ frontListed false front) := by
        cases starts <;> rfl
      rw [hlisted, frontText, List.flatMap_cons, List.append_assoc]
      exact hboth

/-- **An array literal** is read as a whole, wherever the tracker takes it for ended. -/
theorem ArrayLiteral.tracks (a : ArrayLiteral) (hc : inCommands cases = true) :
    Tracks Anything (Reads cases true starts) (a.print blankOut) (Reads cases true false)
      (a.listed starts) := by
  have helements : Tracks Anything (Reads cases false false)
      (elementsText blankOut a.elements ++ (gapText a.closing ++ [')'])) (Reads cases true false)
      (listedAmong false false a.elements) := by
    refine (tracks_elementsText hc a.apart).append_silent (tracks_closingArray hc a.closing) ?_
    intro rest _
    rw [List.append_assoc]
    by_cases hgap : a.closing = []
    · rw [hgap]
      exact endsWord_closeParen rest
    · exact endsWord_gapText hgap (by decide) (by decide) rest
  have hliteral := (a.tracks_start hc).before helements
  rw [List.append_assoc] at hliteral
  refine (tracks_frontText hc a.front).append hliteral fun rest _ => ?_
  rw [Assignment.start, Assignment.left, List.append_assoc, List.append_assoc, List.append_assoc]
  refine startsWord_of_isPlain a.target.ne_nil (fun c hc => ?_) _
  exact isPlain_of_target (a.target.isAlphanum_or_eq hc)

end

/-! ## What literals show -/

section
variable {contexts outer : List Context} {last : Option Char}

/-- No sign stands before that would change the quote behind it. -/
def Apart (last : Option Char) : Prop := last ≠ some '$' ∧ last ≠ some '\\'

theorem apart_lastAfter_singleton {c : Char} (hdollar : c ≠ '$') (hbackslash : c ≠ '\\') :
    Apart (lastAfter last [c]) := by
  rw [lastAfter, List.foldl_cons, List.foldl_nil]
  split
  · exact ⟨by simp, by simp⟩
  · exact ⟨by simpa using hdollar, by simpa using hbackslash⟩

theorem apart_lastAfter_gapText {gap : List Blank} (h : gap = [] → Apart last) :
    Apart (lastAfter last (gapText gap)) := by
  induction gap generalizing last with
  | nil => exact h rfl
  | cons b gap ih =>
      have hblank : Apart (lastAfter last [b.char]) := by
        cases b <;> exact apart_lastAfter_singleton (by decide) (by decide)
      have hrest := ih fun _ => hblank
      exact hrest

-- The contexts are arbitrary, since a substitution between double quotes is one.
mutual

theorem Element.shows : (e : Element) → {contexts : List Context} → {last : Option Char} →
    readsCode contexts = true → Apart last →
    Shows contexts last (e.print id) (e.print blankOut) contexts
  | .word w, _, _, hcode, _ => w.shows hcode
  | .single s, _, _, hcode, hlast =>
      (Shows.openSingle hcode hlast.1).append
        (shows_blankOut rfl s.masks (by simp) fun _ => Shows.closeSingle)
  | .ansi s, _, _, hcode, hlast =>
      (Shows.openAnsi hcode hlast.2).append (s.shows (by simp) fun _ => Shows.closeAnsi)
  | .double q, _, _, hcode, _ => (Shows.openDouble hcode).append q.shows
  | .plainReference v, _, _, hcode, _ =>
      (shows_marks hcode (by decide)).append (v.shows hcode)
  | .bracedReference v, _, _, hcode, _ => by
      refine (shows_marks hcode (by decide)).append ?_
      exact (v.shows hcode).append (shows_marks hcode (by decide))
  | .substitution inside, contexts, last, hcode, _ => by
      have hopen : Shows contexts last ['$', '('] ['$', '('] (openParen contexts) :=
        (shows_marks (s := ['$']) hcode (by decide)).append (Shows.openParen hcode)
      have h := hopen.append (inside.shows (readsCode_openParen hcode))
      rwa [closeParen_openParen] at h

/-- A substitution leads back out of the context that its opening leads into. -/
theorem Substitution.shows : (inside : Substitution) → {contexts : List Context} →
    {last : Option Char} → readsCode contexts = true →
    Shows contexts last (inside.print id) (inside.print blankOut) (closeParen contexts)
  | .call name args, _, _, hcode =>
      (name.toPlainWord.shows hcode).append ((args.shows hcode).append (Shows.closeParen hcode))

theorem Elements.shows : (args : Elements) → {contexts : List Context} → {last : Option Char} →
    readsCode contexts = true →
    Shows contexts last (args.print id) (args.print blankOut) contexts
  | .none, _, _, _ => Shows.nil
  | .more e rest, _, _, hcode => by
      refine (shows_marks hcode (by decide)).append ?_
      exact (e.shows hcode (apart_lastAfter_singleton (by decide) (by decide))).append
        (rest.shows hcode)

theorem DoubleText.shows : (q : DoubleText) → {outer : List Context} → {last : Option Char} →
    Shows (.double :: outer) last (q.print id ++ ['"']) (q.print blankOut ++ ['"']) outer
  | .literal s, outer, last => by
      have hclose : ∀ last, Shows (.double :: outer) last ['"'] ['"'] outer := fun _ =>
        Shows.closeDouble
      exact s.shows (by simp) hclose
  | .substitution s inside rest, outer, last => by
      have hsub : ∀ last, Shows (.double :: outer) last
          (['$', '('] ++ (inside.print id ++ (rest.print id ++ ['"'])))
          (['$', '('] ++ (inside.print blankOut ++ (rest.print blankOut ++ ['"']))) outer := by
        intro last
        refine Shows.openSubstitution.append ?_
        exact (inside.shows rfl).append rest.shows
      have h : Shows (.double :: outer) last _ _ outer := s.shows (by simp) hsub
      simpa [DoubleText.print] using h

end

theorem shows_gapText (hcode : readsCode contexts = true) (gap : List Blank) :
    Shows contexts last (gapText gap) (gapText gap) contexts := by
  refine Shows.inert hcode fun c hc => ?_
  obtain ⟨b, -, rfl⟩ := List.mem_map.mp hc
  cases b <;> decide

theorem shows_elementsText {elements : List (List Blank × Element)}
    (hfirst : ∀ item ∈ elements.head?, item.1 = [] → Apart last)
    (h : ∀ item ∈ elements.tail, item.1 ≠ []) :
    Shows [] last (elementsText id elements) (elementsText blankOut elements) [] := by
  induction elements generalizing last with
  | nil => exact Shows.nil
  | cons item items ih =>
      have hitem : Shows [] last (gapText item.1 ++ item.2.print id)
          (gapText item.1 ++ item.2.print blankOut) [] :=
        (shows_gapText rfl item.1).append
          (item.2.shows rfl (apart_lastAfter_gapText (hfirst item rfl)))
      refine hitem.append (ih (fun item' hmem hgap => ?_) fun item' hmem => ?_)
      · exact absurd hgap (h item' (List.mem_of_head? hmem))
      · exact h item' (List.mem_of_mem_tail hmem)

theorem ArrayLiteral.shows (a : ArrayLiteral) :
    Shows [] last (a.print id) (a.print blankOut) [] := by
  have hfront : Shows [] last (frontText a.front) (frontText a.front) [] :=
    shows_flatMap (fun w _ => (w.shows rfl).append (shows_marks (s := [' ']) rfl (by decide))) _
  have hstart : ∀ last, Shows [] last a.start.start a.start.start [] := fun _ =>
    Shows.inert rfl fun c hc => isInert_of_isValueChar (a.start.isValueChar_start c hc)
  have helements : ∀ last, Shows [] (lastAfter last ['(']) (elementsText id a.elements)
      (elementsText blankOut a.elements) [] := fun _ =>
    shows_elementsText (fun _ _ _ => apart_lastAfter_singleton (by decide) (by decide)) a.apart
  refine hfront.append ((hstart _).append ((Shows.openParen rfl).append ?_))
  exact (helements _).append ((shows_gapText rfl a.closing).append (Shows.closeParen rfl))

end

end ShellIndex.Program
