import ShellIndex.Proofs.Call.ProgramCalls
import ShellIndex.Proofs.Source.Quoting

set_option autoImplicit false

/-! # Assignments in front of a command

A command may stand behind assignments `name=value` or `name+=value`. A value is plain text and,
between pieces of it, quotations, variables and substitutions. The tracker stays in command
position behind a value that is plain text. Any quotation, variable or substitution in a value
leads out of it, and the name of the command is then read as an argument
(`callsOf_assigned`).
-/

namespace ShellIndex.Program

open Text Source Call

/-! ## Assignments -/

/-- A character that stands for itself in the value of an assignment. -/
def isValueChar (c : Char) : Bool := Lexeme.isWordChar c && isInert c

/-- Plain text of a value. It may be empty. -/
structure PlainText where
  text : List Char
  plain : ∀ c ∈ text, isValueChar c = true

/-- The name of a variable that a value is assigned to. -/
structure Target where
  text : List Char
  ne_nil : text ≠ []
  not_digit : text.head?.any Char.isDigit = false
  plain : (text.all fun c => c.isAlphanum || c == '_') = true

/-- Text between single quotes. It may hold line feeds. -/
structure SingleText where
  text : List Char
  no_quote : '\'' ∉ text

/-- What is quoted or expanded in a value. -/
inductive Part where
  /-- `'…'` -/
  | single (s : SingleText)
  /-- `"…"` -/
  | double (q : Quoted)
  /-- `$v` -/
  | plainReference (v : Variable)
  /-- `${v}` -/
  | bracedReference (v : Variable)
  /-- `$(inside)` -/
  | substitution (inside : Sequence)

/-- An assignment of a value to a variable. -/
structure Assignment where
  target : Target
  /-- Whether the value is appended. -/
  appends : Bool
  /-- The value up to its first quotation or expansion. -/
  head : PlainText
  /-- Its quotations and expansions, each with the plain text behind it. -/
  parts : List (Part × PlainText)

def Part.print (write : List Char → List Char) : Part → List Char
  | .single s => ['\''] ++ (write s.text ++ ['\''])
  | .double q => ['"'] ++ (q.print write ++ ['"'])
  | .plainReference v => ['$'] ++ v.text.toList
  | .bracedReference v => "$\x7b".toList ++ (v.text.toList ++ "\x7d".toList)
  | .substitution inside => "$(".toList ++ (inside.print write ++ ")".toList)

/-- What stands before the equals sign of an assignment. -/
def Assignment.left (a : Assignment) : List Char :=
  a.target.text ++ if a.appends then ['+'] else []

/-- The first word of an assignment. -/
def Assignment.start (a : Assignment) : List Char := a.left ++ '=' :: a.head.text

def printParts (write : List Char → List Char) (parts : List (Part × PlainText)) : List Char :=
  parts.flatMap fun part => part.1.print write ++ part.2.text

def Assignment.print (write : List Char → List Char) (a : Assignment) : List Char :=
  a.start ++ printParts write a.parts

/-- Some assignments, each with a blank behind it. -/
def printAssignments (write : List Char → List Char) (assignments : List Assignment) : List Char :=
  assignments.flatMap fun a => a.print write ++ [' ']

/-- A call behind some assignments. -/
def assigned (assignments : List Assignment) (name : Name) (args : Arguments) : List Char :=
  printAssignments id assignments ++ (name.text.toList ++ args.print id)

def Part.listed : Part → List String
  | .single _ => []
  | .double q => q.listed
  | .plainReference _ => []
  | .bracedReference _ => []
  | .substitution inside => inside.listed

/-- What is called in the value of an assignment. -/
def Assignment.listed (a : Assignment) : List String := a.parts.flatMap fun part => part.1.listed

def Part.Allowed : Part → Prop
  | .single _ => True
  | .double q => q.Allowed
  | .plainReference _ => True
  | .bracedReference _ => True
  | .substitution inside => inside.Allowed false

def Assignment.Allowed (a : Assignment) : Prop := ∀ part ∈ a.parts, part.1.Allowed

/-- Whether a value is plain text. -/
def Assignment.isPlain (a : Assignment) : Bool := a.parts.isEmpty

/-! ## The first word of an assignment -/

theorem isWordChar_of_isValueChar {c : Char} (h : isValueChar c = true) :
    Lexeme.isWordChar c = true :=
  (Bool.and_eq_true_iff.mp h).1

theorem isInert_of_isValueChar {c : Char} (h : isValueChar c = true) : isInert c = true :=
  (Bool.and_eq_true_iff.mp h).2

theorem ne_backslash_of_isValueChar {c : Char} (h : isValueChar c = true) : c ≠ '\\' := by
  rintro rfl
  exact absurd (isInert_of_isValueChar h) (by decide)

theorem isPlain_of_target {c : Char} (h : c.isAlphanum = true ∨ c = '_') : isPlain c = true := by
  rcases h with h | rfl
  · simp [isPlain, isAlphanumeric_of_isAlphanum h]
  · decide +kernel

theorem isValueChar_of_isPlain {c : Char} (h : isPlain c = true) : isValueChar c = true := by
  rw [isValueChar, isWordChar_of_isPlain h, isInert_of_isPlain h]
  rfl

theorem Target.isAlphanum_or_eq (t : Target) {c : Char} (hc : c ∈ t.text) :
    c.isAlphanum = true ∨ c = '_' := by
  simpa using List.all_eq_true.mp t.plain c hc

theorem Target.ne_of_mem {t : Target} {c d : Char} (hc : c ∈ t.text) (hd : d.isAlphanum = false)
    (hd' : d ≠ '_') : c ≠ d := by
  rintro rfl
  rcases t.isAlphanum_or_eq hc with h | h
  · rw [hd] at h
    cases h
  · exact hd' h

theorem Assignment.mem_left {a : Assignment} {c : Char} (h : c ∈ a.left) :
    c ∈ a.target.text ∨ c = '+' := by
  unfold Assignment.left at h
  cases ha : a.appends with
  | true => simpa [ha] using h
  | false => exact Or.inl (by simpa [ha] using h)

theorem Assignment.isValueChar_start (a : Assignment) : ∀ c ∈ a.start, isValueChar c = true := by
  intro c hc
  rw [Assignment.start, List.mem_append, List.mem_cons] at hc
  rcases hc with hc | rfl | hc
  · rcases Assignment.mem_left hc with hc | rfl
    · exact isValueChar_of_isPlain (isPlain_of_target (a.target.isAlphanum_or_eq hc))
    · decide
  · decide
  · exact a.head.plain c hc

/-- A word of characters of values is a word of the tracker. -/
theorem isWord_of_isValueChar {s : List Char} (hne : s ≠ [])
    (hs : ∀ c ∈ s, isValueChar c = true) : IsWord (String.ofList s) := by
  refine ⟨by simpa using hne, ?_, ?_⟩
  · rw [String.toList_ofList, List.all_eq_true]
    exact fun c hc => isWordChar_of_isValueChar (hs c hc)
  · rw [String.toList_ofList]
    exact fun hc => ne_backslash_of_isValueChar (hs _ hc) rfl

/-- The first word of an assignment has the form of one. -/
theorem Assignment.isAssignment_start (a : Assignment) :
    isAssignment (String.ofList a.start) = true := by
  have hleft : a.start.takeWhile (· != '=') = a.left := by
    have hne : ∀ c ∈ a.left, (c != '=') = true := by
      intro c hc
      rcases Assignment.mem_left hc with hc | rfl
      · simpa using Target.ne_of_mem hc (d := '=') (by decide) (by decide)
      · decide
    rw [Assignment.start, List.takeWhile_append_of_pos hne]
    simp
  have htarget : (if a.left.getLast? = some '+' then a.left.dropLast else a.left) =
      a.target.text := by
    unfold Assignment.left
    cases a.appends with
    | true => simp
    | false =>
        have hlast : a.target.text.getLast? ≠ some '+' := fun h =>
          Target.ne_of_mem (List.mem_of_getLast? h) (d := '+') (by decide) (by decide) rfl
        simp [hlast]
  have hname : a.target.text.takeWhile (· != '[') = a.target.text := by
    have hne : ∀ c ∈ a.target.text, (c != '[') = true := fun c hc => by
      simpa using Target.ne_of_mem hc (d := '[') (by decide) (by decide)
    have htake : (a.target.text ++ []).takeWhile (· != '[') =
        a.target.text ++ [].takeWhile (· != '[') := List.takeWhile_append_of_pos hne
    simpa using htake
  have hcontains : a.start.contains '=' = true := by simp [Assignment.start]
  have hempty : a.target.text.isEmpty = false := by simpa using a.target.ne_nil
  simp only [isAssignment, String.toList_ofList, hleft, htarget, hname, a.target.plain, hcontains,
    hempty, a.target.not_digit]
  rfl

/-- A word of the form of an assignment is none of the words with a meaning of their own. -/
theorem command_of_isAssignment {text : String} (h : isAssignment text = true) (k : Cursor)
    (defines : Bool) : k.command text defines = (k, none) := by
  have hne : ∀ t, isAssignment t = false → text ≠ t := by
    rintro t ht rfl
    rw [h] at ht
    cases ht
  have hkeyword : text ∉ keywords := fun hmem =>
    have hnone : ∀ t ∈ keywords, isAssignment t = false := by decide
    hne text (hnone text hmem) rfl
  have hwrapper : text ∉ wrappers := fun hmem =>
    have hnone : ∀ t ∈ wrappers, isAssignment t = false := by decide
    hne text (hnone text hmem) rfl
  rw [Cursor.command, if_neg (hne _ (by decide)), if_neg (hne _ (by decide)),
    if_neg (hne _ (by decide)), if_neg hkeyword, if_neg hwrapper, h]
  simp

/-! ## What the tracker makes of assignments -/

section
variable {cases : List CasePart} {b : Bool}

/-- Reads a word of characters of values that is no call. -/
theorem tracks_value {pre post : Cursor → Prop} {s : List Char} (hne : s ≠ [])
    (hs : ∀ c ∈ s, isValueChar c = true)
    (hstep : ∀ k defines, pre k → ∃ k', k.word (String.ofList s) defines = (k', none) ∧ post k') :
    Tracks EndsRun pre s post [] := by
  have h : Tracks EndsRun pre (String.ofList s).toList post [] := by
    refine tracks_word (isWord_of_isValueChar hne hs) fun k defines hk => ?_
    obtain ⟨k', hword, hpost⟩ := hstep k defines hk
    rw [hword]
    exact ⟨hpost, rfl⟩
  rwa [String.toList_ofList] at h

/-- The first word of an assignment does not change whether a command is expected. -/
theorem Assignment.word_start (a : Assignment) (hc : inCommands cases = true) {k : Cursor}
    (hk : Awaits cases b k) (defines : Bool) :
    k.word (String.ofList a.start) defines =
      ({ reading k (String.ofList a.start) defines with atCommand := b }, none) := by
  cases b with
  | true =>
      rw [hk.word_eq hc, command_of_isAssignment a.isAssignment_start]
      have hat : (reading k (String.ofList a.start) defines).atCommand = true := hk.atCommand_eq
      rw [← hat]
  | false => exact hk.argument_eq hc _ _

/-- The first word of an assignment changes nothing, in command position or not. -/
theorem Assignment.tracks_start (a : Assignment) (hc : inCommands cases = true) :
    Tracks EndsRun (Awaits cases b) a.start (Awaits cases b) [] := by
  refine tracks_value (by simp [Assignment.start]) a.isValueChar_start fun k defines hk => ?_
  have hread := hk.toWithin.awaits_reading (String.ofList a.start) defines
  exact ⟨_, a.word_start hc hk defines, hread.with_atCommand b⟩

/-- Plain text outside command position changes nothing. -/
theorem PlainText.tracks (s : PlainText) (hc : inCommands cases = true) :
    Tracks EndsRun (Awaits cases false) s.text (Awaits cases false) [] := by
  by_cases hne : s.text = []
  · rw [hne]
    exact Tracks.nil
  · refine tracks_value hne s.plain fun k defines hk => ?_
    rw [hk.argument_eq hc]
    exact ⟨_, rfl, (hk.toWithin.awaits_reading _ defines).with_atCommand false⟩

/-- The name of a variable goes on with the plain text behind it. -/
theorem Variable.tracks_before (v : Variable) (s : PlainText) (hc : inCommands cases = true) :
    Tracks EndsRun (AfterDollar cases b) (v.text.toList ++ s.text) (Awaits cases false) [] := by
  have hvalue : ∀ c ∈ v.text.toList ++ s.text, isValueChar c = true := by
    intro c hc
    rcases List.mem_append.mp hc with hc | hc
    · refine isValueChar_of_isPlain ?_
      rcases v.plain c hc with h | rfl
      · simp [isPlain, h]
      · decide +kernel
    · exact s.plain c hc
  refine tracks_value (by simp [v.ne_empty]) hvalue fun k defines hk => ?_
  have hread := hk.toWithin.awaits_reading (String.ofList (v.text.toList ++ s.text)) defines
  rw [word_eq, hk.afterRedirection_eq, hread.place_eq hc, if_pos (by simp [hk.afterDollar_eq])]
  exact ⟨_, rfl, hread.with_atCommand false⟩

theorem endsRun_blank (s : List Char) : EndsRun (' ' :: s) := endsRun_cons (by decide) s

/-- What is quoted or expanded leads out of command position, the plain text behind it does not
lead back. -/
theorem tracks_valuePart (part : Part × PlainText) (hc : inCommands cases = true) :
    Tracks EndsRun (Awaits cases b) (part.1.print blankOut ++ part.2.text) (Awaits cases false)
      part.1.listed := by
  obtain ⟨part, s⟩ := part
  -- Only the name of a variable goes on behind the part itself.
  have hclosed : ∀ {calls : List String},
      Tracks Anything (Awaits cases b) (part.print blankOut) (Stands cases false) calls →
      Tracks EndsRun (Awaits cases b) (part.print blankOut ++ s.text) (Awaits cases false) calls :=
    fun h => (h.imp (fun _ hk => hk) fun _ hk => hk.awaits).append_silent (s.tracks hc)
      fun _ _ => trivial
  cases part with
  | single t =>
      have hquote : Tracks Anything (StandsAnyhow cases) (blankOut t.text ++ ['\''])
          (Stands cases false) [] :=
        Tracks.behind_blankOut (fun _ => (tracks_closer hc (by simp)).standing) t.text
      exact hclosed ((tracks_closerAnyhow hc (by simp)).before hquote)
  | double q => exact hclosed ((tracks_closerAnyhow hc (by simp)).before (tracks_quoted q hc))
  | plainReference v =>
      have h : Tracks EndsRun (AtDollar cases b) (v.text.toList ++ s.text) (Awaits cases false)
          [] := (v.tracks_before s hc).imp (fun _ hk => hk.toAfterDollar) fun _ hk => hk
      have hdollar := tracks_dollar.before h
      rwa [← List.append_assoc] at hdollar
  | bracedReference v => exact hclosed (tracks_bracedReference v hc)
  | substitution inside => exact hclosed (tracks_substitution hc (tracks_sequence inside hc))

theorem endsRun_printParts (parts : List (Part × PlainText)) {rest : List Char}
    (h : EndsRun rest) : EndsRun (printParts blankOut parts ++ rest) := by
  cases parts with
  | nil => exact h
  | cons part parts =>
      obtain ⟨part, s⟩ := part
      cases part <;> exact endsRun_cons (by decide) _

theorem tracks_printParts (parts : List (Part × PlainText)) (hc : inCommands cases = true) :
    Tracks EndsRun (Awaits cases b) (printParts blankOut parts)
      (Awaits cases (b && parts.isEmpty)) (parts.flatMap fun part => part.1.listed) := by
  induction parts generalizing b with
  | nil =>
      rw [List.isEmpty_nil, Bool.and_true]
      exact Tracks.nil
  | cons part parts ih =>
      rw [List.isEmpty_cons, Bool.and_false]
      exact (tracks_valuePart part hc).append ih fun rest h => endsRun_printParts parts h

/-- Behind an assignment the tracker is still in command position if the value is plain text. -/
theorem Assignment.tracks (a : Assignment) (hc : inCommands cases = true) :
    Tracks Anything (Awaits cases b) (a.print blankOut ++ [' ']) (Awaits cases (b && a.isPlain))
      a.listed := by
  have hvalue : Tracks EndsRun (Awaits cases b) (a.print blankOut)
      (Awaits cases (b && a.isPlain)) a.listed :=
    (a.tracks_start hc).append (tracks_printParts a.parts hc) fun rest h =>
      endsRun_printParts a.parts h
  exact hvalue.append_silent tracks_blank fun rest _ => endsRun_blank rest

theorem tracks_printAssignments (assignments : List Assignment) (hc : inCommands cases = true) :
    Tracks Anything (Awaits cases b) (printAssignments blankOut assignments)
      (Awaits cases (b && assignments.all Assignment.isPlain))
      (assignments.flatMap Assignment.listed) := by
  induction assignments generalizing b with
  | nil =>
      rw [List.all_nil, Bool.and_true]
      exact Tracks.nil
  | cons a assignments ih =>
      rw [List.all_cons, ← Bool.and_assoc]
      exact (a.tracks hc).before ih

/-- The name of a command is a call in command position, and an argument elsewhere. -/
theorem Name.tracks (name : Name) (hc : inCommands cases = true) :
    Tracks EndsWord (Awaits cases b) name.text.toList (Stands cases false)
      (if b then [name.text] else []) := by
  cases b with
  | true => exact name.tracks_call hc
  | false => exact (name.tracks_argument hc).endsWord

end

/-! ## What assignments show -/

section
variable {last : Option Char}

theorem lastAfter_append_singleton (s : List Char) {c : Char} (hc : c ≠ '\n') :
    lastAfter last (s ++ [c]) = some c := by
  simp [lastAfter, hc]

/-- Behind a text that holds no dollar sign, none stands before. -/
theorem lastAfter_ne_dollar {s : List Char} (hlast : last ≠ some '$') (hs : '$' ∉ s) :
    lastAfter last s ≠ some '$' := by
  induction s generalizing last with
  | nil => exact hlast
  | cons c s ih =>
      simp only [List.mem_cons, not_or] at hs
      have hc : (if c = '\n' then none else some c) ≠ some '$' := by
        split
        · simp
        · simpa using Ne.symm hs.1
      exact ih hc hs.2

theorem PlainText.no_dollar (s : PlainText) : '$' ∉ s.text := fun h =>
  absurd (isWordChar_of_isValueChar (s.plain _ h)) (by decide)

theorem SingleText.masks (s : SingleText) {outer : List Context} :
    ∀ c ∈ s.text, Masks (.single :: outer) c := by
  intro c hc r rest last hat _
  have hne : c ≠ '\'' := by
    rintro rfl
    exact s.no_quote hc
  rw [Reader.stepFree, hat.contexts_eq]
  simp [Reader.stepSingle]

/-- A quotation or an expansion shows its view if no dollar sign stands before it. -/
theorem Part.shows (part : Part) (hpart : part.Allowed) (hlast : last ≠ some '$') :
    Shows [] last (part.print id) (part.print blankOut) [] := by
  have hargument : ∀ argument : Argument, argument.Allowed false →
      Shows [] last (argument.print id) (argument.print blankOut) [] := fun argument ha =>
    shows_argument argument ha rfl fun _ => rfl
  cases part with
  | single s =>
      refine (Shows.openSingle rfl hlast).append ?_
      exact shows_blankOut rfl s.masks (by simp) fun _ => Shows.closeSingle
  | double q => exact (Shows.openDouble rfl).append (shows_quoted q hpart)
  | plainReference v => exact hargument (.plainReference v) trivial
  | bracedReference v => exact hargument (.bracedReference v) trivial
  | substitution inside => exact hargument (.substitution inside) hpart

/-- No dollar sign stands at the end of a quotation or an expansion. -/
theorem Part.exists_last (part : Part) :
    ∃ s c, part.print id = s ++ [c] ∧ c ≠ '\n' ∧ c ≠ '$' := by
  cases part with
  | single t => exact ⟨'\'' :: t.text, '\'', rfl, by decide, by decide⟩
  | double q => exact ⟨'"' :: q.print id, '"', rfl, by decide, by decide⟩
  | plainReference v =>
      have hne : v.text.toList ≠ [] := by simpa using v.ne_empty
      have hlast : isPlain (v.text.toList.getLast hne) = true := by
        rcases v.plain _ (List.getLast_mem hne) with h | h <;> simp [isPlain, h]
      refine ⟨'$' :: v.text.toList.dropLast, v.text.toList.getLast hne, ?_,
        ne_of_isPlain hlast (by decide), ne_of_isPlain hlast (by decide)⟩
      rw [List.cons_append, List.dropLast_concat_getLast hne]
      rfl
  | bracedReference v =>
      refine ⟨"$\x7b".toList ++ v.text.toList, '}', ?_, by decide, by decide⟩
      rw [List.append_assoc]
      rfl
  | substitution inside =>
      refine ⟨"$(".toList ++ inside.print id, ')', ?_, by decide, by decide⟩
      rw [List.append_assoc]
      rfl

theorem shows_printParts (parts : List (Part × PlainText))
    (hparts : ∀ part ∈ parts, part.1.Allowed) (hlast : last ≠ some '$') :
    Shows [] last (printParts id parts) (printParts blankOut parts) [] := by
  induction parts generalizing last with
  | nil => exact Shows.nil
  | cons part parts ih =>
      obtain ⟨s, c, hprint, hn, hd⟩ := part.1.exists_last
      have hbehind : lastAfter last (part.1.print id ++ part.2.text) ≠ some '$' := by
        rw [lastAfter_append, hprint, lastAfter_append_singleton s hn]
        exact lastAfter_ne_dollar (by simpa using hd) part.2.no_dollar
      have htext : ∀ last, Shows [] last part.2.text part.2.text [] := fun _ =>
        Shows.inert rfl fun c hc => isInert_of_isValueChar (part.2.plain c hc)
      refine Shows.append ?_ (ih (fun p hp => hparts p (by simp [hp])) hbehind)
      exact (part.1.shows (hparts part (by simp)) hlast).append (htext _)

theorem Assignment.shows (a : Assignment) (ha : a.Allowed) :
    Shows [] last (a.print id) (a.print blankOut) [] := by
  have hstart : Shows [] last a.start a.start [] :=
    Shows.inert rfl fun c hc => isInert_of_isValueChar (a.isValueChar_start c hc)
  have hequals : a.start = (a.left ++ ['=']) ++ a.head.text := by simp [Assignment.start]
  refine hstart.append (shows_printParts a.parts ha ?_)
  rw [hequals, lastAfter_append, lastAfter_append_singleton a.left (by decide)]
  exact lastAfter_ne_dollar (by simp) a.head.no_dollar

theorem shows_printAssignments (assignments : List Assignment) (ha : ∀ a ∈ assignments, a.Allowed) :
    Shows [] last (printAssignments id assignments) (printAssignments blankOut assignments) [] := by
  induction assignments generalizing last with
  | nil => exact Shows.nil
  | cons a assignments ih =>
      refine Shows.append ?_ (ih fun a' ha' => ha a' (by simp [ha']))
      exact (a.shows (ha a (by simp))).append (shows_marks rfl (by decide))

end

/-! ## The calls of a line -/

/-- **Assignments in front of a command.** What their values call comes first. The command itself is
called if every value is plain text, and is taken for an argument otherwise. -/
theorem callsOf_assigned (assignments : List Assignment) (name : Name) (args : Arguments)
    (hassignments : ∀ a ∈ assignments, a.Allowed) (hargs : args.Allowed false) :
    callsOf (String.ofList (assigned assignments name args)) =
      assignments.flatMap Assignment.listed ++
        ((if assignments.all Assignment.isPlain then [name.text] else []) ++ args.listed) := by
  have hshows : Shows [] none (assigned assignments name args)
      (printAssignments blankOut assignments ++ (name.text.toList ++ args.print blankOut)) [] := by
    refine (shows_printAssignments assignments hassignments).append ?_
    exact (name.toPlainWord.shows rfl).append (shows_arguments args hargs rfl fun _ => rfl)
  have hbefore : Tracks Anything (Awaits [] true) (printAssignments blankOut assignments)
      (Awaits [] (true && assignments.all Assignment.isPlain))
      (assignments.flatMap Assignment.listed) := tracks_printAssignments assignments rfl
  have htracks := hbefore.before
    ((name.tracks rfl).append (tracks_arguments args rfl) fun rest h => endsWord_arguments args h)
  calc callsOf (String.ofList (assigned assignments name args))
      = Tracker.start.calls (lines
          (printAssignments blankOut assignments ++
            (name.text.toList ++ args.print blankOut))) := by
        rw [callsOf, hshows.map_code_scan.1]
    _ = assignments.flatMap Assignment.listed ++
          ((if assignments.all Assignment.isPlain then [name.text] else []) ++ args.listed) := by
        rw [htracks.standing.calls_lines, Bool.true_and]

end ShellIndex.Program
