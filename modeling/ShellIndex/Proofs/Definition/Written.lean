import ShellIndex.Proofs.Definition.Rounds
import ShellIndex.Proofs.Text.Balance

set_option autoImplicit false

/-! # Definitions as they are written

A written definition is a name, what its comment says about the function and its arguments, one of
the forms of a header, and a body with balanced braces. This file writes it down line by line and
says what a reader should get back: the comment of the written lines says what was to be said
(`Doc.ofTexts_commentTexts`), and the header is read with its name (`Header.read?_header`).
-/

namespace ShellIndex.Definition

open Text

/-! ## What is written -/

structure FunctionName where
  text : List Char
  ne_nil : text ≠ []
  no_dash : text.head? ≠ some '-'
  plain : ∀ c ∈ text, isNamePart c = true

/-- Text without blanks at its ends. -/
structure Trimmed (s : List Char) : Prop where
  ne_nil : s ≠ []
  start_eq : ∀ c, s.head? = some c → isBlank c = false
  end_eq : ∀ c, s.getLast? = some c → isBlank c = false

structure CommentLine where
  text : List Char
  trimmed : Trimmed text
  no_lineFeed : '\n' ∉ text

structure DescriptionLine extends CommentLine where
  no_marker : afterMarker? text = none

inductive HeaderForm where
  /-- `name()` -/
  | parens
  /-- `function name` -/
  | keyword
  /-- `function name()` -/
  | keywordParens
deriving DecidableEq, Repr

/-- A character that only counts if it is a brace. -/
def isBodyChar (c : Char) : Bool :=
  c != '\n' && c != '\'' && c != '"' && c != '\\' && c != '`' && c != '#' && c != '<' && c != '$'

structure Written where
  name : FunctionName
  description : List DescriptionLine
  arguments : Option (CommentLine × List CommentLine)
  form : HeaderForm
  /-- Whether the brace that opens the body stands alone in the line below the header. -/
  braceBelow : Bool
  body : List (List Char)
  body_plain : ∀ line ∈ body, ∀ c ∈ line, isBodyChar c = true
  body_balanced : balance '{' '}' 0 body.flatten = some 0

namespace Written

/-- The lines of the comment, without the sign that starts them. -/
def commentTexts (w : Written) : List (List Char) :=
  w.description.map (·.text) ++
    match w.arguments with
    | none => []
    | some (first, more) => ("Arguments: ".toList ++ first.text) :: more.map (·.text)

/-- The header without the brace. -/
def header (w : Written) : List Char :=
  match w.form with
  | .parens => w.name.text ++ "()".toList
  | .keyword => "function ".toList ++ w.name.text
  | .keywordParens => "function ".toList ++ (w.name.text ++ "()".toList)

def headerLines (w : Written) : List (List Char) :=
  if w.braceBelow then [w.header, ['{']] else [w.header ++ [' ', '{']]

/-- The definition below a blank line. -/
def lines (w : Written) : List (List Char) :=
  [] :: (w.commentTexts.map ("# ".toList ++ ·) ++ (w.headerLines ++ (w.body ++ [['}']])))

/-- Some lines as one text, if there are any. -/
def joined (texts : List (List Char)) : Option String :=
  if texts = [] then none else some (String.ofList (List.intercalate ['\n'] texts))

/-- What the comment is to say. -/
def doc (w : Written) : Doc where
  description := joined (w.description.map (·.text))
  arguments := w.arguments.bind fun a => joined (a.1.text :: a.2.map (·.text))

/-- What is to be recorded of the definition when it is written behind `n` lines. -/
def record (w : Written) (file : String) (n : Nat) : Definition where
  name := String.ofList w.name.text
  arguments := w.doc.arguments
  description := w.doc.description
  file := file
  startBlock := n + 2
  start := n + 2 + w.commentTexts.length
  stop := n + w.lines.length

end Written

/-- Written definitions as a text. -/
def textOf (ws : List Written) : List Char :=
  (ws.flatMap Written.lines).flatMap (· ++ ['\n'])

/-- What is to be recorded of definitions that are written behind `n` lines. -/
def recordsOf (file : String) (n : Nat) : List Written → List Definition
  | [] => []
  | w :: ws => w.record file n :: recordsOf file (n + w.lines.length) ws

/-! ## Comments -/

theorem Trimmed.trimEnd_eq {s : List Char} (h : Trimmed s) : trimEnd s = s := by
  obtain ⟨t, c, rfl⟩ := (List.eq_nil_or_concat s).resolve_left h.ne_nil
  have hc : isBlank c = false := h.end_eq c (by simp)
  simp [trimEnd, hc]

theorem Trimmed.trim_eq {s : List Char} (h : Trimmed s) : trim s = s := by
  have hstart : trimStart s = s := by
    obtain ⟨c, t, rfl⟩ := List.exists_cons_of_ne_nil h.ne_nil
    simp [trimStart, h.start_eq c rfl]
  rw [trim, hstart, h.trimEnd_eq]

theorem Trimmed.append {s t : List Char} (hs : Trimmed s) (ht : Trimmed t) (u : List Char) :
    Trimmed (s ++ (u ++ t)) := by
  obtain ⟨c, s', rfl⟩ := List.exists_cons_of_ne_nil hs.ne_nil
  refine ⟨by simp, fun d hd => hs.start_eq d (by simpa using hd), fun d hd => ?_⟩
  rw [List.getLast?_append, List.getLast?_append] at hd
  have hlast : t.getLast? = some (t.getLast ht.ne_nil) := List.getLast?_eq_some_getLast ht.ne_nil
  rw [hlast] at hd
  exact ht.end_eq d (hlast.trans (by simpa using hd))

/-- Lines without blanks at their ends have none when they are joined. -/
theorem trimmed_intercalate {texts : List (List Char)} (hne : texts ≠ [])
    (h : ∀ text ∈ texts, Trimmed text) : Trimmed (List.intercalate ['\n'] texts) := by
  induction texts with
  | nil => exact absurd rfl hne
  | cons text texts ih =>
      cases texts with
      | nil => simpa using h text (by simp)
      | cons next texts =>
          have hrest := ih (by simp) fun t ht => h t (List.mem_cons_of_mem _ ht)
          have hjoin : List.intercalate ['\n'] (text :: next :: texts) =
              text ++ (['\n'] ++ List.intercalate ['\n'] (next :: texts)) := by
            simp [List.intercalate]
          rw [hjoin]
          exact (h text (by simp)).append hrest ['\n']

theorem joinTexts_of_trimmed {texts : List (List Char)} (h : ∀ text ∈ texts, Trimmed text) :
    joinTexts texts = Written.joined texts := by
  by_cases hne : texts = []
  · subst hne
    rfl
  · have htrimmed := trimmed_intercalate hne h
    rw [joinTexts, htrimmed.trim_eq, Written.joined, if_neg hne]
    simp [htrimmed.ne_nil]

/-- The text about the arguments starts behind the marker. -/
theorem afterMarker?_arguments {s : List Char} (h : Trimmed s) :
    afterMarker? ("Arguments: ".toList ++ s) = some s := by
  obtain ⟨c, t, rfl⟩ := List.exists_cons_of_ne_nil h.ne_nil
  have hinline : isInlineBlank c = false := by
    refine Bool.eq_false_iff.mpr fun hc => ?_
    have hblank := isBlank_of_isInlineBlank hc
    rw [h.start_eq c rfl] at hblank
    cases hblank
  show some (skipInline (' ' :: c :: t)) = some (c :: t)
  have hskip : skipInline (' ' :: c :: t) = skipInline (c :: t) := rfl
  rw [hskip, skipInline, List.dropWhile_cons, if_neg (by simp [hinline])]

/-- The description goes up to the first marker. -/
theorem splitAtMarker_append (ls : List DescriptionLine) (texts : List (List Char)) :
    splitAtMarker (ls.map (·.text) ++ texts) =
      (ls.map (·.text) ++ (splitAtMarker texts).1, (splitAtMarker texts).2) := by
  induction ls with
  | nil => rfl
  | cons l ls ih =>
      rw [List.map_cons, List.cons_append, splitAtMarker, l.no_marker]
      simp [ih]

theorem Written.of_mem_commentTexts (w : Written) {text : List Char} (ht : text ∈ w.commentTexts) :
    Trimmed text ∧ '\n' ∉ text := by
  have hlines : ∀ ls : List CommentLine, text ∈ ls.map (·.text) → Trimmed text ∧ '\n' ∉ text := by
    intro ls hl
    obtain ⟨l, _, rfl⟩ := List.mem_map.mp hl
    exact ⟨l.trimmed, l.no_lineFeed⟩
  rcases List.mem_append.mp ht with ht | ht
  · refine hlines (w.description.map (·.toCommentLine)) ?_
    rwa [List.map_map]
  · split at ht
    · cases ht
    · next first more _ =>
        rcases List.mem_cons.mp ht with rfl | ht
        · have hmarker : Trimmed "Arguments:".toList := by
            refine ⟨by decide, fun c hc => ?_, fun c hc => ?_⟩ <;>
            · obtain rfl := Option.some.inj hc
              decide
          refine ⟨hmarker.append first.trimmed [' '], fun hmem => ?_⟩
          rcases List.mem_append.mp hmem with hmem | hmem
          · exact absurd hmem (by decide)
          · exact first.no_lineFeed hmem
        · exact hlines more ht

/-- **The comment of the written lines says what was to be said.** -/
theorem Doc.ofTexts_commentTexts (w : Written) : Doc.ofTexts w.commentTexts = w.doc := by
  have hdescription : joinTexts (w.description.map (·.text)) =
      Written.joined (w.description.map (·.text)) := by
    refine joinTexts_of_trimmed fun text ht => ?_
    obtain ⟨l, _, rfl⟩ := List.mem_map.mp ht
    exact l.trimmed
  rw [Doc.ofTexts, Written.commentTexts, splitAtMarker_append, Written.doc]
  cases harguments : w.arguments with
  | none => simp [splitAtMarker, hdescription]
  | some arguments =>
      obtain ⟨first, more⟩ := arguments
      have hjoined : joinTexts (first.text :: more.map (·.text)) =
          Written.joined (first.text :: more.map (·.text)) := by
        refine joinTexts_of_trimmed fun text ht => ?_
        obtain ⟨l, _, rfl⟩ := List.mem_map.mp (show text ∈ (first :: more).map (·.text) from ht)
        exact l.trimmed
      simp only [splitAtMarker, afterMarker?_arguments first.trimmed, List.append_nil,
        hdescription, Option.bind_some, hjoined]

/-! ## Headers -/

/-- A header is made of the characters of names, blanks and parentheses. -/
theorem Written.header_cases (w : Written) {P : Char → Prop}
    (halphanumeric : ∀ c, isAlphanumeric c = true → P c)
    (hmarks : ∀ c ∈ ['_', ':', '.', '@', '+', '-', ' ', '(', ')'], P c) {c : Char}
    (hc : c ∈ w.header) : P c := by
  have hpart : ∀ d, isNamePart d = true → P d := by
    have hmarks' : ∀ d ∈ ['_', ':', '.', '@', '+', '-'], P d := fun d hd =>
      hmarks d (List.mem_append_left [' ', '(', ')'] hd)
    exact fun d hd => Header.isNamePart_cases halphanumeric hmarks' hd
  have hparens : ∀ d ∈ "()".toList, P d := fun d hd =>
    hmarks d (List.mem_append_right ['_', ':', '.', '@', '+', '-', ' '] hd)
  have hkeyword : ∀ d ∈ "function ".toList, P d := by
    have hletters : ("function ".toList.all fun d => isNamePart d || d == ' ') = true := by decide
    intro d hd
    have hletter := List.all_eq_true.mp hletters d hd
    simp only [Bool.or_eq_true, beq_iff_eq] at hletter
    rcases hletter with hd | rfl
    · exact hpart d hd
    · exact hmarks ' ' (by simp)
  have hname : ∀ d ∈ w.name.text, P d := fun d hd => hpart d (w.name.plain d hd)
  unfold Written.header at hc
  split at hc
  · rcases List.mem_append.mp hc with hc | hc
    · exact hname c hc
    · exact hparens c hc
  · rcases List.mem_append.mp hc with hc | hc
    · exact hkeyword c hc
    · exact hname c hc
  · rcases List.mem_append.mp hc with hc | hc
    · exact hkeyword c hc
    · rcases List.mem_append.mp hc with hc | hc
      · exact hname c hc
      · exact hparens c hc

theorem isInlineBlank_of_isNamePart {c : Char} (h : isNamePart c = true) :
    isInlineBlank c = false := by
  refine Bool.eq_false_iff.mpr fun hc => ?_
  have hblank := isBlank_of_isInlineBlank hc
  rw [Header.isBlank_of_isNamePart h] at hblank
  cases hblank

namespace FunctionName
variable (name : FunctionName)

theorem exists_cons : ∃ c s, name.text = c :: s ∧ isNameStart c = true ∧
    ∀ d ∈ s, isNamePart d = true := by
  obtain ⟨c, s, hs⟩ := List.exists_cons_of_ne_nil name.ne_nil
  have hpart : isNamePart c = true := name.plain c (by simp [hs])
  have hdash : c ≠ '-' := fun e => name.no_dash (by simp [hs, e])
  refine ⟨c, s, hs, ?_, fun d hd => name.plain d (by simp [hs, hd])⟩
  simpa [isNamePart, hdash] using hpart

/-- A name is read up to the first character that does not belong to it. -/
theorem readName?_append {t : List Char} (ht : ∀ c, t.head? = some c → isNamePart c = false) :
    Header.readName? (name.text ++ t) = some (name.text, t) := by
  obtain ⟨c, s, hs, hc, hparts⟩ := name.exists_cons
  have hstops : t.takeWhile isNamePart = [] ∧
      t.dropWhile isNamePart = t := by
    cases t with
    | nil => exact ⟨rfl, rfl⟩
    | cons d t => simp [ht d rfl]
  rw [hs, List.cons_append, Header.readName?, if_pos hc, List.takeWhile_append_of_pos hparts,
    List.dropWhile_append_of_pos hparts, hstops.1, hstops.2, List.append_nil]

theorem skipInline_append (t : List Char) : skipInline (name.text ++ t) = name.text ++ t := by
  obtain ⟨c, s, hs, hc, -⟩ := name.exists_cons
  have hinline := isInlineBlank_of_isNamePart (c := c) (name.plain c (by simp [hs]))
  simp [hs, skipInline, hinline]

/-- A name with parentheses does not start with the keyword and a blank, even if it starts with
the letters of the keyword. -/
theorem afterKeyword?_parens (t : List Char) :
    Header.afterKeyword? (name.text ++ '(' :: t) = none := by
  -- The text before the first inline blank holds a parenthesis, and the keyword does not.
  have hparen : '(' ∈ (name.text ++ '(' :: t).takeWhile fun c => !isInlineBlank c := by
    rw [List.takeWhile_append_of_pos fun c hc => by
      simp [isInlineBlank_of_isNamePart (name.plain c hc)]]
    simp [isInlineBlank]
  unfold Header.afterKeyword?
  split
  · next c rest hs =>
      split
      · next hc =>
          rw [hs] at hparen
          have hletters : ("function".toList.all fun c => !isInlineBlank c) = true := by decide
          have hkeyword : ("function".toList ++ c :: rest).takeWhile (fun c => !isInlineBlank c) =
              "function".toList := by
            rw [List.takeWhile_append_of_pos (List.all_eq_true.mp hletters), List.takeWhile_cons,
              if_neg (by simp [hc]), List.append_nil]
          have hparen : '(' ∈ "function".toList := hkeyword ▸ hparen
          exact absurd hparen (by decide)
      · rfl
  · rfl

end FunctionName

namespace Header

theorem read?_of_keyword {s : List Char} {named : List Char × List Char}
    (h : readKeywordForm? (skipInline s) = some named) : read? s = some (ofNamed named) := by
  simp [read?, h]

theorem read?_of_parens {s : List Char} {named : List Char × List Char}
    (hkeyword : readKeywordForm? (skipInline s) = none)
    (h : readParensForm? (skipInline s) = some named) : read? s = some (ofNamed named) := by
  simp [read?, hkeyword, h]

theorem readKeywordForm?_function (name : FunctionName) {t : List Char}
    (ht : ∀ c, t.head? = some c → isNamePart c = false) :
    readKeywordForm? (skipInline ("function ".toList ++ (name.text ++ t))) =
      some (name.text, (afterParens? t).getD t) := by
  have hafter : afterKeyword? (skipInline ("function ".toList ++ (name.text ++ t))) =
      some (skipInline (name.text ++ t)) := rfl
  rw [readKeywordForm?, hafter, name.skipInline_append]
  show (readName? (name.text ++ t)).map _ = _
  rw [name.readName?_append ht]
  rfl

/-- **The header of a written definition is read with its name.** -/
theorem read?_header (w : Written) {t : List Char} (ht : t = [] ∨ t = [' ', '{']) :
    read? (w.header ++ t) = some ⟨w.name.text, !t.isEmpty, []⟩ := by
  have hparens : ∀ c, ("()".toList ++ t).head? = some c → isNamePart c = false := by
    intro c hc
    obtain rfl : '(' = c := Option.some.inj hc
    rfl
  have hafter : afterParens? ("()".toList ++ t) = some t := by rcases ht with rfl | rfl <;> rfl
  have hnamed : ofNamed (w.name.text, t) = ⟨w.name.text, !t.isEmpty, []⟩ := by
    rcases ht with rfl | rfl <;> rfl
  rw [← hnamed, Written.header]
  cases w.form with
  | parens =>
      have hskip : skipInline (w.name.text ++ "()".toList ++ t) =
          w.name.text ++ ("()".toList ++ t) := by
        rw [List.append_assoc, w.name.skipInline_append]
      refine read?_of_parens ?_ ?_
      · rw [hskip, readKeywordForm?]
        have hkeyword : afterKeyword? (w.name.text ++ ("()".toList ++ t)) = none :=
          w.name.afterKeyword?_parens ([')'] ++ t)
        rw [hkeyword]
      · rw [hskip, readParensForm?, w.name.readName?_append hparens]
        show (afterParens? ("()".toList ++ t)).map _ = _
        rw [hafter]
        rfl
  | keyword =>
      have hblank : ∀ c, t.head? = some c → isNamePart c = false := by
        rcases ht with rfl | rfl
        · simp
        · intro c hc
          obtain rfl : ' ' = c := Option.some.inj hc
          rfl
      have hnone : (afterParens? t).getD t = t := by rcases ht with rfl | rfl <;> rfl
      show read? ("function ".toList ++ w.name.text ++ t) = _
      rw [List.append_assoc, read?_of_keyword (readKeywordForm?_function w.name hblank), hnone]
  | keywordParens =>
      show read? ("function ".toList ++ (w.name.text ++ "()".toList) ++ t) = _
      rw [List.append_assoc, List.append_assoc,
        read?_of_keyword (readKeywordForm?_function w.name hparens), hafter]
      rfl

end Header

end ShellIndex.Definition
