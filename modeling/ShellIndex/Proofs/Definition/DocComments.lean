import ShellIndex.Proofs.Definition.Bodies
import ShellIndex.Proofs.Definition.Written

set_option autoImplicit false

/-! # The comment that belongs to a definition

A definition whose header begins its line takes all comment lines directly above it, the line that
names the interpreter excepted, and what they say is divided at the first marker without loss
(`doc_comments_of_extract`). A definition behind another one in its line takes nothing.

What the texts of a comment say is given twice: `Doc.ofTexts` reads them, and `Divided` tells what the
parts of a divided comment are.
-/

namespace ShellIndex.Definition

open Text Source

/-! ## Divided comments -/

/-- The marker `Arguments:`, in any case and with or without the plural. Inline blanks may stand before
it, before its colon and behind it. -/
def IsMarker (marker : List Char) : Prop :=
  ∃ blanks word plural gap trail, Inline blanks ∧ word.map Char.toLower = "argument".toList ∧
    (plural = [] ∨ ∃ c, isLetterS c = true ∧ plural = [c]) ∧ Inline gap ∧ Inline trail ∧
    marker = blanks ++ (word ++ (plural ++ (gap ++ ':' :: trail)))

/-- A text that starts with a marker. -/
def BeginsMarker (text : List Char) : Prop := ∃ marker rest, IsMarker marker ∧ text = marker ++ rest

/-- Lines as one text without blanks at its ends, unless there is nothing else. -/
inductive Joins (texts : List (List Char)) : Option String → Prop
  | blank (hblank : allBlank (List.intercalate ['\n'] texts) = true) : Joins texts none
  | text {before text after : List Char} (hbefore : allBlank before = true) (htext : Trimmed text)
      (hafter : allBlank after = true)
      (heq : List.intercalate ['\n'] texts = before ++ (text ++ after)) :
      Joins texts (some (String.ofList text))

/-- What the texts of a comment say about the function and about its arguments, with the marker
between the two. -/
inductive Divided : List (List Char) → Option String → List Char → Option String → Prop
  | unmarked {texts : List (List Char)} {description : Option String}
      (hnone : ∀ text ∈ texts, ¬ BeginsMarker text) (hdescription : Joins texts description) :
      Divided texts description [] none
  | marked {before after : List (List Char)} {marker rest : List Char}
      {description arguments : Option String} (hbefore : ∀ text ∈ before, ¬ BeginsMarker text)
      (hmarker : IsMarker marker) (hdescription : Joins before description)
      (harguments : Joins (rest :: after) arguments) :
      Divided (before ++ (marker ++ rest) :: after) description marker arguments

/-- The characters of a text that are not blank. -/
def nonBlank (s : List Char) : List Char := s.filter fun c => !isBlank c

section
variable {text rest marker s t : List Char} {texts : List (List Char)} {word : List Char}
variable {description arguments : Option String}

/-! ## Nothing is lost -/

theorem nonBlank_append (s t : List Char) : nonBlank (s ++ t) = nonBlank s ++ nonBlank t :=
  List.filter_append ..

theorem nonBlank_of_allBlank (h : allBlank s = true) : nonBlank s = [] := by
  rw [nonBlank, List.filter_eq_nil_iff]
  intro c hc
  simp [List.all_eq_true.mp h c hc]

theorem nonBlank_intercalate (texts : List (List Char)) :
    nonBlank (List.intercalate ['\n'] texts) = nonBlank texts.flatten := by
  induction texts with
  | nil => rfl
  | cons text texts ih =>
      cases texts with
      | nil => simp
      | cons text' texts =>
          have hfeed : nonBlank ['\n'] = [] := by decide
          rw [List.intercalate_cons_cons, nonBlank_append, nonBlank_append, ih, hfeed,
            List.append_nil, ← nonBlank_append, List.flatten_cons (l := text)]

theorem Joins.nonBlank_eq {o : Option String} (h : Joins texts o) :
    nonBlank (o.getD "").toList = nonBlank texts.flatten := by
  rw [← nonBlank_intercalate]
  cases h with
  | blank hblank => rw [nonBlank_of_allBlank hblank]; rfl
  | text hbefore htext hafter heq =>
      rw [heq, nonBlank_append, nonBlank_append, nonBlank_of_allBlank hbefore,
        nonBlank_of_allBlank hafter, List.append_nil, List.nil_append, Option.getD_some,
        String.toList_ofList]

/-- Every character of a comment but the blank ones is in its parts, in the same order. -/
theorem Divided.nonBlank_eq (h : Divided texts description marker arguments) :
    nonBlank texts.flatten = nonBlank (description.getD "").toList ++
      (nonBlank marker ++ nonBlank (arguments.getD "").toList) := by
  cases h with
  | unmarked hnone hdescription =>
      rw [hdescription.nonBlank_eq]
      exact (List.append_nil _).symm
  | marked hbefore hmarker hdescription harguments =>
      rw [hdescription.nonBlank_eq, harguments.nonBlank_eq]
      simp [nonBlank_append]

/-! ## The marker -/

theorem exists_word_of_dropFolded? (h : dropFolded? word s = some rest) :
    ∃ read, read.map Char.toLower = word ∧ s = read ++ rest := by
  fun_induction dropFolded? word s with
  | case1 s =>
      obtain rfl := Option.some.inj h
      exact ⟨[], rfl, rfl⟩
  | case2 => cases h
  | case3 word c s ih =>
      obtain ⟨read, hread, rfl⟩ := ih h
      exact ⟨c :: read, by rw [List.map_cons, hread], rfl⟩
  | case4 => cases h

theorem dropFolded?_append {read : List Char} (h : read.map Char.toLower = word) (s : List Char) :
    dropFolded? word (read ++ s) = some s := by
  subst h
  induction read with
  | nil => rfl
  | cons c read ih =>
      rw [List.map_cons, List.cons_append, dropFolded?, if_pos rfl]
      exact ih

/-- The text behind the plural, if there is one. -/
def singular : List Char → List Char
  | c :: more => if isLetterS c then more else c :: more
  | [] => []

theorem afterMarker?_eq (text : List Char) : afterMarker? text =
    match dropFolded? "argument".toList (skipInline text) with
    | none => none
    | some rest =>
        match skipInline (singular rest) with
        | ':' :: rest => some (skipInline rest)
        | _ => none := by
  have hword : "argument".toList = ['a', 'r', 'g', 'u', 'm', 'e', 'n', 't'] := rfl
  rw [afterMarker?, hword]
  cases dropFolded? ['a', 'r', 'g', 'u', 'm', 'e', 'n', 't'] (skipInline text) with
  | none => rfl
  | some rest => cases rest <;> rfl

theorem exists_plural (s : List Char) : ∃ plural,
    (plural = [] ∨ ∃ c, isLetterS c = true ∧ plural = [c]) ∧ s = plural ++ singular s := by
  cases s with
  | nil => exact ⟨[], Or.inl rfl, rfl⟩
  | cons c s =>
      rw [singular]
      split
      · next hc => exact ⟨[c], Or.inr ⟨c, hc, rfl⟩, rfl⟩
      · exact ⟨[], Or.inl rfl, rfl⟩

/-- What is read as a marker is one. -/
theorem exists_marker (h : afterMarker? text = some rest) :
    ∃ marker, IsMarker marker ∧ text = marker ++ rest := by
  rw [afterMarker?_eq] at h
  split at h
  · cases h
  · next folded hfolded =>
      split at h
      · next after hafter =>
          obtain rfl := Option.some.inj h
          obtain ⟨blanks, hblanks, htext⟩ := exists_inline_append text
          obtain ⟨word, hword, hsplit⟩ := exists_word_of_dropFolded? hfolded
          obtain ⟨plural, hplural, hrest⟩ := exists_plural folded
          obtain ⟨gap, hgap, hcolon⟩ := exists_inline_append (singular folded)
          obtain ⟨trail, htrail, hend⟩ := exists_inline_append after
          refine ⟨_, ⟨blanks, word, plural, gap, trail, hblanks, hword, hplural, hgap, htrail, rfl⟩, ?_⟩
          rw [hafter] at hcolon
          rw [htext, hsplit, hrest, hcolon]
          simp only [List.append_assoc, List.cons_append, ← hend]
      · cases h

theorem isInlineBlank_of_toLower {c : Char} (h : c.toLower = 'a') : isInlineBlank c = false := by
  rw [Bool.eq_false_iff]
  intro hc
  simp only [isInlineBlank, Bool.or_eq_true, beq_iff_eq] at hc
  rcases hc with rfl | rfl
  · exact absurd h (by decide)
  · exact absurd h (by decide)

theorem isLetterS_of_isInlineBlank {c : Char} (h : isInlineBlank c = true) : isLetterS c = false := by
  simp only [isInlineBlank, Bool.or_eq_true, beq_iff_eq] at h
  rcases h with rfl | rfl <;> decide

theorem singular_append {plural gap : List Char}
    (hplural : plural = [] ∨ ∃ c, isLetterS c = true ∧ plural = [c]) (hgap : Inline gap)
    (rest : List Char) : singular (plural ++ (gap ++ ':' :: rest)) = gap ++ ':' :: rest := by
  rcases hplural with rfl | ⟨c, hc, rfl⟩
  · cases gap with
    | nil => rfl
    | cons d gap =>
        have hd := isLetterS_of_isInlineBlank (hgap d List.mem_cons_self)
        rw [List.nil_append, List.cons_append, singular, if_neg (by simp [hd])]
  · rw [List.cons_append, singular, if_pos hc, List.nil_append]

/-- No marker is missed. -/
theorem afterMarker?_ne_none (h : BeginsMarker text) : afterMarker? text ≠ none := by
  obtain ⟨_, rest, ⟨blanks, word, plural, gap, trail, hblanks, hword, hplural, hgap, -, rfl⟩, rfl⟩ := h
  obtain ⟨c, more, rfl⟩ : ∃ c more, word = c :: more := by
    refine List.exists_cons_of_ne_nil ?_
    rintro rfl
    cases hword
  have hc : isInlineBlank c = false := isInlineBlank_of_toLower (List.cons.inj hword).1
  have hskip : skipInline (blanks ++ (c :: more ++ (plural ++ (gap ++ ':' :: trail))) ++ rest) =
      (c :: more) ++ (plural ++ (gap ++ ':' :: (trail ++ rest))) := by
    rw [List.append_assoc, hblanks.skipInline_append]
    simp [skipInline, hc]
  have hcolon : skipInline (gap ++ ':' :: (trail ++ rest)) = ':' :: (trail ++ rest) := by
    rw [hgap.skipInline_append]
    simp [skipInline, isInlineBlank]
  rw [afterMarker?_eq, hskip, dropFolded?_append hword]
  dsimp only
  rw [singular_append hplural hgap, hcolon]
  exact Option.some_ne_none _

/-! ## What is read of a comment -/

theorem trimmed_trim (hne : trim s ≠ []) : Trimmed (trim s) := by
  have hnot : ∀ (t : List Char) (c : Char), (t.dropWhile isBlank).head? = some c →
      isBlank c = false := by
    intro t c hc
    have hhead := List.head?_dropWhile_not isBlank t
    rw [hc] at hhead
    simpa using hhead
  refine ⟨hne, fun c hc => ?_, fun c hc => ?_⟩
  · obtain ⟨after, -, hsplit⟩ := exists_trimEnd_append_blank (trimStart s)
    refine hnot s c ?_
    rw [← trimStart, hsplit, ← trim, List.head?_append, hc]
    rfl
  · rw [trim, trimEnd, List.getLast?_reverse] at hc
    exact hnot _ c hc

theorem joins_joinTexts (texts : List (List Char)) : Joins texts (joinTexts texts) := by
  obtain ⟨before, hbefore, hstart⟩ :=
    exists_blank_append_trimStart (List.intercalate ['\n'] texts)
  obtain ⟨after, hafter, hend⟩ :=
    exists_trimEnd_append_blank (trimStart (List.intercalate ['\n'] texts))
  rw [hend, ← trim] at hstart
  rw [joinTexts]
  split
  · next hempty =>
      rw [List.isEmpty_iff.mp hempty, List.nil_append] at hstart
      refine .blank ?_
      rw [hstart, allBlank, List.all_append, ← allBlank, hbefore]
      exact hafter
  · next hne => exact .text hbefore (trimmed_trim (by simpa using hne)) hafter hstart

/-- A comment is divided at the first of its lines that start with a marker. -/
theorem splitAtMarker_cases (texts : List (List Char)) :
    ((∀ text ∈ texts, ¬ BeginsMarker text) ∧ splitAtMarker texts = (texts, none)) ∨
      ∃ before marker rest after, (∀ text ∈ before, ¬ BeginsMarker text) ∧ IsMarker marker ∧
        texts = before ++ (marker ++ rest) :: after ∧
        splitAtMarker texts = (before, some (rest :: after)) := by
  induction texts with
  | nil => exact Or.inl ⟨fun text htext => absurd htext List.not_mem_nil, rfl⟩
  | cons text texts ih =>
      rw [splitAtMarker]
      cases hmarker : afterMarker? text with
      | some rest =>
          obtain ⟨marker, his, rfl⟩ := exists_marker hmarker
          exact Or.inr ⟨[], marker, rest, texts, fun text htext => absurd htext List.not_mem_nil, his,
            rfl, rfl⟩
      | none =>
          have hnot : ¬ BeginsMarker text := fun h => afterMarker?_ne_none h hmarker
          rcases ih with ⟨hnone, hsplit⟩ | ⟨before, marker, rest, after, hnone, his, rfl, hsplit⟩
          · exact Or.inl ⟨List.forall_mem_cons.mpr ⟨hnot, hnone⟩, by rw [hsplit]⟩
          · exact Or.inr ⟨text :: before, marker, rest, after, List.forall_mem_cons.mpr ⟨hnot, hnone⟩,
              his, rfl, by rw [hsplit]⟩

/-- **What is read of a comment is what it says.** -/
theorem divided_ofTexts (texts : List (List Char)) : ∃ marker,
    Divided texts (Doc.ofTexts texts).description marker (Doc.ofTexts texts).arguments := by
  rcases splitAtMarker_cases texts with
    ⟨hnone, hsplit⟩ | ⟨before, marker, rest, after, hnone, his, htexts, hsplit⟩
  · rw [Doc.ofTexts, hsplit]
    exact ⟨[], .unmarked hnone (joins_joinTexts texts)⟩
  · rw [Doc.ofTexts, hsplit, htexts]
    exact ⟨marker, .marked hnone his (joins_joinTexts before) (joins_joinTexts (rest :: after))⟩

/-! ## Numbered lines -/

/-- Lines that are numbered down to one. -/
def CountDown : List Line → Prop
  | [] => True
  | l :: above => l.number = above.length + 1 ∧ CountDown above

variable {above above' : List Line} {l : Line} {file : String} {sites : List Site}

theorem CountDown.of_append (h : CountDown (above ++ above')) :
    CountDown above' ∧ ∀ l ∈ above, above'.length < l.number := by
  induction above with
  | nil => exact ⟨h, fun l hl => absurd hl List.not_mem_nil⟩
  | cons l above ih =>
      obtain ⟨hnumber, hrest⟩ := h
      obtain ⟨hcount, hlt⟩ := ih hrest
      have hlength : (above ++ above').length = above.length + above'.length := List.length_append
      have hnumber : l.number = (above ++ above').length + 1 := hnumber
      exact ⟨hcount, List.forall_mem_cons.mpr ⟨by omega, hlt⟩⟩

theorem CountDown.number_le (h : CountDown above) : ∀ l ∈ above, l.number ≤ above.length := by
  induction above with
  | nil => exact fun l hl => absurd hl List.not_mem_nil
  | cons l above ih =>
      obtain ⟨hnumber, hrest⟩ := h
      refine List.forall_mem_cons.mpr ⟨Nat.le_of_eq hnumber, fun l' hl' => ?_⟩
      exact Nat.le_succ_of_le (ih hrest l' hl')

theorem countDown_scan (above : List Line) (o : Open) (raws : List (List Char)) (h : CountDown above) :
    CountDown ((o.scan (above.length + 1) raws).reverse ++ above) := by
  induction raws generalizing o above with
  | nil => exact h
  | cons raw raws ih =>
      rw [Open.scan, List.reverse_cons, List.append_assoc]
      exact ih (_ :: above) _ ⟨rfl, h⟩

/-- The lines of a script are numbered up from one. -/
theorem countDown_reverse_scan (text : String) : CountDown (scan text).reverse := by
  have hcount : CountDown ((scan text).reverse ++ []) :=
    countDown_scan [] Open.nothing (lines text.toList) trivial
  rw [List.append_nil] at hcount
  exact hcount

/-! ## The block above a header -/

theorem isDocLine_of_mem_takeWhile (hl : l ∈ above.takeWhile isDocLine) : isDocLine l = true :=
  List.all_eq_true.mp List.all_takeWhile l hl

/-- Between the block and the start of the script no line is left that the block could take. -/
theorem startBlock_below (h : CountDown above) (name : List Char) :
    (Opening.below above (above.length + 1) name).startBlock =
      (above.dropWhile isDocLine).length + 1 := by
  have hsplit : above.takeWhile isDocLine ++ above.dropWhile isDocLine = above :=
    List.takeWhile_append_dropWhile
  show ((above.takeWhile isDocLine).reverse.head?.map Line.number).getD (above.length + 1) = _
  rw [List.head?_reverse]
  rcases List.eq_nil_or_concat (above.takeWhile isDocLine) with hnil | ⟨block, l, hblock⟩
  · rw [hnil, List.nil_append] at hsplit
    rw [hnil, hsplit]
    rfl
  · rw [List.concat_eq_append] at hblock
    rw [hblock, List.append_assoc] at hsplit
    rw [← hsplit] at h
    obtain ⟨hnumber, -⟩ := h.of_append.1
    rw [hblock, List.getLast?_concat]
    exact hnumber

/-- The lines of the block are those between its first line and the header. -/
theorem filter_between (h : CountDown above) :
    above.filter (fun l => decide ((above.dropWhile isDocLine).length + 1 ≤ l.number)) =
      above.takeWhile isDocLine := by
  have hsplit : above.takeWhile isDocLine ++ above.dropWhile isDocLine = above :=
    List.takeWhile_append_dropWhile
  generalize hblock : above.takeWhile isDocLine = block at hsplit ⊢
  generalize hrest : above.dropWhile isDocLine = rest at hsplit ⊢
  subst hsplit
  obtain ⟨hcount, hlt⟩ := h.of_append
  rw [List.filter_append, List.filter_eq_self.mpr, List.filter_eq_nil_iff.mpr, List.append_nil]
  · intro l hl
    have hle := hcount.number_le l hl
    simp only [decide_eq_true_eq]
    omega
  · intro l hl
    exact decide_eq_true (hlt l hl)

/-- The block starts as far above as only comment lines follow. -/
theorem startBlock_le_iff (h : CountDown above) {b : Nat} (hpos : 1 ≤ b) :
    (above.dropWhile isDocLine).length + 1 ≤ b ↔ ∀ l ∈ above, b ≤ l.number → isDocLine l = true := by
  have hsplit : above.takeWhile isDocLine ++ above.dropWhile isDocLine = above :=
    List.takeWhile_append_dropWhile
  have hcount := h
  rw [← hsplit] at hcount
  obtain ⟨hcount, -⟩ := hcount.of_append
  constructor
  · intro hle l hl hb
    rw [← hsplit] at hl
    rcases List.mem_append.mp hl with hl | hl
    · exact isDocLine_of_mem_takeWhile hl
    · have hnumber := hcount.number_le l hl
      omega
  · intro hall
    by_contra hlt
    -- The line above the block would belong to it.
    obtain ⟨l, rest, hrest⟩ : ∃ l rest, above.dropWhile isDocLine = l :: rest := by
      refine List.exists_cons_of_ne_nil fun hnil => ?_
      rw [hnil] at hlt
      exact hlt hpos
    have hnot : isDocLine l = false := by
      have hhead := List.head?_dropWhile_not isDocLine above
      rw [hrest] at hhead
      simpa using hhead
    have hmem : l ∈ above := (List.dropWhile_sublist _).mem (hrest ▸ List.mem_cons_self)
    rw [hrest] at hcount hlt
    have hnumber : l.number = rest.length + 1 := hcount.1
    have hdoc := hall l hmem (by rw [List.length_cons] at hlt; omega)
    rw [hnot] at hdoc
    cases hdoc

/-! ## Scripts -/

/-- What the lines between the first line of a definition's comment and its header say. -/
def blockTexts (text : String) (d : Definition) : List (List Char) :=
  ((scan text).filter fun l => decide (d.startBlock ≤ l.number) && decide (l.number < d.start)).filterMap
    Line.commentText

/-- A definition takes all comment lines directly above its header, and what they say. -/
structure TakesComment (text : String) (d : Definition) : Prop where
  startBlock_pos : 1 ≤ d.startBlock
  startBlock_le : d.startBlock ≤ d.start
  /-- Only comment lines stand between `b` and the header exactly if the block starts there or above. -/
  startBlock_le_iff : ∀ b, 1 ≤ b → b ≤ d.start → (d.startBlock ≤ b ↔
    ∀ l ∈ scan text, b ≤ l.number → l.number < d.start → isDocLine l = true)
  divided : ∃ marker, Divided (blockTexts text d) d.description marker d.arguments ∧
    nonBlank (blockTexts text d).flatten = nonBlank (d.description.getD "").toList ++
      (nonBlank marker ++ nonBlank (d.arguments.getD "").toList)

/-- The lines before a line of a script are those above it. -/
theorem filter_above {text : String} {later : List Line}
    (hlines : later ++ l :: above = (scan text).reverse) :
    (scan text).filter (fun l' => decide (l'.number < l.number)) = above.reverse := by
  have hcount := countDown_reverse_scan text
  rw [← hlines] at hcount
  obtain ⟨⟨hnumber, habove⟩, hlater⟩ := hcount.of_append
  rw [List.length_cons] at hlater
  have hscan : scan text = (later ++ l :: above).reverse := by rw [hlines, List.reverse_reverse]
  rw [hscan, List.filter_reverse, List.filter_append, List.filter_eq_nil_iff.mpr, List.nil_append,
    List.filter_cons_of_neg (by simp), List.filter_eq_self.mpr]
  · intro l' hl'
    have hle := habove.number_le l' hl'
    simp only [decide_eq_true_eq]
    omega
  · intro l' hl'
    have hlt := hlater l' hl'
    simp only [decide_eq_true_eq]
    omega

theorem blockTexts_eq {text : String} {d : Definition} {later : List Line}
    (hlines : later ++ l :: above = (scan text).reverse) (hstart : d.start = l.number)
    (hblock : d.startBlock = (above.dropWhile isDocLine).length + 1) :
    blockTexts text d = (blockAbove above).filterMap Line.commentText := by
  have hcount := countDown_reverse_scan text
  rw [← hlines] at hcount
  have habove : CountDown above := hcount.of_append.1.2
  rw [blockTexts, ← List.filter_filter, hstart, filter_above hlines, hblock, List.filter_reverse,
    filter_between habove]
  rfl

/-- A header at the start of its line takes the comment above it. -/
theorem takesComment_of_front_nil {text : String} {t : Site} (hpoint : t.point.In (scan text).reverse)
    (hfront : t.point.front = []) : TakesComment text (t.definition file) := by
  obtain ⟨later, hlines⟩ := hpoint.suffix
  have hlines : later ++ t.point.line :: t.point.above = (scan text).reverse := hlines
  have hcount := countDown_reverse_scan text
  rw [← hlines] at hcount
  -- The numbers of the lines above count down from the one of the header.
  obtain ⟨hnumber, habove⟩ := hcount.of_append.1
  have hopening : t.opening = Opening.below t.point.above t.point.line.number t.name.text := by
    rw [Heading.opening, Point.opening, if_pos hfront]
  have hstart : (t.definition file).start = t.point.line.number := t.toHeading.start_opening
  have hblock : (t.definition file).startBlock =
      (t.point.above.dropWhile isDocLine).length + 1 := by
    show t.opening.startBlock = _
    rw [hopening, hnumber, startBlock_below habove]
  have hdoc : t.opening.doc = Doc.ofTexts (blockTexts text (t.definition file)) := by
    rw [blockTexts_eq hlines hstart hblock, hopening]
    rfl
  refine ⟨by omega, ?_, fun b hpos hb => ?_, ?_⟩
  · have hle : (t.point.above.dropWhile isDocLine).length ≤ t.point.above.length :=
      (List.dropWhile_sublist _).length_le
    omega
  · rw [hblock, startBlock_le_iff habove hpos, hstart]
    have hmem : ∀ l, l ∈ t.point.above ↔ l ∈ scan text ∧ l.number < t.point.line.number := by
      intro l
      rw [← List.mem_reverse, ← filter_above hlines, List.mem_filter, decide_eq_true_eq]
    constructor
    · intro hall l hl hnumber hlt
      exact hall l ((hmem l).mpr ⟨hl, hlt⟩) hnumber
    · intro hall l hl hnumber
      obtain ⟨hl, hlt⟩ := (hmem l).mp hl
      exact hall l hl hnumber hlt
  · obtain ⟨marker, hdivided⟩ := divided_ofTexts (blockTexts text (t.definition file))
    rw [← hdoc] at hdivided
    exact ⟨marker, hdivided, hdivided.nonBlank_eq⟩

/-- **A definition takes the comment above it and nothing of it is lost**, if its header begins its
line; behind the end of another definition in the same line it takes none. -/
theorem doc_comments_of_extract {file text : String} {found : List Definition}
    (h : extract file text = .ok found) :
    ∃ sites : List Site, found = (sites.map (Site.definition file)).reverse ∧
      Listed (scan text).reverse (maskedCode text) sites ∧
      ∀ t ∈ sites, (t.point.front = [] → TakesComment text (t.definition file)) ∧
        ∀ e ∈ sites, e.closing.lines = t.point.lines →
          e.closing.front.length < t.point.front.length →
          (t.definition file).startBlock = (t.definition file).start ∧
            (t.definition file).description = none ∧ (t.definition file).arguments = none := by
  obtain ⟨sites, hfound, hlisted⟩ := exists_sites_of_extract h
  refine ⟨sites, hfound, hlisted, fun t ht => ⟨?_, fun e _ _ hlt => ?_⟩⟩
  · obtain ⟨earlier, -, hstands, -⟩ := hlisted.of_mem t ht
    exact takesComment_of_front_nil hstands.point_in
  · have hfront : t.point.front ≠ [] := by
      intro hnil
      rw [hnil] at hlt
      exact absurd hlt (Nat.not_lt_zero _)
    have hopening : t.opening = Opening.bare t.point.line.number t.name.text := by
      rw [Heading.opening, Point.opening, if_neg hfront]
    rw [Site.definition, hopening]
    exact ⟨rfl, rfl, rfl⟩

/-- A comment below the line that names the interpreter, with a blank comment line before its marker,
and two definitions in one line. -/
theorem doc_comments_of_neighbours :
    let text := "#!/bin/sh\n# One.\n#\n# argument : two\nf() \x7b :; \x7d; g() \x7b :; \x7d\n"
    let found : List Definition :=
      [⟨"f", some "two", some "One.", "a.sh", 2, 5, 5⟩, ⟨"g", none, none, "a.sh", 5, 5, 5⟩]
    extract "a.sh" text = .ok found ∧ ∃ sites : List Site,
      found = (sites.map (Site.definition "a.sh")).reverse ∧
      ∀ t ∈ sites, t.point.front = [] → TakesComment text (t.definition "a.sh") := by
  intro text found
  have hextract : extract "a.sh" text = .ok found := by decide +kernel
  obtain ⟨sites, hfound, -, htakes⟩ := doc_comments_of_extract hextract
  exact ⟨hextract, sites, hfound, fun t ht => (htakes t ht).1⟩

end

end ShellIndex.Definition
