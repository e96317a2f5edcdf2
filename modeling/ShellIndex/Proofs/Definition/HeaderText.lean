import ShellIndex.Proofs.Definition.Written

set_option autoImplicit false

/-! # The text of a header

A header is the keyword and a name, with or without a pair of parentheses behind it, or a name with
parentheses (`HeaderText`). What the reader of headers reads is the text of a header
(`Header.exists_headerText`), and it misses none (`Header.read?_of_headerText`). Up to the brace that
opens the body, a header is read the same whatever follows it (`Header.read?_brace`).
-/

namespace ShellIndex.Definition

open Text

/-! ## Texts -/

/-- A text with nothing but inline blanks. -/
def Inline (s : List Char) : Prop := ∀ c ∈ s, isInlineBlank c = true

/-- An empty pair of parentheses, with inline blanks before it and in it. -/
def IsParens (s : List Char) : Prop :=
  ∃ blanks inner, Inline blanks ∧ Inline inner ∧ s = blanks ++ '(' :: (inner ++ [')'])

/-- A header that defines `name`, and what follows it: a name goes on as long as it can. -/
inductive HeaderText (name : FunctionName) : List Char → List Char → Prop
  /-- `function name` -/
  | keyword {blanks rest : List Char} (hne : blanks ≠ []) (hblanks : Inline blanks)
      (hrest : ∀ c, rest.head? = some c → isNamePart c = false) :
      HeaderText name ("function".toList ++ (blanks ++ name.text)) rest
  /-- `function name ()` -/
  | keywordParens {blanks parens rest : List Char} (hne : blanks ≠ []) (hblanks : Inline blanks)
      (hparens : IsParens parens) :
      HeaderText name ("function".toList ++ (blanks ++ (name.text ++ parens))) rest
  /-- `name ()` -/
  | parens {parens rest : List Char} (hparens : IsParens parens) :
      HeaderText name (name.text ++ parens) rest

/-- A text that begins with a header for `name`, after inline blanks. -/
def BeginsHeader (name : FunctionName) (s : List Char) : Prop :=
  ∃ blanks text rest, Inline blanks ∧ HeaderText name text rest ∧ s = blanks ++ (text ++ rest)

/-! ## Inline blanks -/

section
variable {s t rest parens blanks : List Char} {name : FunctionName}

theorem Inline.isBlank (h : Inline s) : ∀ c ∈ s, isBlank c = true := fun c hc =>
  isBlank_of_isInlineBlank (h c hc)

theorem exists_inline_append (s : List Char) : ∃ blanks, Inline blanks ∧ s = blanks ++ skipInline s :=
  ⟨s.takeWhile isInlineBlank, fun c hc => List.all_eq_true.mp List.all_takeWhile c hc,
    List.takeWhile_append_dropWhile.symm⟩

theorem Inline.skipInline_append (h : Inline blanks) (s : List Char) :
    skipInline (blanks ++ s) = skipInline s :=
  List.dropWhile_append_of_pos h

theorem skipInline_of_head? (h : ∀ c, s.head? = some c → isInlineBlank c = false) :
    skipInline s = s := by
  cases s with
  | nil => rfl
  | cons c s => rw [skipInline, List.dropWhile_cons_of_neg (by simp [h c rfl])]

/-- Of what follows a header only the first character matters. -/
theorem HeaderText.of_head? {text rest' : List Char} (h : HeaderText name text rest)
    (hhead : rest'.head? = rest.head?) : HeaderText name text rest' := by
  cases h with
  | keyword hne hblanks hrest => exact .keyword hne hblanks (by rwa [hhead])
  | keywordParens hne hblanks hparens => exact .keywordParens hne hblanks hparens
  | parens hparens => exact .parens hparens

/-! ## Parentheses -/

theorem IsParens.exists_head (h : IsParens parens) :
    ∃ c, parens.head? = some c ∧ isNamePart c = false := by
  obtain ⟨blanks, inner, hblanks, -, rfl⟩ := h
  cases blanks with
  | nil => exact ⟨'(', rfl, by decide⟩
  | cons c blanks =>
      refine ⟨c, rfl, Bool.eq_false_iff.mpr fun hc => ?_⟩
      have hinline := isInlineBlank_of_isNamePart hc
      rw [hblanks c List.mem_cons_self] at hinline
      cases hinline

theorem IsParens.head?_append (h : IsParens parens) (rest : List Char) :
    ∀ c, (parens ++ rest).head? = some c → isNamePart c = false := by
  intro c hc
  obtain ⟨d, hd, hpart⟩ := h.exists_head
  rw [List.head?_append, hd] at hc
  obtain rfl := Option.some.inj hc
  exact hpart

namespace Header

theorem afterParens?_append (h : IsParens parens) (rest : List Char) :
    afterParens? (parens ++ rest) = some rest := by
  obtain ⟨blanks, inner, hblanks, hinner, rfl⟩ := h
  have hopen : skipInline (blanks ++ '(' :: (inner ++ [')']) ++ rest) =
      '(' :: (inner ++ ')' :: rest) := by
    rw [List.append_assoc, hblanks.skipInline_append]
    simp [skipInline, isInlineBlank]
  have hclose : skipInline (inner ++ ')' :: rest) = ')' :: rest := by
    rw [hinner.skipInline_append]
    simp [skipInline, isInlineBlank]
  simp only [afterParens?, hopen, hclose]

theorem exists_parens (h : afterParens? s = some rest) :
    ∃ parens, IsParens parens ∧ s = parens ++ rest := by
  unfold afterParens? at h
  split at h
  · next inner hs =>
      split at h
      · next rest' hi =>
          obtain rfl := Option.some.inj h
          obtain ⟨blanks, hblanks, hsplit⟩ := exists_inline_append s
          obtain ⟨more, hmore, hinner⟩ := exists_inline_append inner
          rw [hs] at hsplit
          rw [hi] at hinner
          refine ⟨blanks ++ '(' :: (more ++ [')']), ⟨blanks, more, hblanks, hmore, rfl⟩, ?_⟩
          rw [hsplit, hinner]
          simp
      · cases h
  · cases h

/-! ## Keywords and names -/

theorem afterKeyword?_append (hne : blanks ≠ []) (hblanks : Inline blanks)
    (hs : ∀ c, s.head? = some c → isInlineBlank c = false) :
    afterKeyword? ("function".toList ++ (blanks ++ s)) = some s := by
  obtain ⟨c, more, rfl⟩ := List.exists_cons_of_ne_nil hne
  have hc : isInlineBlank c = true := hblanks c List.mem_cons_self
  have hmore : Inline more := fun d hd => hblanks d (List.mem_cons_of_mem c hd)
  show (if isInlineBlank c then some (skipInline (more ++ s)) else none) = some s
  rw [if_pos hc, hmore.skipInline_append, skipInline_of_head? hs]

theorem exists_keyword (h : afterKeyword? s = some rest) :
    ∃ blanks, blanks ≠ [] ∧ Inline blanks ∧ s = "function".toList ++ (blanks ++ rest) := by
  unfold afterKeyword? at h
  split at h
  · next c more =>
      split at h
      · next hc =>
          obtain rfl := Option.some.inj h
          obtain ⟨blanks, hblanks, hmore⟩ := exists_inline_append more
          refine ⟨c :: blanks, List.cons_ne_nil _ _, List.forall_mem_cons.mpr ⟨hc, hblanks⟩, ?_⟩
          rw [List.cons_append, ← hmore]
          rfl
      · cases h
  · cases h

/-- What the reader takes for a name is one, and it goes on as long as it can. -/
theorem exists_name {read : List Char} (h : readName? s = some (read, rest)) :
    ∃ name : FunctionName, name.text = read ∧ s = read ++ rest ∧
      ∀ c, rest.head? = some c → isNamePart c = false := by
  have hname := isName_of_readName? h
  cases s with
  | nil => cases h
  | cons c s =>
      rw [readName?] at h
      split at h
      · next hstart =>
          obtain ⟨rfl, rfl⟩ := Prod.mk.inj (Option.some.inj h)
          have hdash : (c :: s.takeWhile isNamePart).head? ≠ some '-' := by
            intro hc
            obtain rfl : c = '-' := Option.some.inj hc
            exact absurd hstart (by decide)
          refine ⟨⟨_, hname.ne_nil, hdash, hname.plain⟩, rfl, ?_, fun d hd => ?_⟩
          · rw [List.cons_append, List.takeWhile_append_dropWhile]
          · have hnot := List.head?_dropWhile_not isNamePart s
            rw [hd] at hnot
            simpa using hnot
      · cases h

theorem head?_name_append (name : FunctionName) (t : List Char) :
    ∀ c, (name.text ++ t).head? = some c → isInlineBlank c = false := by
  intro c hc
  obtain ⟨d, s, hs, hd, -⟩ := name.exists_cons
  rw [hs] at hc
  obtain rfl : d = c := Option.some.inj hc
  exact isInlineBlank_of_isNamePart (by simp [isNamePart, hd])

/-- The keyword is what stands before the first inline blank. -/
theorem afterKeyword?_eq_some (h : afterKeyword? s = some rest) :
    s.takeWhile (fun c => !isInlineBlank c) = "function".toList ∧
      rest = skipInline (s.dropWhile fun c => !isInlineBlank c) := by
  have hletters : ("function".toList.all fun c => !isInlineBlank c) = true := by decide
  unfold afterKeyword? at h
  split at h
  · next c more =>
      split at h
      · next hc =>
          obtain rfl := Option.some.inj h
          show ("function".toList ++ c :: more).takeWhile _ = _ ∧
            _ = skipInline (("function".toList ++ c :: more).dropWhile _)
          rw [List.takeWhile_append_of_pos (List.all_eq_true.mp hletters),
            List.dropWhile_append_of_pos (List.all_eq_true.mp hletters),
            List.takeWhile_cons_of_neg (by simp [hc]), List.dropWhile_cons_of_neg (by simp [hc])]
          refine ⟨rfl, ?_⟩
          rw [skipInline, skipInline, List.dropWhile_cons_of_pos hc]
      · cases h
  · cases h

/-- A name with parentheses is no header with the keyword, not even if it is the keyword. -/
theorem readKeywordForm?_parens (name : FunctionName) (h : IsParens parens) (rest : List Char) :
    readKeywordForm? (name.text ++ (parens ++ rest)) = none := by
  rw [readKeywordForm?]
  cases hafter : afterKeyword? (name.text ++ (parens ++ rest)) with
  | none => rfl
  | some after =>
      obtain ⟨blanks, inner, hblanks, -, rfl⟩ := h
      have hpart : ∀ c ∈ name.text, (!isInlineBlank c) = true := fun c hc => by
        simp [isInlineBlank_of_isNamePart (name.plain c hc)]
      obtain ⟨hkeyword, rfl⟩ := afterKeyword?_eq_some hafter
      rw [List.takeWhile_append_of_pos hpart] at hkeyword
      rw [List.dropWhile_append_of_pos hpart]
      cases blanks with
      | nil =>
          -- The parenthesis would belong to the keyword.
          have hparen : '(' ∈ "function".toList := by
            rw [← hkeyword]
            exact List.mem_append_right _ (by simp [isInlineBlank])
          exact absurd hparen (by decide)
      | cons b blanks =>
          have hb : isInlineBlank b = true := hblanks b List.mem_cons_self
          -- Behind the keyword stands the parenthesis, which starts no name.
          have hopen : skipInline ((b :: blanks ++ '(' :: (inner ++ [')']) ++ rest).dropWhile
              fun c => !isInlineBlank c) = '(' :: (inner ++ ')' :: rest) := by
            rw [List.append_assoc, List.cons_append,
              List.dropWhile_cons_of_neg (by simp [hb]), ← List.cons_append,
              hblanks.skipInline_append]
            simp [skipInline, isInlineBlank]
          rw [hopen]
          rfl

/-! ## Headers -/

/-- The name and the text behind it, in either form. -/
theorem readForm?_append {text : List Char} (h : HeaderText name text rest) :
    skipInline (text ++ rest) = text ++ rest ∧
      ∃ after, (readKeywordForm? (text ++ rest)).or (readParensForm? (text ++ rest)) =
        some (name.text, after) ∧ (after = rest ∨ afterParens? rest = some after) := by
  cases h with
  | @keyword blanks rest hne hblanks hrest =>
      have hname := name.readName?_append hrest
      refine ⟨rfl, (afterParens? rest).getD rest, ?_, ?_⟩
      · rw [List.append_assoc, List.append_assoc, readKeywordForm?,
          afterKeyword?_append hne hblanks (head?_name_append name rest)]
        dsimp only
        rw [hname]
        rfl
      · cases afterParens? rest with
        | none => exact Or.inl rfl
        | some after => exact Or.inr rfl
  | @keywordParens blanks parens rest hne hblanks hparens =>
      have hname := name.readName?_append (hparens.head?_append rest)
      refine ⟨rfl, rest, ?_, Or.inl rfl⟩
      rw [List.append_assoc, List.append_assoc, List.append_assoc, readKeywordForm?,
        afterKeyword?_append hne hblanks (head?_name_append name (parens ++ rest))]
      dsimp only
      rw [hname, Option.map_some, afterParens?_append hparens]
      rfl
  | @parens parens rest hparens =>
      have hname := name.readName?_append (hparens.head?_append rest)
      refine ⟨?_, rest, ?_, Or.inl rfl⟩
      · rw [List.append_assoc]
        exact skipInline_of_head? (head?_name_append name (parens ++ rest))
      · rw [List.append_assoc, readKeywordForm?_parens name hparens rest, readParensForm?, hname]
        dsimp only
        rw [afterParens?_append hparens]
        rfl

/-- **No header is missed**, and it is read with its name. -/
theorem read?_of_headerText {text : List Char} (hblanks : Inline blanks)
    (h : HeaderText name text rest) :
    ∃ header, read? (blanks ++ (text ++ rest)) = some header ∧ header.name = name.text := by
  obtain ⟨hskip, after, hform, -⟩ := readForm?_append h
  refine ⟨ofNamed (name.text, after), ?_, name_ofNamed _⟩
  simp only [read?, hblanks.skipInline_append, hskip, hform, Option.map_some]

/-- A header with the brace of its body is read up to the brace, whatever follows it. -/
theorem read?_brace {text gap : List Char} (hblanks : Inline blanks) (hgap : Inline gap)
    (h : HeaderText name text (gap ++ '{' :: rest)) :
    read? (blanks ++ (text ++ (gap ++ '{' :: rest))) = some ⟨name.text, true, rest⟩ := by
  have hbrace : skipInline (gap ++ '{' :: rest) = '{' :: rest := by
    rw [hgap.skipInline_append]
    simp [skipInline, isInlineBlank]
  obtain ⟨hskip, after, hform, hafter⟩ := readForm?_append h
  have hnone : afterParens? (gap ++ '{' :: rest) = none := by
    rw [afterParens?, hbrace]
    rfl
  rw [hnone] at hafter
  obtain rfl : after = gap ++ '{' :: rest := hafter.resolve_right (by simp)
  simp only [read?, hblanks.skipInline_append, hskip, hform, Option.map_some, ofNamed, hbrace]

/-- What the form of a header leaves is what follows the text of a header. -/
theorem exists_headerText_of_form {after : List Char} {read : List Char}
    (h : (readKeywordForm? s).or (readParensForm? s) = some (read, after)) :
    ∃ (name : FunctionName) (text : List Char), name.text = read ∧ HeaderText name text after ∧
      s = text ++ after := by
  rcases Option.or_eq_some_iff.mp h with h | ⟨-, h⟩
  · unfold readKeywordForm? at h
    split at h
    · cases h
    · next s' hs =>
        obtain ⟨⟨read', rest⟩, hread, hpair⟩ := Option.map_eq_some_iff.mp h
        obtain ⟨rfl, rfl⟩ := Prod.mk.inj hpair
        obtain ⟨blanks, hne, hblanks, rfl⟩ := exists_keyword hs
        obtain ⟨name, hname, rfl, hrest⟩ := exists_name hread
        cases hparens : afterParens? rest with
        | none =>
            refine ⟨name, _, hname, .keyword hne hblanks hrest, ?_⟩
            rw [hname, Option.getD_none, List.append_assoc, List.append_assoc]
        | some after =>
            obtain ⟨parens, hempty, rfl⟩ := exists_parens hparens
            refine ⟨name, _, hname, .keywordParens hne hblanks hempty, ?_⟩
            rw [hname, Option.getD_some, List.append_assoc, List.append_assoc, List.append_assoc]
  · unfold readParensForm? at h
    split at h
    · cases h
    · next read' rest hread =>
        obtain ⟨after', hafter, hpair⟩ := Option.map_eq_some_iff.mp h
        obtain ⟨rfl, rfl⟩ := Prod.mk.inj hpair
        obtain ⟨name, hname, rfl, -⟩ := exists_name hread
        obtain ⟨parens, hempty, rfl⟩ := exists_parens hafter
        refine ⟨name, _, hname, .parens hempty, ?_⟩
        rw [hname, List.append_assoc]

/-- **What is read as a header is the text of one**, after inline blanks and up to the brace that
opens the body, if it follows. -/
theorem exists_headerText {header : Header} (h : read? s = some header) :
    ∃ (name : FunctionName) (blanks text gap : List Char), header.name = name.text ∧
      Inline blanks ∧ Inline gap ∧
      HeaderText name text
        (gap ++ if header.opensBody then '{' :: header.rest else header.rest) ∧
      s = blanks ++ (text ++ (gap ++ if header.opensBody then '{' :: header.rest else header.rest)) := by
  obtain ⟨blanks, hblanks, hs⟩ := exists_inline_append s
  rw [read?] at h
  obtain ⟨⟨read, after⟩, hform, rfl⟩ := Option.map_eq_some_iff.mp h
  obtain ⟨name, text, hname, htext, hsplit⟩ := exists_headerText_of_form hform
  obtain ⟨gap, hgap, hafter⟩ := exists_inline_append after
  have hbrace : skipInline after = if (ofNamed (read, after)).opensBody then
      '{' :: (ofNamed (read, after)).rest else (ofNamed (read, after)).rest := by
    rw [ofNamed]
    split
    · next hopen => exact hopen
    · rfl
  rw [hbrace] at hafter
  refine ⟨name, blanks, text, gap, ?_, hblanks, hgap, ?_, ?_⟩
  · rw [name_ofNamed, hname]
  · rw [← hafter]
    exact htext
  · rw [← hafter, ← hsplit]
    exact hs

end Header

end

end ShellIndex.Definition
