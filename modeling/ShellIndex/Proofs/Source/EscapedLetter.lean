import ShellIndex.Proofs.Source.Insertion
import ShellIndex.Proofs.Text.LastLine

set_option autoImplicit false

/-! # A backslash before a letter

A backslash in code leaves the letter behind it visible, and itself too. A script in which one more
backslash stands before a letter in code is read as without it, up to that one character of the view
(`Place.At.scan_escape`).

Before the backslash, a step looks ahead at the next characters: at the word of a here-document, and
at the characters that make a mark of two. None of them tells a letter from a backslash, unless the
letter belongs to the word of a here-document, and then it is not read as code.
-/

namespace ShellIndex.Source

open Text

/-- Whether a character stays visible behind a backslash in code. -/
def isNameLetter (c : Char) : Bool := isAlphanumeric c || c == '_'

section
variable {c : Char}

theorem isInert_of_isNameLetter (h : isNameLetter c = true) : isInert c = true := by
  rw [isNameLetter, Bool.or_eq_true, beq_iff_eq] at h
  rcases h with h | rfl
  · exact isInert_of_isAlphanumeric h
  · decide

theorem isBlank_of_isNameLetter (h : isNameLetter c = true) : isBlank c = false := by
  rw [isNameLetter, Bool.or_eq_true, beq_iff_eq] at h
  rcases h with h | rfl
  · exact isBlank_of_isAlphanumeric h
  · decide

theorem ne_of_isNameLetter (h : isNameLetter c = true) {d : Char} (hd : d ∈ cutMarks) : c ≠ d := by
  rw [isNameLetter, Bool.or_eq_true, beq_iff_eq] at h
  rcases h with h | rfl
  · exact ne_of_isAlphanumeric h hd
  · rintro rfl
    exact absurd hd (by decide)

theorem separatesWords_of_isNameLetter (h : isNameLetter c = true) : separatesWords c = false := by
  have hmarks : ∀ d ∈ [';', '&', '|', '(', ')', '<', '>'], d ∈ cutMarks := by simp [cutMarks]
  have hne : ∀ d ∈ [';', '&', '|', '(', ')', '<', '>'], c ≠ d := fun d hd =>
    ne_of_isNameLetter h (hmarks d hd)
  simp only [List.mem_cons, List.not_mem_nil, or_false, forall_eq_or_imp, forall_eq] at hne
  simp [separatesWords, isOperator, isBlank_of_isNameLetter h, hne]

end

/-! ## What is read ahead -/

namespace Heredoc
variable {c : Char} {s rest : List Char}

/-- A delimiter word that ends within a text is the same whatever follows the text. A letter behind a
word that does not end there belongs to the word. -/
theorem readWord_append (hc : isNameLetter c = true) (s rest : List Char) {quote : Option Char}
    (hquote : quote ≠ some c) :
    (∀ rest', readWord quote (s ++ rest') = readWord quote (s ++ c :: rest)) ∨
      (readWord quote (s ++ c :: rest)).1 ≠ [] ∧ s.length < (readWord quote (s ++ c :: rest)).2 := by
  have hmark : ∀ {d : Char}, d = '\'' ∨ d = '"' → some d ≠ some c := by
    rintro d hd e
    obtain rfl := Option.some.inj e
    rcases hd with rfl | rfl <;> exact absurd rfl (ne_of_isNameLetter hc (by decide))
  have hnone : none ≠ some c := nofun
  induction s generalizing quote with
  | nil =>
      refine Or.inr ?_
      rw [List.nil_append]
      cases quote with
      | none =>
          have hslash : c ≠ '\\' := ne_of_isNameLetter hc (by decide)
          have hbreak : ¬ separatesWords c = true := by simp [separatesWords_of_isNameLetter hc]
          rw [readWord, if_neg fun h => hmark h rfl, if_neg hslash, if_neg hbreak]
          exact ⟨List.cons_ne_nil c _, Nat.succ_pos _⟩
      | some q =>
          rw [readWord, if_neg fun h => hquote (congrArg some h.symm)]
          exact ⟨List.cons_ne_nil c _, Nat.succ_pos _⟩
  | cons d s ih =>
      -- A character is passed over, or it is one of the word.
      have hpass : ∀ {quote : Option Char}, quote ≠ some c → ∀ f : List Char → List Char,
          (∀ word, word ≠ [] → f word ≠ []) →
          (∀ rest', (f (readWord quote (s ++ rest')).1, (readWord quote (s ++ rest')).2 + 1) =
              (f (readWord quote (s ++ c :: rest)).1, (readWord quote (s ++ c :: rest)).2 + 1)) ∨
            f (readWord quote (s ++ c :: rest)).1 ≠ [] ∧
              s.length + 1 < (readWord quote (s ++ c :: rest)).2 + 1 := by
        intro quote hquote f hf
        rcases ih hquote with h | ⟨hne, hlt⟩
        · exact Or.inl fun rest' => by rw [h rest']
        · exact Or.inr ⟨hf _ hne, Nat.succ_lt_succ hlt⟩
      have hcons : ∀ word, word ≠ [] → d :: word ≠ [] := fun word _ => List.cons_ne_nil d word
      simp only [List.cons_append, List.length_cons]
      cases quote with
      | none =>
          simp only [readWord]
          by_cases hd : d = '\'' ∨ d = '"'
          · simp only [if_pos hd]
            exact hpass (hmark hd) id fun _ h => h
          by_cases hslash : d = '\\'
          · simp only [if_neg hd, if_pos hslash]
            exact hpass hnone id fun _ h => h
          by_cases hbreak : separatesWords d = true
          · simp only [if_neg hd, if_neg hslash, if_pos hbreak]
            exact Or.inl fun _ => trivial
          · simp only [if_neg hd, if_neg hslash, if_neg hbreak]
            exact hpass hnone (List.cons d) hcons
      | some q =>
          simp only [readWord]
          by_cases hd : d = q
          · simp only [if_pos hd]
            exact hpass hnone id fun _ h => h
          · simp only [if_neg hd]
            exact hpass hquote (List.cons d) hcons

/-- The announcement that a text behind the operator holds, which may be `<<-`. -/
def readBehind (stripTabs : Bool) (s : List Char) : Option (Heredoc × Nat) :=
  let (word, n) := readWord none (skipInline s)
  if word.isEmpty then none
  else some (⟨word, stripTabs⟩,
    (if stripTabs then 1 else 0) + (s.takeWhile isInlineBlank).length + n)

theorem readBehind_escaped (hc : isNameLetter c = true) (stripTabs : Bool) (s rest : List Char) :
    readBehind stripTabs (s ++ '\\' :: c :: rest) = readBehind stripTabs (s ++ c :: rest) ∨
      ∃ doc n, readBehind stripTabs (s ++ c :: rest) = some (doc, n) ∧
        (if stripTabs then 1 else 0) + s.length < n := by
  have hblank : isInlineBlank c = false := by
    refine Bool.eq_false_iff.mpr fun h => ?_
    have hblank := isBlank_of_isInlineBlank h
    rw [isBlank_of_isNameLetter hc] at hblank
    cases hblank
  have hslash : isInlineBlank '\\' = false := by decide
  obtain ⟨htake, hdrop⟩ := takeWhile_append_cons hblank s rest
  obtain ⟨htake', hdrop'⟩ := takeWhile_append_cons hslash s (c :: rest)
  rw [readBehind, readBehind, skipInline, skipInline, htake, hdrop, htake', hdrop']
  have hnone : none ≠ some c := nofun
  rcases readWord_append hc (s.dropWhile isInlineBlank) rest hnone with h | ⟨hne, hlt⟩
  · rw [h]
    exact Or.inl rfl
  · refine Or.inr ⟨_, _, if_neg (by simpa using hne), ?_⟩
    have hlength : (s.takeWhile isInlineBlank).length + (s.dropWhile isInlineBlank).length =
        s.length := by rw [← List.length_append, List.takeWhile_append_dropWhile]
    omega

/-- Where an announcement ends before a letter, it is the same with a backslash before the letter.
Else the letter belongs to it. -/
theorem read?_escaped (hc : isNameLetter c = true) (s rest : List Char) :
    read? (s ++ '\\' :: c :: rest) = read? (s ++ c :: rest) ∨
      ∃ doc n, read? (s ++ c :: rest) = some (doc, n) ∧ s.length < n := by
  have hread : ∀ d t, d ≠ '-' → read? (d :: t) = readBehind false (d :: t) := by
    intro d t hd
    have hdash : (some d == some '-') = false := by simpa using hd
    rw [read?, List.head?_cons, hdash]
    rfl
  have hdash : c ≠ '-' := by
    rintro rfl
    exact absurd hc (by decide +kernel)
  cases s with
  | nil =>
      have hescaped := readBehind_escaped hc false [] rest
      simpa [hread _ _ hdash, hread '\\' _ (by decide)] using hescaped
  | cons d s =>
      by_cases hd : d = '-'
      · subst hd
        have hescaped := readBehind_escaped hc true s rest
        rw [if_pos rfl, Nat.add_comm 1] at hescaped
        exact hescaped
      · have hescaped := readBehind_escaped hc false (d :: s) rest
        rw [if_neg (by decide), Nat.zero_add] at hescaped
        rw [List.cons_append, List.cons_append, hread _ _ hd, hread _ _ hd]
        exact hescaped

end Heredoc

namespace Reader
variable {r r' : Reader} {c : Char} {s rest : List Char}

/-- What belongs to an operator is not read as code. -/
theorem owed_readTo_of_verbatim {n : Nat} (howed : r.owed = .verbatim n) (hle : s.length ≤ n)
    (h : r.readTo rest s = some r') : r'.owed ≠ .nothing := by
  induction s generalizing r n with
  | nil =>
      obtain rfl := Option.some.inj h
      rw [howed]
      nofun
  | cons d s ih =>
      obtain ⟨-, h⟩ := readTo_cons_iff.mp h
      have hpos : 0 < n := Nat.lt_of_lt_of_le (Nat.succ_pos s.length) hle
      obtain ⟨n, rfl⟩ := Nat.exists_eq_succ_of_ne_zero (Nat.ne_of_gt hpos)
      refine ih ?_ (Nat.le_of_succ_le_succ hle) h
      rw [step, howed]

theorem opensHeredoc_escaped (hc : isNameLetter c = true) (r : Reader) (s rest : List Char) :
    r.opensHeredoc (s ++ '\\' :: c :: rest) = r.opensHeredoc (s ++ c :: rest) := by
  have hsign : c ≠ '<' := ne_of_isNameLetter hc (by decide)
  have hhead : (some c != some '<') = true ∧ (some '\\' != some '<') = true :=
    ⟨by simpa using hsign, rfl⟩
  cases s with
  | nil => simp [opensHeredoc, hsign]
  | cons d s =>
      by_cases hd : d = '<'
      · subst hd
        cases s with
        | nil => simp [opensHeredoc, hhead]
        | cons e s => rfl
      · simp [opensHeredoc, hd]

/-- The sign of a here-document stands before the text of the announcement. -/
theorem stepCode_escaped (hc : isNameLetter c = true) (r : Reader) (d : Char) (s rest : List Char) :
    r.stepCode d (s ++ '\\' :: c :: rest) = r.stepCode d (s ++ c :: rest) ∨
      ∃ n, (r.stepCode d (s ++ c :: rest)).owed = .verbatim n ∧ s.length ≤ n := by
  by_cases hd : d = '<'
  · subst hd
    show (if r.opensHeredoc _ then r.announce _ else r.keep '<') =
        (if r.opensHeredoc _ then r.announce _ else r.keep '<') ∨
      ∃ n, (if r.opensHeredoc _ then r.announce _ else r.keep '<').owed = .verbatim n ∧ s.length ≤ n
    rw [opensHeredoc_escaped hc]
    by_cases hopens : r.opensHeredoc (s ++ c :: rest) = true
    · rw [if_pos hopens, if_pos hopens]
      cases s with
      | nil =>
          have hsign : c ≠ '<' := ne_of_isNameLetter hc (by decide)
          simp [opensHeredoc, hsign] at hopens
      | cons e s =>
          rw [announce, announce]
          rcases Heredoc.read?_escaped hc s rest with hread | ⟨doc, n, hread, hlt⟩
          · left
            simp only [List.cons_append, List.tail_cons, hread]
          · right
            simp only [List.cons_append, List.tail_cons, hread]
            exact ⟨n, rfl, hlt⟩
    · rw [if_neg hopens, if_neg hopens]
      exact Or.inl rfl
  · left
    unfold stepCode
    split <;> first | rfl | contradiction

/-- A step does not tell a letter from a backslash further on, unless both belong to the word of the
here-document that it announces. -/
theorem step_escaped (hc : isNameLetter c = true) (r : Reader) (d : Char) (s rest : List Char) :
    r.step d (s ++ '\\' :: c :: rest) = r.step d (s ++ c :: rest) ∨
      ∃ n, (r.step d (s ++ c :: rest)).owed = .verbatim n ∧ s.length ≤ n := by
  have hparen : ((s ++ '\\' :: c :: rest).head? == some '(') =
      ((s ++ c :: rest).head? == some '(') := by
    cases s with
    | nil => simpa using ne_of_isNameLetter hc (d := '(') (by decide)
    | cons e s => rfl
  have hcode := r.stepCode_escaped hc d s rest
  unfold step
  split
  · unfold stepFree
    split
    · left
      simp only [stepDouble, hparen]
    · exact Or.inl rfl
    · exact Or.inl rfl
    · exact hcode
  all_goals exact Or.inl rfl

/-- **A place in code is reached alike** with a letter behind it and with an escaped letter. -/
theorem readTo_escaped (hc : isNameLetter c = true) (h : r.readTo (c :: rest) s = some r')
    (howed : r'.owed = .nothing) : r.readTo ('\\' :: c :: rest) s = some r' := by
  induction s generalizing r with
  | nil => exact h
  | cons d s ih =>
      obtain ⟨hopens, h⟩ := readTo_cons_iff.mp h
      refine readTo_cons_iff.mpr ⟨hopens, ?_⟩
      rcases r.step_escaped hc d s rest with hstep | ⟨n, hverbatim, hle⟩
      · rw [hstep]
        exact ih h
      · exact absurd howed (owed_readTo_of_verbatim hverbatim hle h)

end Reader

/-! ## What the line shows -/

namespace Reader
variable {r : Reader} {c : Char} {rest : List Char}

/-- Behind a letter that a backslash escapes, a line is read as behind the letter alone. -/
theorem beside_escaped (r : Reader) (hc : isNameLetter c = true) (rest : List Char) :
    Beside (r.keep c) ((r.keep '\\').keep c) rest := by
  have hdollar : c ≠ '$' := ne_of_isNameLetter hc (by decide)
  have hslash : c ≠ '\\' := ne_of_isNameLetter hc (by decide)
  refine ⟨rfl, rfl, rfl, rfl, ?_, ?_, fun _ p hp u => ?_⟩
  · show endsInDollar (c :: '\\' :: r.before) = endsInDollar (c :: r.before)
    rw [endsInDollar_cons, endsInDollar_cons, beq_false_of_ne hdollar, Bool.false_and,
      Bool.false_and]
  · show backslashes (c :: '\\' :: r.before) % 2 = backslashes (c :: r.before) % 2
    rw [backslashes_cons_of_ne hslash, backslashes_cons_of_ne hslash]
  · have hparens : c ≠ p ∧ '\\' ≠ p := by
      simp only [List.mem_cons, List.not_mem_nil, or_false] at hp
      rcases hp with rfl | rfl
      · exact ⟨ne_of_isNameLetter hc (by decide), by decide⟩
      · exact ⟨ne_of_isNameLetter hc (by decide), by decide⟩
    show countPairs p (u ++ c :: '\\' :: r.code) = countPairs p (u ++ c :: r.code)
    rw [countPairs_append_cons hparens.1, countPairs_append_cons hparens.1,
      countPairs_cons_of_ne hparens.2]

/-- **A backslash before a letter is shown**, and the rest of the line is read as without it. -/
theorem Coding.run_escaped (h : r.Coding) (hc : isNameLetter c = true) (rest : List Char) :
    ∃ shown, (r.run (c :: rest)).1.code = shown ++ c :: r.code ∧
      (r.run ('\\' :: c :: rest)).1.code = shown ++ c :: '\\' :: r.code ∧
      (r.run ('\\' :: c :: rest)).1.contexts = (r.run (c :: rest)).1.contexts ∧
      (r.run ('\\' :: c :: rest)).1.heredocs = (r.run (c :: rest)).1.heredocs ∧
      (r.run ('\\' :: c :: rest)).2 = (r.run (c :: rest)).2 := by
  have hhash : c ≠ '#' := ne_of_isNameLetter hc (by decide)
  have hplain : r.run (c :: rest) = (r.keep c).run rest := by
    rw [run, if_neg (by simp [opensComment, hhash]), h.step_inert (isInert_of_isNameLetter hc)]
  have hslash : r.step '\\' (c :: rest) = { r.keep '\\' with owed := .escaped } := h.step_eq '\\' _
  have hescaped : r.run ('\\' :: c :: rest) = ((r.keep '\\').keep c).run rest := by
    have hletter : ({ r.keep '\\' with owed := .escaped } : Reader).step c rest =
        (r.keep '\\').keep c := by
      show Reader.stepEscaped _ c = _
      rw [stepEscaped, if_pos]
      · rfl
      · rw [Bool.and_eq_true]
        exact ⟨h.reads_code, hc⟩
    rw [run, if_neg (by simp [opensComment]), hslash, run, if_neg (by simp [opensComment]), hletter]
  obtain ⟨shown, hrun, hrun', hrest⟩ := (r.beside_escaped hc rest).run
  rw [hplain, hescaped]
  exact ⟨shown, hrun, hrun', hrest⟩

/-- What a line shows first is its first character, if that is no blank. -/
theorem Coding.exists_onward (h : r.Coding) {view onward : List Char} (hc : isBlank c = false)
    (hview : (r.run onward).1.code.reverse = r.code.reverse ++ c :: view) :
    ∃ rest, onward = c :: rest := by
  obtain ⟨view', hcode, hhead, -⟩ := h.exists_view onward
  rw [hcode, List.reverse_append, List.reverse_reverse] at hview
  obtain rfl := List.append_cancel_left hview
  rcases hhead c rfl with honward | rfl
  · obtain ⟨rest, rfl⟩ := List.head?_eq_some_iff.mp honward
    exact ⟨rest, rfl⟩
  · cases hc

end Reader

namespace Place
variable {p : Place} {text text' : String} {r : Reader} {c : Char}

/-- A place in code before a letter is a place with a backslash more. -/
theorem At.escape (h : p.At text r) (hr : r.Coding) (hc : isNameLetter c = true) {rest : List Char}
    (honward : p.onward = c :: rest)
    (h' : lines text'.toList = p.above ++ (p.insert ['\\']).line :: p.below) :
    (p.insert ['\\']).At text' r := by
  refine ⟨h', h.no_heredoc, ?_⟩
  have hreach := h.readTo_eq
  rw [honward] at hreach
  show (Reader.start p.openBefore.contexts).readTo ('\\' :: p.onward) p.front = some r
  rw [honward]
  exact Reader.readTo_escaped hc hreach hr.owed_eq

/-- **Of a script with one more backslash before a letter only the one line shows more.** -/
theorem At.scan_escape (h : p.At text r) (hr : r.Coding) (hc : isNameLetter c = true)
    (h' : lines text'.toList = p.above ++ (p.insert ['\\']).line :: p.below) {view : List Char}
    (hview : (r.run p.onward).1.code.reverse = r.code.reverse ++ c :: view) :
    ∃ (comment : Option (List Char)) (below : List Line),
      scan text = Open.nothing.scan 1 p.above ++
        ⟨p.above.length + 1, p.line, r.code.reverse ++ c :: view, comment⟩ :: below ∧
      scan text' = Open.nothing.scan 1 p.above ++
        ⟨p.above.length + 1, (p.insert ['\\']).line, r.code.reverse ++ '\\' :: c :: view, comment⟩ ::
          below := by
  obtain ⟨rest, honward⟩ := hr.exists_onward (isBlank_of_isNameLetter hc) hview
  have h' := h.escape hr hc honward h'
  obtain ⟨shown, hrun, hrun', hcontexts, hheredocs, hcomment⟩ := hr.run_escaped hc rest
  -- What the rest of the line shows is the same behind the letter and behind the escaped letter.
  obtain rfl : shown.reverse = view := by
    rw [honward, hrun, List.reverse_append, List.reverse_cons, List.append_assoc] at hview
    exact (List.cons.inj (List.append_cancel_left hview)).2
  have hline : (Open.nothing.after p.above).read p.line = _ := h.read_eq
  have hline' : (Open.nothing.after p.above).read (p.insert ['\\']).line = _ := h'.read_eq
  have honward' : (p.insert ['\\']).onward = '\\' :: c :: rest := congrArg (List.cons '\\') honward
  rw [honward', hrun', hcontexts, hheredocs, hcomment] at hline'
  rw [honward, hrun] at hline
  have hscan := scan_of_lines h.lines_eq
  have hscan' : scan text' = Open.nothing.scan 1 p.above ++ _ := scan_of_lines h'.lines_eq
  rw [hline, List.reverse_append, List.reverse_cons, List.append_assoc] at hscan
  rw [hline', List.reverse_append, List.reverse_cons, List.reverse_cons, List.append_assoc,
    List.append_assoc] at hscan'
  exact ⟨_, _, hscan, hscan'⟩

end Place

end ShellIndex.Source
