import ShellIndex.Proofs.Call.Ordinary
import ShellIndex.Proofs.Text.LastLine

set_option autoImplicit false

/-! # Reading on behind a blank

A script may be cut at a blank: what stands behind it is read by the cursor that has read what
stands before it (`calls_lines_append`). Only the header of a definition is seen across a blank,
since a word is read otherwise before an empty pair of parentheses, and a brace behind a closing
one.
-/

namespace ShellIndex.Call

open Text Program

/-! ## Lexemes before and behind a blank -/

/-- Whether a blank between two texts stands in the header of a definition, as in `name () {`. -/
def splitsHeader (s t : List Char) : Bool :=
  Lexeme.startsWithParens t ||
    ((trimEnd s).getLast? == some '(' && (trimStart t).head? == some ')') ||
    ((trimEnd s).getLast? == some ')' && (trimStart t).head? == some '{')

namespace Lexeme

theorem startsWithParens_iff {s : List Char} : startsWithParens s = true ↔
    ∃ inner, trimStart s = '(' :: inner ∧ (trimStart inner).head? = some ')' := by
  unfold startsWithParens
  split
  · next inner h => simp [h]
  · next h => simpa using fun inner e => absurd e (h inner)

/-- A blank hides an empty pair of parentheses only if it stands in it or before it. -/
theorem startsWithParens_append {b : Char} (hb : isBlank b = true) {s t u : List Char}
    (hparens : startsWithParens t = false)
    (hpair : (trimEnd s).getLast? = some '(' → (trimStart t).head? ≠ some ')') (hu : u <:+ s) :
    startsWithParens (u ++ b :: t) = startsWithParens u := by
  have hinner : ∀ v, trimStart u = '(' :: v →
      ((trimStart (v ++ b :: t)).head? = some ')' ↔ (trimStart v).head? = some ')') := by
    intro v h
    cases hv : trimStart v with
    | nil =>
        -- The text before the blank ends in the opening parenthesis.
        obtain ⟨before, rfl⟩ := hu
        obtain ⟨run, -, hrun⟩ := exists_blank_append_trimStart u
        have hlast : (trimEnd ((before ++ run) ++ '(' :: v)).getLast? = some '(' :=
          getLast?_trimEnd_append (by decide) _ (trimStart_eq_nil_iff.mp hv)
        rw [List.append_assoc, ← h, ← hrun] at hlast
        rw [trimStart_append_of_allBlank hb hv]
        simpa using hpair hlast
    | cons d w =>
        rw [trimStart_append hv]
        simp
  rw [Bool.eq_iff_iff, startsWithParens_iff, startsWithParens_iff]
  cases h : trimStart u with
  | nil =>
      rw [trimStart_append_of_allBlank hb h, ← startsWithParens_iff, hparens]
      simp
  | cons c v =>
      rw [trimStart_append h, List.cons_append]
      constructor
      · rintro ⟨inner, e, hhead⟩
        obtain ⟨rfl, rfl⟩ := List.cons.inj e
        exact ⟨v, rfl, (hinner v h).mp hhead⟩
      · rintro ⟨inner, e, hhead⟩
        obtain ⟨rfl, rfl⟩ := List.cons.inj e
        exact ⟨_, rfl, (hinner v h).mpr hhead⟩

end Lexeme

/-- What starts with a character that ends a word is read anew, unless it belongs to what is before
it: to a separator or a redirection sign, or to the parentheses behind a word. -/
theorem Lexeme.listFrom_append {b : Char} (hb : isWordChar b = false) (hmarks : b ∉ [';', '&', '('])
    {s t : List Char} (hs : ∀ u, u <:+ s → startsWithParens (u ++ b :: t) = startsWithParens u)
    {place : Place} (hplace : place = .afterArmEnd → s ≠ []) :
    listFrom place (s ++ b :: t) = listFrom place s ++ ofCode (b :: t) := by
  induction s generalizing place with
  | nil =>
      cases place with
      | between => rfl
      | inWord => exact listFrom_inWord [] (by simp) fun c hc => Option.some.inj hc ▸ hb
      | afterArmEnd => exact absurd rfl (hplace rfl)
  | cons c s ih =>
      have hrest : ∀ {place : Place}, (place = .afterArmEnd → s ≠ []) →
          listFrom place (s ++ b :: t) = listFrom place s ++ ofCode (b :: t) :=
        ih fun u hu => hs u (hu.trans (List.suffix_cons c s))
      have hbetween : listFrom .between (s ++ b :: t) = listFrom .between s ++ ofCode (b :: t) :=
        hrest (by simp)
      have hword : listFrom .inWord (s ++ b :: t) = listFrom .inWord s ++ ofCode (b :: t) :=
        hrest (by simp)
      have hmark : punctuation? c (s ++ b :: t) = punctuation? c s := by
        refine punctuation?_congr c fun d hd => ?_
        cases s with
        | nil =>
            have hbd : b ≠ d := by
              rintro rfl
              exact hmarks hd
            simp [hbd]
        | cons e s => simp
      have harm : punctuation? c s = some armEnd → listFrom .afterArmEnd (s ++ b :: t) =
          listFrom .afterArmEnd s ++ ofCode (b :: t) := by
        intro hc
        refine hrest fun _ hnil => ?_
        rw [hnil] at hc
        unfold punctuation? at hc
        split at hc <;> simp at hc
      obtain ⟨htake, hdrop⟩ := takeWhile_append_cons (p := isWordChar) (b := b) hb s t
      have hparens : startsWithParens (s.dropWhile isWordChar ++ b :: t) =
          startsWithParens (s.dropWhile isWordChar) :=
        hs _ ((List.dropWhile_suffix _).trans (List.suffix_cons c s))
      rw [List.cons_append, listFrom, listFrom, hmark, htake, hdrop, hparens, hbetween, hword]
      split
      · rfl
      split
      · rfl
      split
      · next hc => rw [harm hc, List.cons_append]
      · rfl
      · split <;> rfl

theorem Lexeme.ofCode_append_blank {b : Char} (hb : isWordBreak b = true) {s t : List Char}
    (hs : ∀ u, u <:+ s → startsWithParens (u ++ b :: t) = startsWithParens u) :
    ofCode (s ++ b :: t) = ofCode s ++ ofCode t := by
  have hmarks : b ∉ [';', '&', '('] := by
    intro hmem
    simp only [List.mem_cons, List.not_mem_nil, or_false] at hmem
    rcases hmem with rfl | rfl | rfl <;> exact absurd hb (by decide)
  rw [← ofCode_blank hb t]
  exact listFrom_append (by simp [isWordChar, hb]) hmarks hs (by simp)

/-! ## Marks at the ends of a text -/

namespace Lexeme

theorem startsWithParens_append_right {s : List Char} (h : startsWithParens s = true)
    (t : List Char) : startsWithParens (s ++ t) = true := by
  obtain ⟨inner, hinner, hclose⟩ := startsWithParens_iff.mp h
  refine startsWithParens_iff.mpr ⟨inner ++ t, ?_, head?_trimStart_append hclose t⟩
  rw [trimStart_append hinner]
  rfl

theorem eq_of_punctuation? {c : Char} {rest : List Char} :
    (punctuation? c rest = some closeParen → c = ')') ∧
      (punctuation? c rest = some openBrace → c = '{') := by
  unfold punctuation?
  split <;> simp
  split <;> simp

/-- The first lexeme of a text is an opening brace only if the text starts with one. -/
theorem head?_ofCode_openBrace {s : List Char} (h : (ofCode s).head? = some openBrace) :
    (trimStart s).head? = some '{' := by
  induction s with
  | nil => cases h
  | cons c s ih =>
      by_cases hb : isWordBreak c = true
      · rw [ofCode_blank hb] at h
        rw [trimStart, List.dropWhile_cons_of_pos (isBlank_of_isWordBreak hb)]
        exact ih h
      · rw [ofCode, listFrom, if_neg (by decide), if_neg hb] at h
        split at h
        · cases h
        · next mark _ hmark =>
            obtain rfl : mark = openBrace := Option.some.inj h
            rw [eq_of_punctuation?.2 hmark]
            rfl
        · cases h

theorem allBlank_of_ofCode_eq_nil {s : List Char} (h : ofCode s = []) : allBlank s = true := by
  induction s with
  | nil => rfl
  | cons c s ih =>
      by_cases hb : isWordBreak c = true
      · rw [ofCode_blank hb] at h
        rw [allBlank, List.all_cons, isBlank_of_isWordBreak hb]
        exact ih h
      · rw [ofCode, listFrom, if_neg (by decide), if_neg hb] at h
        split at h <;> cases h

/-- The last lexeme of a text is a closing parenthesis only if the text ends in one. -/
theorem getLast?_listFrom_closeParen {s : List Char} (place : Place)
    (h : (listFrom place s).getLast? = some closeParen) : (trimEnd s).getLast? = some ')' := by
  induction s generalizing place with
  | nil => cases h
  | cons c s ih =>
      have hrest : ∀ place, (listFrom place s).getLast? = some closeParen →
          (trimEnd (c :: s)).getLast? = some ')' := fun place h =>
        getLast?_trimEnd_append_left (ih place h) [c]
      have hcons : ∀ place l, (l :: listFrom place s).getLast? = some closeParen →
          (listFrom place s).getLast? = some closeParen ∨
            listFrom place s = [] ∧ l = closeParen := by
        intro place l hl
        rw [List.getLast?_cons] at hl
        cases hs : (listFrom place s).getLast? with
        | none =>
            rw [hs] at hl
            exact Or.inr ⟨List.getLast?_eq_none_iff.mp hs, Option.some.inj hl⟩
        | some last =>
            rw [hs] at hl
            exact Or.inl hl
      rw [listFrom] at h
      split at h
      · exact hrest _ h
      split at h
      · exact hrest _ h
      split at h
      · rcases hcons _ _ h with h | ⟨-, h⟩
        · exact hrest _ h
        · cases h
      · next mark _ hmark =>
          rcases hcons _ _ h with h | ⟨hnil, rfl⟩
          · exact hrest _ h
          · rw [eq_of_punctuation?.1 hmark]
            exact getLast?_trimEnd_append (by decide) [] (allBlank_of_ofCode_eq_nil hnil)
      · split at h
        · exact hrest _ h
        · rcases hcons _ _ h with h | ⟨-, h⟩
          · exact hrest _ h
          · cases h

end Lexeme

/-! ## The cursor behind a text -/

/-- The start of the last line of a text. -/
def startLastLine (s : List Char) : Cursor :=
  (Tracker.start.after (lines (wholeLines s))).startLine

/-- The cursor behind a text that ends within a line. -/
def cursorBehind (s : List Char) : Cursor :=
  ((startLastLine s).run (Lexeme.ofCode (lastLine s))).1

/-- The calls in a text that ends within a line. -/
def callsBefore (s : List Char) : List String :=
  Tracker.start.calls (lines (wholeLines s)) ++
    ((startLastLine s).run (Lexeme.ofCode (lastLine s))).2

/-- What stands behind a blank is read from the cursor there, unless a word sees parentheses behind
the blank. -/
theorem calls_lines_append {b : Char} (hb : isInlineBlank b = true) {s t : List Char}
    (hs : '\r' ∉ s) (hparens : Lexeme.startsWithParens (firstLine t) = false)
    (hpair : (trimEnd (lastLine s)).getLast? = some '(' →
      (trimStart (firstLine t)).head? ≠ some ')') :
    Tracker.start.calls (lines (s ++ b :: t)) =
      callsBefore s ++ (cursorBehind s).resume (b :: (lastLine s).reverse) t := by
  have hbreak : isWordBreak b = true ∧ b ≠ '\n' ∧ b ≠ '\r' := by
    simp only [isInlineBlank, Bool.or_eq_true, beq_iff_eq] at hb
    rcases hb with rfl | rfl <;> decide
  have hend : ∀ c ∈ lastLine s ++ [b], c ≠ '\n' ∧ c ≠ '\r' := by
    intro c hc
    rw [List.mem_append, List.mem_singleton] at hc
    rcases hc with hc | rfl
    · exact ⟨fun e => no_lineFeed_lastLine s (e ▸ hc), fun e => hs (e ▸ mem_of_mem_lastLine hc)⟩
    · exact hbreak.2
  obtain ⟨hline, hbelow⟩ := firstLine_append hend t
  rw [List.append_assoc, List.singleton_append] at hline hbelow
  have hlexemes : Lexeme.ofCode (lastLine s ++ b :: firstLine t) =
      Lexeme.ofCode (lastLine s) ++ Lexeme.ofCode (firstLine t) :=
    Lexeme.ofCode_append_blank hbreak.1 fun u hu =>
      Lexeme.startsWithParens_append (isBlank_of_isInlineBlank hb) hparens hpair hu
  have hresume : (startLastLine s).resume [] (lastLine s ++ b :: t) =
      ((startLastLine s).run (Lexeme.ofCode (lastLine s))).2 ++
        (cursorBehind s).resume (b :: (lastLine s).reverse) t := by
    simp only [Cursor.resume]
    rw [hline, hbelow, List.append_assoc, List.singleton_append, hlexemes, Cursor.run_append]
    simp [cursorBehind]
  calc Tracker.start.calls (lines (s ++ b :: t))
      = Tracker.start.calls (lines (wholeLines s) ++ lines (lastLine s ++ b :: t)) := by
        rw [← lines_wholeLines_append, ← List.append_assoc, wholeLines_append_lastLine]
    _ = Tracker.start.calls (lines (wholeLines s)) ++
          (startLastLine s).resume [] (lastLine s ++ b :: t) := by
        rw [Tracker.calls_append, startLastLine, ← Tracker.calls_lines]
    _ = callsBefore s ++ (cursorBehind s).resume (b :: (lastLine s).reverse) t := by
        rw [hresume, callsBefore, List.append_assoc]

/-! ## Behind a script -/

theorem ordinary_startLine {t : Tracker} (h : t.inArray = false) : t.startLine.Ordinary :=
  ⟨h, rfl, rfl, by simp [Tracker.startLine]⟩

theorem inArray_after {t : Tracker} {codes : List (List Char)} (ht : t.inArray = false)
    (hcodes : ∀ code ∈ codes, ∀ c ∈ code, isScriptChar c = true) :
    (t.after codes).inArray = false := by
  induction codes generalizing t with
  | nil => exact ht
  | cons code codes ih =>
      have hcode := Lexeme.isOrdinary_listFrom (hcodes code (by simp)) .between
      have hline : (t.readLine code).1.inArray = false :=
        ((ordinary_startLine ht).run hcode).inArray_eq
      exact ih hline fun code' h => hcodes code' (List.mem_cons_of_mem code h)

theorem ordinary_cursorBehind {s : List Char} (hs : ∀ c ∈ s, isScriptChar c = true) :
    (cursorBehind s).Ordinary := by
  have hwhole : (Tracker.start.after (lines (wholeLines s))).inArray = false := by
    refine inArray_after rfl fun code hcode c hc => hs c ?_
    rw [← wholeLines_append_lastLine s]
    rcases mem_of_mem_linesAfter hcode hc with h | h
    · simp at h
    · exact List.mem_append_left _ h
  exact (ordinary_startLine hwhole).run
    (Lexeme.isOrdinary_listFrom (fun c hc => hs c (mem_of_mem_lastLine hc)) .between)

/-- A closing parenthesis stands before the cursor only if the text ends in one. -/
theorem getLast?_trimEnd_of_cursorBehind {s : List Char}
    (h : (cursorBehind s).last = some .closeParen) : (trimEnd s).getLast? = some ')' := by
  rw [cursorBehind, Cursor.last_run] at h
  refine getLast?_trimEnd_of_lastLine (Lexeme.getLast?_listFrom_closeParen .between ?_)
  cases hl : (Lexeme.ofCode (lastLine s)).getLast? with
  | none =>
      rw [hl] at h
      cases h
  | some l =>
      rw [hl] at h
      exact hl.trans h

/-- What follows from a blank that stands in no header, for the line it stands in. -/
theorem of_splitsHeader {s t : List Char} (ht : ∀ c ∈ t, isScriptChar c = true)
    (h : splitsHeader s t = false) :
    Lexeme.startsWithParens (firstLine t) = false ∧
      ((trimEnd (lastLine s)).getLast? = some '(' →
        (trimStart (firstLine t)).head? ≠ some ')') ∧
      ((cursorBehind s).last = some .closeParen →
        (Lexeme.ofCode (firstLine t)).head? ≠ some .openBrace) := by
  have hhead := fun c => head?_trimStart_of_firstLine (no_return ht) (c := c)
  simp only [splitsHeader, Bool.or_eq_false_iff, Bool.and_eq_false_iff, beq_eq_false_iff_ne] at h
  obtain ⟨⟨hparens, hpair⟩, hbrace⟩ := h
  refine ⟨?_, fun hopen hclose => ?_, fun hclose hopen => ?_⟩
  · refine Bool.eq_false_iff.mpr fun hstart => ?_
    obtain ⟨rest, hrest⟩ := exists_firstLine_append (no_return ht)
    have hwhole := Lexeme.startsWithParens_append_right hstart rest
    rw [← hrest, hparens] at hwhole
    cases hwhole
  · rcases hpair with hne | hne
    · exact hne (getLast?_trimEnd_of_lastLine hopen)
    · exact hne (hhead ')' hclose)
  · rcases hbrace with hne | hne
    · exact hne (getLast?_trimEnd_of_cursorBehind hclose)
    · exact hne (hhead '{' (Lexeme.head?_ofCode_openBrace hopen))

end ShellIndex.Call
