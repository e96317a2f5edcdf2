import ShellIndex.Call.Tracker
import ShellIndex.Proofs.Text.FirstLine

set_option autoImplicit false

/-! # Following masked code from within a line

The tracker reads masked code line by line, and a line lexeme by lexeme. This file follows a
masked text from any point of a line to its end (`Cursor.resume`). The equations of `resume`
read one blank, one mark, one word or one line end, whatever comes after it.
-/

namespace ShellIndex.Call

open Text

/-! ## Lexemes of the start of a text -/

namespace Lexeme

theorem punctuation?_isNone (c : Char) (rest : List Char) :
    (punctuation? c rest).isNone = (punctuation? c []).isNone := by
  unfold punctuation?
  split <;> rfl

theorem punctuation?_of_isWordChar {c : Char} (h : isWordChar c = true) (rest : List Char) :
    punctuation? c rest = none := by
  have hnone : (punctuation? c rest).isNone = true := by
    rw [punctuation?_isNone]
    exact (Bool.and_eq_true_iff.mp h).2
  simpa using hnone

/-- Whether `;`, `&` or `(` follows decides which mark a character is. -/
theorem punctuation?_congr (c : Char) {rest rest' : List Char}
    (h : ∀ d ∈ [';', '&', '('], (rest.head? = some d ↔ rest'.head? = some d)) :
    punctuation? c rest = punctuation? c rest' := by
  have hparen : (rest.head? == some '(') = (rest'.head? == some '(') := by
    rw [Bool.eq_iff_iff]
    simpa using h '(' (by simp)
  simp only [punctuation?, h ';' (by simp), h '&' (by simp), hparen]

theorem not_isWordBreak_of_isWordChar {c : Char} (h : isWordChar c = true) :
    isWordBreak c = false := by
  simpa using (Bool.and_eq_true_iff.mp h).1

theorem ne_lineFeed_of_isWordChar {c : Char} (h : isWordChar c = true) : c ≠ '\n' ∧ c ≠ '\r' := by
  refine ⟨?_, ?_⟩ <;>
  · rintro rfl
    revert h
    decide

theorem ofCode_blank {c : Char} (h : isWordBreak c = true) (s : List Char) :
    ofCode (c :: s) = ofCode s := by
  simp [ofCode, listFrom, h]

/-- A mark other than the end of a `case` arm is one character. -/
theorem ofCode_mark {c : Char} {s : List Char} {mark : Lexeme} (hc : isWordBreak c = false)
    (h : punctuation? c s = some mark) (hmark : mark ≠ .armEnd) :
    ofCode (c :: s) = mark :: ofCode s := by
  rw [ofCode, listFrom, if_neg (by decide), hc, h]
  cases mark <;> first | rfl | exact absurd rfl hmark

/-- The end of a `case` arm is two characters. -/
theorem ofCode_armEnd {d : Char} (hd : d = ';' ∨ d = '&') (s : List Char) :
    ofCode (';' :: d :: s) = .armEnd :: ofCode s := by
  rcases hd with rfl | rfl <;> rfl

/-- Behind a word the rest is read anew. -/
theorem listFrom_inWord (w : List Char) {s : List Char} (hw : ∀ c ∈ w, isWordChar c = true)
    (hs : ∀ c, s.head? = some c → isWordChar c = false) :
    listFrom .inWord (w ++ s) = ofCode s := by
  induction w with
  | nil =>
      cases s with
      | nil => rfl
      | cons c s =>
          have hc := hs c rfl
          -- The next character belongs to no word, so that the word read before has no effect.
          rw [List.nil_append, ofCode, listFrom, listFrom]
          by_cases hb : isWordBreak c = true
          · simp [hb]
          · cases hp : punctuation? c s with
            | none =>
                have hnone : (punctuation? c []).isNone = true := by
                  rw [← punctuation?_isNone c s, hp]
                  rfl
                simp [isWordChar, hb, hnone] at hc
            | some mark => cases mark <;> simp [hb]
  | cons c w ih =>
      have hc := hw c (by simp)
      rw [List.cons_append, listFrom, if_neg (by decide), not_isWordBreak_of_isWordChar hc,
        punctuation?_of_isWordChar hc]
      simpa using ih fun d hd => hw d (by simp [hd])

/-- A word ends where a character follows that belongs to no word. -/
theorem ofCode_word {w s : List Char} (hne : w ≠ []) (hw : ∀ c ∈ w, isWordChar c = true)
    (hs : ∀ c, s.head? = some c → isWordChar c = false) :
    ofCode (w ++ s) = .word (String.ofList w) (startsWithParens s) :: ofCode s := by
  obtain ⟨c, w, rfl⟩ := List.exists_cons_of_ne_nil hne
  have hc := hw c (by simp)
  have hw' : ∀ d ∈ w, isWordChar d = true := fun d hd => hw d (by simp [hd])
  have htake : (w ++ s).takeWhile isWordChar = w := by
    rw [List.takeWhile_append_of_pos hw']
    cases s with
    | nil => simp
    | cons d s => simp [hs d rfl]
  have hdrop : (w ++ s).dropWhile isWordChar = s := by
    rw [List.dropWhile_append_of_pos hw']
    cases s with
    | nil => rfl
    | cons d s => simp [hs d rfl]
  rw [List.cons_append, ofCode, listFrom, if_neg (by decide), not_isWordBreak_of_isWordChar hc,
    punctuation?_of_isWordChar hc, htake, hdrop, listFrom_inWord w hw' hs]
  rfl

end Lexeme

/-! ## Following the rest of a text -/

/-- The calls in the masked text `s` when `k` has read `before` (nearest first) of its first
line. -/
def Cursor.resume (k : Cursor) (before s : List Char) : List String :=
  let line := firstLine s
  (k.run (Lexeme.ofCode line)).2 ++
    match below? s with
    | none => []
    | some below =>
        (Tracker.endLine (k.run (Lexeme.ofCode line)).1 (before.reverse ++ line)).calls
          (lines below)

/-- The calls in some lines are those that follow the start of the first of them. -/
theorem Tracker.calls_lines (t : Tracker) (s : List Char) :
    t.calls (lines s) = t.startLine.resume [] s := by
  rcases exists_line s with h | ⟨line, rest, h, rfl⟩
  · rw [Cursor.resume, below?_last h, firstLine_last h, lines_of_no_lineFeed s h]
    cases s with
    | nil => rfl
    | cons c s => simp [Tracker.calls, Tracker.readLine]
  · rw [Cursor.resume, below?_line h, firstLine_line h, lines_append_lineFeed line rest h]
    rfl

/-- A line without a backslash is not continued. -/
theorem Tracker.continued_endLine (k : Cursor) {code : List Char} (h : '\\' ∉ code) :
    (endLine k code).continued = false := by
  have hlast : (trimEnd code).getLast? ≠ some '\\' := by
    intro hb
    have hmem := List.mem_of_getLast? hb
    simp only [trimEnd, List.mem_reverse] at hmem
    exact h (by simpa using (List.dropWhile_sublist _).mem hmem)
  simpa [endLine] using hlast

namespace Cursor

variable (k : Cursor) (before : List Char)

theorem run_cons (l : Lexeme) (ls : List Lexeme) : k.run (l :: ls) =
    (((k.step l).1.run ls).1, (k.step l).2.toList ++ ((k.step l).1.run ls).2) := rfl

theorem run_append (ls ls' : List Lexeme) : k.run (ls ++ ls') =
    (((k.run ls).1.run ls').1, (k.run ls).2 ++ ((k.run ls).1.run ls').2) := by
  induction ls generalizing k with
  | nil => rfl
  | cons l ls ih => simp [run_cons, ih]

theorem resume_blank {c : Char} (h : isWordBreak c = true) (hn : c ≠ '\n') (hr : c ≠ '\r')
    (s : List Char) : k.resume before (c :: s) = k.resume (c :: before) s := by
  rw [resume, resume, below?_cons hn, firstLine_cons hn (fun e => absurd e hr),
    Lexeme.ofCode_blank h]
  simp

/-- At the end of a line the next one starts. -/
theorem resume_lineFeed (s : List Char) :
    k.resume before ('\n' :: s) = (Tracker.endLine k before.reverse).startLine.resume [] s := by
  rw [← Tracker.calls_lines, resume, below?_lineFeed, firstLine_lineFeed]
  simp [Lexeme.ofCode, Lexeme.listFrom, run]

theorem punctuation?_firstLine (c : Char) (s : List Char) :
    Lexeme.punctuation? c (firstLine s) = Lexeme.punctuation? c s := by
  have hne : ∀ d ∈ [';', '&', '('], d ≠ '\n' ∧ d ≠ '\r' := by simp
  exact Lexeme.punctuation?_congr c fun d hd => head?_firstLine (hne d hd).1 (hne d hd).2 s

theorem resume_mark {c : Char} {s : List Char} {mark : Lexeme} (hc : isWordBreak c = false)
    (h : Lexeme.punctuation? c s = some mark) (hmark : mark ≠ .armEnd) :
    k.resume before (c :: s) =
      (k.step mark).2.toList ++ (k.step mark).1.resume (c :: before) s := by
  have hn : c ≠ '\n' := by
    rintro rfl
    revert hc
    decide
  have hr : c ≠ '\r' := by
    rintro rfl
    revert hc
    decide
  rw [resume, resume, below?_cons hn, firstLine_cons hn (fun e => absurd e hr),
    Lexeme.ofCode_mark hc (by rw [punctuation?_firstLine, h]) hmark]
  simp [run]

theorem resume_armEnd {d : Char} (hd : d = ';' ∨ d = '&') (s : List Char) :
    k.resume before (';' :: d :: s) = (k.step .armEnd).1.resume (d :: ';' :: before) s := by
  have hn : d ≠ '\n' := by
    rintro rfl
    revert hd
    decide
  have hr : d ≠ '\r' := by
    rintro rfl
    revert hd
    decide
  rw [resume, resume, below?_cons (by decide), below?_cons hn, firstLine_cons (by decide) (by simp),
    firstLine_cons hn (fun e => absurd e hr), Lexeme.ofCode_armEnd hd]
  simp [run, step]

theorem resume_word {w s : List Char} (hne : w ≠ [])
    (hw : ∀ c ∈ w, Lexeme.isWordChar c = true)
    (hs : ∀ c, s.head? = some c → Lexeme.isWordChar c = false) :
    k.resume before (w ++ s) =
      (k.word (String.ofList w) (Lexeme.startsWithParens (firstLine s))).2.toList ++
        (k.word (String.ofList w) (Lexeme.startsWithParens (firstLine s))).1.resume
          (w.reverse ++ before) s := by
  obtain ⟨hline, hbelow⟩ :=
    firstLine_append (fun c hc => Lexeme.ne_lineFeed_of_isWordChar (hw c hc)) s
  have hs' : ∀ c, (firstLine s).head? = some c → Lexeme.isWordChar c = false := by
    intro c hc
    by_cases hword : Lexeme.isWordChar c = true
    · obtain ⟨hn, hr⟩ := Lexeme.ne_lineFeed_of_isWordChar hword
      exact hs c ((head?_firstLine hn hr s).mp hc)
    · simpa using hword
  rw [resume, resume, hline, hbelow, Lexeme.ofCode_word hne hw hs']
  simp [run, step]

end Cursor

end ShellIndex.Call
