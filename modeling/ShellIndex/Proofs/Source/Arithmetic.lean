import Mathlib.Data.List.TakeWhile
import Mathlib.Logic.Function.Iterate
import ShellIndex.Proofs.Source.Announcements
import ShellIndex.Proofs.Source.LineEnd
import ShellIndex.Proofs.Source.Pairs
import ShellIndex.Proofs.Text.Balance

set_option autoImplicit false

/-! # Shifts in arithmetic

Between `((` and its `))` the signs `<<` are a shift. The reader takes arithmetic to be open while
the line so far shows more `((` than `))`. Two parentheses of an expression that touch count as well,
so that the estimate may be wrong in both directions: inside an expression a shift may announce a
here-document (`Arithmetic.In.announces_iff`), and behind it a here-document may be taken for a
shift. It is right where the inner parentheses of every expression stand apart
(`Settled.lt_inside`, `Settled.arithmetic`).
-/

namespace ShellIndex.Source

open Text

/-! ## What an operator is written with -/

namespace Heredoc
variable {doc : Heredoc} {n : Nat} {s t : List Char}

/-- A closing parenthesis comes before any quotation. -/
def ClosesUnquoted (s : List Char) : Prop :=
  ∃ u t, s = u ++ ')' :: t ∧ ∀ c ∈ u, c ≠ '\'' ∧ c ≠ '"' ∧ c ≠ '\\'

theorem ClosesUnquoted.append (h : ClosesUnquoted t)
    (hs : ∀ c ∈ s, c ≠ '\'' ∧ c ≠ '"' ∧ c ≠ '\\') : ClosesUnquoted (s ++ t) := by
  obtain ⟨u, t, rfl, hu⟩ := h
  refine ⟨s ++ u, t, (List.append_assoc ..).symm, fun c hc => ?_⟩
  rcases List.mem_append.mp hc with hc | hc
  · exact hs c hc
  · exact hu c hc

theorem ClosesUnquoted.of_append (h : ClosesUnquoted (s ++ t)) (hs : ∀ c ∈ s, c ≠ ')') :
    ClosesUnquoted t := by
  induction s with
  | nil => exact h
  | cons c s ih =>
      obtain ⟨u, behind, hu, hquote⟩ := h
      rcases u with _ | ⟨d, u⟩
      · exact absurd (List.cons.inj hu).1 (hs c (by simp))
      · refine ih ⟨u, behind, (List.cons.inj hu).2, fun d' hd => ?_⟩ fun d' hd => ?_
        · exact hquote d' (List.mem_cons_of_mem d hd)
        · exact hs d' (List.mem_cons_of_mem c hd)

/-- A word without quotes holds no character that separates words. -/
theorem separatesWords_of_mem_readWord (h : ClosesUnquoted s) :
    ∀ c ∈ s.take (readWord none s).2, separatesWords c = false := by
  -- No quote comes before the closing parenthesis, so the word ends there at the latest.
  obtain ⟨u, t, rfl, hu⟩ := h
  induction u with
  | nil =>
      have hword : readWord none (')' :: t) = ([], 0) := by
        simp [readWord, separatesWords, isOperator]
      simp [hword]
  | cons d u ih =>
      obtain ⟨hd₁, hd₂, hd₃⟩ := hu d (by simp)
      rw [List.cons_append]
      by_cases hsep : separatesWords d = true
      · simp [readWord, hd₁, hd₂, hd₃, hsep]
      · have hword : (readWord none (d :: (u ++ ')' :: t))).2 =
            (readWord none (u ++ ')' :: t)).2 + 1 := by
          simp [readWord, hd₁, hd₂, hd₃, hsep]
        rw [hword, List.take_succ_cons]
        rintro c hc
        rcases List.mem_cons.mp hc with rfl | hc
        · exact Bool.eq_false_iff.mpr hsep
        · exact ih (fun e he => hu e (List.mem_cons_of_mem d he)) c hc

/-- What announces a document are a dash perhaps, blanks, and what the word is written with. -/
theorem exists_parts_of_read? (h : read? s = some (doc, n)) :
    ∃ dash blanks word, s = dash ++ blanks ++ word ∧ (∀ c ∈ dash, c = '-') ∧
      (∀ c ∈ blanks, isInlineBlank c = true) ∧
      n = (dash ++ blanks).length + (readWord none word).2 := by
  have hsplit : ∀ s : List Char, s = s.takeWhile isInlineBlank ++ skipInline s :=
    fun _ => List.takeWhile_append_dropWhile.symm
  have hblanks : ∀ s : List Char, ∀ c ∈ s.takeWhile isInlineBlank, isInlineBlank c = true :=
    fun _ _ => List.mem_takeWhile_imp
  by_cases hdash : s.head? = some '-'
  · obtain ⟨s, rfl⟩ := List.head?_eq_some_iff.mp hdash
    refine ⟨['-'], s.takeWhile isInlineBlank, skipInline s, ?_, by simp, hblanks s, ?_⟩
    · rw [List.append_assoc, ← hsplit, List.singleton_append]
    · simp only [read?, List.head?_cons, beq_self_eq_true, if_true, List.tail_cons,
        Option.ite_none_left_eq_some, Option.some.injEq, Prod.mk.injEq] at h
      rw [← h.2.2, List.length_append]
      rfl
  · refine ⟨[], s.takeWhile isInlineBlank, skipInline s, hsplit s, by simp, hblanks s, ?_⟩
    simp only [read?, beq_iff_eq, hdash, if_false, Option.ite_none_left_eq_some, Option.some.injEq,
      Prod.mk.injEq] at h
    rw [← h.2.2, Nat.zero_add]
    rfl

/-- What announces a document without quotes holds no parenthesis and no further sign. -/
theorem ne_of_mem_read? (h : ClosesUnquoted s) (hread : read? s = some (doc, n)) :
    ∀ c ∈ s.take n, c ≠ '(' ∧ c ≠ ')' ∧ c ≠ '<' := by
  have hsign : ∀ c, c = '-' ∨ isInlineBlank c = true ∨ separatesWords c = false →
      c ≠ '(' ∧ c ≠ ')' ∧ c ≠ '<' := by
    rintro c hc
    refine ⟨?_, ?_, ?_⟩ <;> rintro rfl <;> exact absurd hc (by decide)
  obtain ⟨dash, blanks, word, rfl, hdash, hblanks, rfl⟩ := exists_parts_of_read? hread
  have hlead : ∀ c ∈ dash ++ blanks, c = '-' ∨ isInlineBlank c = true := fun c hc =>
    (List.mem_append.mp hc).imp (hdash c) (hblanks c)
  have hword := separatesWords_of_mem_readWord
    (h.of_append fun c hc => (hsign c ((hlead c hc).imp_right Or.inl)).2.1)
  intro c hc
  rw [List.take_length_add_append] at hc
  rcases List.mem_append.mp hc with hc | hc
  · exact hsign c ((hlead c hc).imp_right Or.inl)
  · exact hsign c (Or.inr (Or.inr (hword c hc)))

end Heredoc

/-! ## Two signs in code -/

namespace Reader
variable {r : Reader} {c : Char} {s rest : List Char} {doc : Heredoc}

/-- The signs that announce a document: exactly two, in code, where arithmetic is not taken to be
open and a word follows. -/
theorem announces_eq_some_iff : r.announces c rest = some doc ↔
    c = '<' ∧ r.Coding ∧ r.before.head? ≠ some '<' ∧
      countPairs '(' r.code ≤ countPairs ')' r.code ∧
      ∃ s, rest = '<' :: s ∧ s.head? ≠ some '<' ∧ (Heredoc.read? s).map Prod.fst = some doc := by
  have hopens : r.opensHeredoc rest = true ↔ r.before.head? ≠ some '<' ∧
      countPairs '(' r.code ≤ countPairs ')' r.code ∧ ∃ s, rest = '<' :: s ∧ s.head? ≠ some '<' := by
    unfold opensHeredoc
    split
    · simp [insideArithmetic, and_assoc, and_comm, and_left_comm]
    · next hne =>
        refine ⟨fun h => absurd h (by decide), ?_⟩
        rintro ⟨-, -, s, rfl, -⟩
        exact absurd rfl (hne s)
  rw [announces, Option.ite_none_right_eq_some, hopens]
  constructor
  · rintro ⟨⟨rfl, howed, hcode, hbefore, hpairs, s, rfl, hs⟩, hdoc⟩
    exact ⟨rfl, ⟨hcode, howed⟩, hbefore, hpairs, s, rfl, hs, hdoc⟩
  · rintro ⟨rfl, hr, hbefore, hpairs, s, rfl, hs, hdoc⟩
    exact ⟨⟨rfl, hr.owed_eq, hr.reads_code, hbefore, hpairs, s, rfl, hs⟩, hdoc⟩

/-! ## Parentheses in code -/

theorem Coding.step_open (h : r.Coding) (rest : List Char) :
    r.step '(' rest = { r.keep '(' with contexts := openParen r.contexts } := h.step_eq '(' rest

theorem Coding.step_close (h : r.Coding) (rest : List Char) :
    r.step ')' rest = { r.keep ')' with contexts := closeParen r.contexts } := h.step_eq ')' rest

/-- Two opening parentheses in code. -/
theorem Coding.readTo_open (h : r.Coding) (s rest : List Char) :
    ∃ r' : Reader, r'.Coding ∧ r'.contexts = openParen (openParen r.contexts) ∧
      r'.heredocs = r.heredocs ∧ r'.before = '(' :: '(' :: r.before ∧
      r'.code = '(' :: '(' :: r.code ∧ r.readTo rest ('(' :: '(' :: s) = r'.readTo rest s := by
  have hopens : ∀ r : Reader, ¬ r.opensComment '(' = true := by simp [opensComment]
  let r₁ : Reader := { r.keep '(' with contexts := openParen r.contexts }
  let r₂ : Reader := { r₁.keep '(' with contexts := openParen (openParen r.contexts) }
  have hr₁ : r₁.Coding := ⟨readsCode_openParen h.reads_code, rfl⟩
  refine ⟨r₂, ⟨readsCode_openParen hr₁.reads_code, rfl⟩, rfl, rfl, rfl, rfl, ?_⟩
  rw [readTo, if_neg (hopens r), h.step_open, readTo, if_neg (hopens _), hr₁.step_open]

/-- Two closing parentheses in code, both of which end a substitution or leave its parentheses. -/
theorem Coding.readTo_close (h : r.Coding) {contexts : List Context}
    (hcode : readsCode contexts = true) (hcontexts : r.contexts = openParen (openParen contexts))
    (rest : List Char) : ∃ r' : Reader, r'.Coding ∧ r'.contexts = contexts ∧
      r'.heredocs = r.heredocs ∧ r'.code = ')' :: ')' :: r.code ∧
      r.readTo rest [')', ')'] = some r' := by
  have hopens : ∀ r : Reader, ¬ r.opensComment ')' = true := by simp [opensComment]
  let r₁ : Reader := { r.keep ')' with contexts := openParen contexts }
  let r₂ : Reader := { r₁.keep ')' with contexts := contexts }
  have hr₁ : r₁.Coding := ⟨readsCode_openParen hcode, rfl⟩
  have hstep₁ : r.step ')' (')' :: rest) = r₁ := by
    rw [h.step_close, hcontexts, closeParen_openParen]
  have hstep₂ : r₁.step ')' rest = r₂ := by
    rw [hr₁.step_close, closeParen_openParen]
  refine ⟨r₂, ⟨hcode, rfl⟩, rfl, rfl, rfl, ?_⟩
  rw [readTo, if_neg (hopens r), List.singleton_append, hstep₁, readTo, if_neg (hopens r₁),
    List.nil_append, hstep₂, readTo]

/-! ## Inside an expression -/

/-- The reader stands in an operator that is taken as it is: no parenthesis is left of it, and no
sign `<` but the second. -/
def InOperator (r : Reader) (rest : List Char) : Prop :=
  ∃ more, r.owed = .verbatim more ∧ (∀ c ∈ rest.take (more + 1), c ≠ '(' ∧ c ≠ ')') ∧
    '<' ∉ rest.tail.take more ∧ (rest.head? = some '<' → r.before.head? = some '<')

/-- The reader stands in an expression, behind `n` open parentheses of it. -/
structure Inside (r : Reader) (contexts : List Context) (n : Nat) (rest : List Char) : Prop where
  contexts_eq : r.contexts = openParen^[n] contexts
  owed : r.owed = .nothing ∨ r.InOperator rest

variable {contexts : List Context} {m n : Nat}

theorem readsCode_iterate_openParen (hcode : readsCode contexts = true) (n : Nat) :
    readsCode (openParen^[n] contexts) = true := by
  induction n with
  | zero => exact hcode
  | succ n ih =>
      rw [Function.iterate_succ_apply']
      exact readsCode_openParen ih

theorem InOperator.ne_paren (h : r.InOperator (c :: rest)) : c ≠ '(' ∧ c ≠ ')' := by
  obtain ⟨more, -, hparen, -⟩ := h
  exact hparen c (by simp)

/-- In an operator the character is taken as it is. -/
theorem InOperator.step (h : r.InOperator (c :: rest)) :
    (r.step c rest).contexts = r.contexts ∧ (r.step c rest).code = c :: r.code ∧
      ((r.step c rest).owed = .nothing ∨ (r.step c rest).InOperator rest) := by
  obtain ⟨more, howed, hparen, hsign, -⟩ := h
  rw [Reader.step, howed]
  cases more with
  | zero => exact ⟨rfl, rfl, Or.inl rfl⟩
  | succ more =>
      refine ⟨rfl, rfl, Or.inr ⟨more, rfl, fun d hd => hparen d ?_, fun hmem => hsign ?_,
        fun hhead => ?_⟩⟩
      · rw [List.take_succ_cons]
        exact List.mem_cons_of_mem c hd
      · rcases rest with _ | ⟨d, rest⟩
        · simp at hmem
        · rw [List.tail_cons, List.take_succ_cons]
          exact List.mem_cons_of_mem d hmem
      · obtain ⟨rest, rfl⟩ := List.head?_eq_some_iff.mp hhead
        exact absurd (by simp) hsign

/-- Behind the first sign of an operator the reader stands in the operator. -/
theorem inOperator_announce (hrest : Heredoc.ClosesUnquoted rest)
    (hopens : r.opensHeredoc rest = true) : (r.announce rest).InOperator rest := by
  obtain ⟨s, rfl⟩ : ∃ s, rest = '<' :: s := by
    unfold opensHeredoc at hopens
    split at hopens
    · exact ⟨_, rfl⟩
    · cases hopens
  have hs : Heredoc.ClosesUnquoted s :=
    Heredoc.ClosesUnquoted.of_append (s := ['<']) hrest (by simp)
  rw [announce]
  split
  · next doc k hread =>
      have hword := Heredoc.ne_of_mem_read? hs hread
      refine ⟨k, rfl, fun d hd => ?_, fun hmem => (hword '<' hmem).2.2 rfl, fun _ => rfl⟩
      rcases List.mem_cons.mp hd with rfl | hd
      · decide
      · exact ⟨(hword d hd).1, (hword d hd).2.1⟩
  · exact ⟨0, rfl, by simp, by simp, fun _ => rfl⟩

/-- In code a character of an expression opens or closes at most a parenthesis, or starts an
operator. -/
theorem Coding.step_arithmetic (h : r.Coding) (hc : isPlainCode c = true ∨ c = '<' ∨ c = '#')
    (hrest : Heredoc.ClosesUnquoted rest) : (r.step c rest).contexts = parens r.contexts c ∧
      ((r.step c rest).owed = .nothing ∨ (r.step c rest).InOperator rest) := by
  rw [h.step_eq]
  by_cases hsign : c = '<'
  · subst hsign
    show (if r.opensHeredoc rest then r.announce rest else r.keep '<').contexts = r.contexts ∧
      ((if r.opensHeredoc rest then r.announce rest else r.keep '<').owed = .nothing ∨
        (if r.opensHeredoc rest then r.announce rest else r.keep '<').InOperator rest)
    split
    · next hopens =>
        refine ⟨?_, Or.inr (inOperator_announce hrest hopens)⟩
        rw [announce]
        split <;> rfl
    · exact ⟨rfl, Or.inl rfl⟩
  by_cases hopen : c = '('
  · subst hopen
    exact ⟨rfl, Or.inl rfl⟩
  by_cases hclose : c = ')'
  · subst hclose
    exact ⟨rfl, Or.inl rfl⟩
  have hquote : c ≠ '\'' ∧ c ≠ '"' ∧ c ≠ '\\' ∧ c ≠ '`' := by
    rcases hc with hc | rfl | rfl
    · exact (ne_of_isPlainCode hc).1
    · decide
    · decide
  obtain ⟨hc₁, hc₂, hc₃, hc₄⟩ := hquote
  have hkeep : r.stepCode c rest = r.keep c := by
    unfold stepCode
    split <;> first | rfl | contradiction
  rw [hkeep, parens, if_neg hopen, if_neg hclose]
  exact ⟨rfl, Or.inl rfl⟩

theorem parens_iterate (hm : balance '(' ')' n [c] = some m) :
    parens (openParen^[n] contexts) c = openParen^[m] contexts := by
  by_cases hopen : c = '('
  · subst hopen
    obtain rfl : n + 1 = m := Option.some.inj hm
    exact (Function.iterate_succ_apply' openParen n contexts).symm
  by_cases hclose : c = ')'
  · subst hclose
    rcases n with _ | n
    · cases hm
    · obtain rfl : n = m := Option.some.inj hm
      show closeParen (openParen^[n + 1] contexts) = _
      rw [Function.iterate_succ_apply', closeParen_openParen]
  obtain rfl : n = m := by simpa [balance, hopen, hclose] using hm
  rw [parens, if_neg hopen, if_neg hclose]

/-- One character of an expression. -/
theorem Inside.step (h : r.Inside contexts n (c :: rest)) (hcode : readsCode contexts = true)
    (hc : isPlainCode c = true ∨ c = '<' ∨ c = '#') (hrest : Heredoc.ClosesUnquoted rest)
    (hm : balance '(' ')' n [c] = some m) :
    (r.step c rest).Inside contexts m rest ∧ (r.step c rest).code = c :: r.code := by
  rcases h.owed with howed | hop
  · have hr : r.Coding := ⟨by rw [h.contexts_eq]; exact readsCode_iterate_openParen hcode n, howed⟩
    obtain ⟨hcontexts, howed'⟩ := hr.step_arithmetic hc hrest
    rw [h.contexts_eq, parens_iterate hm] at hcontexts
    refine ⟨⟨hcontexts, howed'⟩, ?_⟩
    rw [hr.step_eq, code_stepCode]
  · obtain ⟨hcontexts, hview, howed⟩ := hop.step
    obtain ⟨hopen, hclose⟩ := hop.ne_paren
    obtain rfl : n = m := by simpa [balance, hopen, hclose] using hm
    exact ⟨⟨hcontexts.trans h.contexts_eq, howed⟩, hview⟩

end Reader

/-! ## Expressions -/

/-- Whether a text can stand in arithmetic behind the character `last`: names, numbers, blanks,
operators and parentheses. A sign `#` belongs to a number. -/
def isArithmetic (last : Char) : List Char → Bool
  | [] => true
  | c :: s => (isPlainCode c || c == '<' || c == '#' && !separatesWords last) && isArithmetic c s

section
variable {last c : Char} {s t : List Char}

theorem isArithmetic_cons : isArithmetic last (c :: s) = true ↔
    (isPlainCode c = true ∨ c = '<' ∨ c = '#' ∧ separatesWords last = false) ∧
      isArithmetic c s = true := by
  simp [isArithmetic, or_assoc]

theorem isArithmetic_of_append (h : isArithmetic last (s ++ t) = true) :
    isArithmetic last s = true := by
  induction s generalizing last with
  | nil => rfl
  | cons c s ih =>
      obtain ⟨hc, hs⟩ := isArithmetic_cons.mp h
      exact isArithmetic_cons.mpr ⟨hc, ih hs⟩

/-- Arithmetic holds neither quotes nor escapes. -/
theorem ne_of_mem_arithmetic (h : isArithmetic last s = true) :
    ∀ c ∈ s, c ≠ '\'' ∧ c ≠ '"' ∧ c ≠ '\\' := by
  induction s generalizing last with
  | nil => simp
  | cons d s ih =>
      obtain ⟨hd, hs⟩ := isArithmetic_cons.mp h
      intro c hc
      rcases List.mem_cons.mp hc with rfl | hc
      · rcases hd with hd | rfl | ⟨rfl, -⟩
        · obtain ⟨⟨h₁, h₂, h₃, -⟩, -⟩ := ne_of_isPlainCode hd
          exact ⟨h₁, h₂, h₃⟩
        · decide
        · decide
      · exact ih hs c hc

/-- **An expression is read as it is**, with its parentheses matched. -/
theorem Reader.Inside.readTo {r : Reader} {contexts : List Context} {m n : Nat} {rest : List Char}
    (h : r.Inside contexts n (s ++ rest)) (hcode : readsCode contexts = true)
    (hs : isArithmetic last s = true) (hlast : r.before.head? = some last)
    (hrest : Heredoc.ClosesUnquoted rest) (hm : balance '(' ')' n s = some m) :
    ∃ r' : Reader, r.readTo rest s = some r' ∧ r'.Inside contexts m rest ∧
      r'.code = s.reverse ++ r.code := by
  -- Behind a character the reader is inside again, at the depth that `balance` gives there.
  induction s generalizing r n last with
  | nil =>
      obtain rfl := Option.some.inj hm
      exact ⟨r, rfl, h, rfl⟩
  | cons c s ih =>
      obtain ⟨hc, hs⟩ := isArithmetic_cons.mp hs
      rw [← List.singleton_append, balance_append, Option.bind_eq_some_iff] at hm
      obtain ⟨k, hk, hm⟩ := hm
      have hbehind : Heredoc.ClosesUnquoted (s ++ rest) := hrest.append (ne_of_mem_arithmetic hs)
      obtain ⟨hstep, hview⟩ := h.step hcode (hc.imp_right (Or.imp_right And.left)) hbehind hk
      have hopens : r.opensComment c = false := by
        rw [Bool.eq_false_iff, ne_eq, opensComment_iff]
        rintro ⟨rfl, -, -, hbreak⟩
        rcases hc with hc | hc | ⟨-, hc⟩
        · cases hc
        · cases hc
        · exact absurd (hbreak last hlast) (by simp [hc])
      obtain ⟨r', hreach, hinside, hcode'⟩ := ih hstep hs (by rw [before_step]; rfl) hm
      refine ⟨r', readTo_cons_iff.mpr ⟨hopens, hreach⟩, hinside, ?_⟩
      rw [hcode', hview, List.reverse_cons, List.append_assoc, List.singleton_append]

end

/-! ## Arithmetic in a script -/

/-- An arithmetic command or expansion in a script, with what stands around it. -/
structure Arithmetic where
  /-- The lines above. -/
  above : List (List Char)
  /-- What stands before the `((` in its line. -/
  front : List Char
  /-- What stands between the `((` and its `))`. -/
  expression : List Char
  /-- What stands behind the `))` in its line. -/
  behind : List Char
  /-- The lines below. -/
  below : List (List Char)

namespace Arithmetic
variable {p : Arithmetic} {text : String} {r : Reader} {e₁ e₂ : List Char}

/-- The line from the `))` on. -/
def closing (p : Arithmetic) : List Char := ')' :: ')' :: p.behind

def place (p : Arithmetic) : Place :=
  ⟨p.above, p.front, '(' :: '(' :: (p.expression ++ p.closing), p.below⟩

/-- What is open behind the line. -/
def openAfter (p : Arithmetic) : Open := p.place.openAfter

/-- The arithmetic stands in the code of `text`, and `r` is the reader before it. -/
structure In (p : Arithmetic) (text : String) (r : Reader) : Prop extends p.place.At text r where
  coding : r.Coding
  isArithmetic_eq : isArithmetic '(' p.expression = true
  balance_eq : balance '(' ')' 0 p.expression = some 0

/-- The view of the line (nearest first) behind a part of the expression. -/
def view (r : Reader) (e : List Char) : List Char := e.reverse ++ '(' :: '(' :: r.code

/-- Within the arithmetic the reader stands in code. -/
theorem In.reads_inside (h : p.In text r) (n : Nat) :
    readsCode (openParen^[n] (openParen (openParen r.contexts))) = true :=
  Reader.readsCode_iterate_openParen
    (readsCode_openParen (readsCode_openParen h.coding.reads_code)) n

theorem In.exists_inside (h : p.In text r) (he : p.expression = e₁ ++ e₂) :
    ∃ (r₁ : Reader) (n : Nat), r.readTo (e₂ ++ p.closing) ('(' :: '(' :: e₁) = some r₁ ∧
      balance '(' ')' 0 e₁ = some n ∧
      r₁.Inside (openParen (openParen r.contexts)) n (e₂ ++ p.closing) ∧ r₁.code = view r e₁ := by
  obtain ⟨r₀, hr₀, hcontexts, -, hbefore, hview, hopen⟩ :=
    h.coding.readTo_open e₁ (e₂ ++ p.closing)
  have hchars := h.isArithmetic_eq
  have hbalance := h.balance_eq
  rw [he] at hchars
  rw [he, balance_append, Option.bind_eq_some_iff] at hbalance
  obtain ⟨n, hn, -⟩ := hbalance
  have hclosing : Heredoc.ClosesUnquoted (e₂ ++ p.closing) :=
    ⟨e₂, ')' :: p.behind, rfl, fun c hc =>
      ne_of_mem_arithmetic hchars c (List.mem_append_right e₁ hc)⟩
  have hinside₀ : r₀.Inside (openParen (openParen r.contexts)) 0 (e₁ ++ (e₂ ++ p.closing)) :=
    ⟨hcontexts, Or.inl hr₀.owed_eq⟩
  obtain ⟨r₁, hreach, hinside, hview₁⟩ :=
    hinside₀.readTo (h.reads_inside 0) (isArithmetic_of_append hchars) (by rw [hbefore]; rfl)
      hclosing hn
  exact ⟨r₁, n, hopen.trans hreach, hn, hinside, by rw [hview₁, hview, view]⟩

/-- **The signs that announce a document within arithmetic** are exactly two, where the line shows
no more `((` than `))`. -/
theorem In.announces_iff (h : p.In text r) (he : p.expression = e₁ ++ '<' :: e₂) :
    ∃ r₁ : Reader, r.readTo ('<' :: (e₂ ++ p.closing)) ('(' :: '(' :: e₁) = some r₁ ∧
      ∀ doc, r₁.announces '<' (e₂ ++ p.closing) = some doc ↔ e₁.getLast? ≠ some '<' ∧
        countPairs '(' (view r e₁) ≤ countPairs ')' (view r e₁) ∧
        ∃ s, e₂ = '<' :: s ∧ s.head? ≠ some '<' ∧
          (Heredoc.read? (s ++ p.closing)).map Prod.fst = some doc := by
  obtain ⟨r₁, n, hreach, -, hinside, hview⟩ := h.exists_inside he
  have hbefore : r₁.before.head? ≠ some '<' ↔ e₁.getLast? ≠ some '<' := by
    rw [Reader.before_readTo hreach]
    rcases List.eq_nil_or_concat e₁ with rfl | ⟨s, c, rfl⟩
    · simp
    · simp
  refine ⟨r₁, hreach, fun doc => ?_⟩
  rw [Reader.announces_eq_some_iff, hbefore, hview]
  constructor
  · rintro ⟨-, -, hlast, hpairs, s, hs, hhead, hdoc⟩
    rcases e₂ with _ | ⟨c, s'⟩
    · cases hs
    · obtain ⟨rfl, htail⟩ := List.cons.inj hs
      have hbehind : s' ++ p.closing = s := htail
      refine ⟨hlast, hpairs, s', rfl, fun hsign => hhead ?_, by rw [hbehind, hdoc]⟩
      rw [← hbehind, List.head?_append, hsign]
      rfl
  · rintro ⟨hlast, hpairs, s, rfl, hhead, hdoc⟩
    have hcoding : r₁.Coding := by
      rcases hinside.owed with howed | ⟨-, -, -, -, hsecond⟩
      · refine ⟨?_, howed⟩
        rw [hinside.contexts_eq]
        exact h.reads_inside n
      · -- A sign that is left of an operator is its second one.
        exact absurd (hsecond rfl) (hbefore.mpr hlast)
    refine ⟨rfl, hcoding, hlast, hpairs, s ++ p.closing, rfl, fun hsign => hhead ?_, hdoc⟩
    rcases s with _ | ⟨c, s⟩
    · cases hsign
    · exact hsign

/-- Behind the arithmetic the reader stands where it stood before it. -/
theorem In.exists_behind (h : p.In text r) : ∃ r₂ : Reader,
    r.readTo p.behind ('(' :: '(' :: (p.expression ++ [')', ')'])) = some r₂ ∧ r₂.Coding ∧
      r₂.contexts = r.contexts ∧ r₂.code = ')' :: ')' :: view r p.expression := by
  obtain ⟨r₁, n, hreach, hn, hinside, hview⟩ := h.exists_inside (List.append_nil p.expression).symm
  obtain rfl : 0 = n := by
    rw [h.balance_eq] at hn
    exact Option.some.inj hn
  have hcoding : r₁.Coding := by
    refine ⟨by rw [hinside.contexts_eq]; exact h.reads_inside 0, ?_⟩
    rcases hinside.owed with howed | hop
    · exact howed
    · exact absurd rfl hop.ne_paren.2
  obtain ⟨r₂, hr₂, hcontexts, -, hview₂, hclose⟩ :=
    hcoding.readTo_close h.coding.reads_code hinside.contexts_eq p.behind
  refine ⟨r₂, ?_, hr₂, hcontexts, by rw [hview₂, hview]⟩
  rw [← List.cons_append, ← List.cons_append, Reader.readTo_append]
  rw [show [')', ')'] ++ p.behind = p.closing from rfl]
  rw [List.nil_append] at hreach
  rw [hreach]
  exact hclose

/-- What is open behind the line are the documents announced up to the arithmetic's end, and those
announced behind it. -/
theorem In.heredocs_openAfter (h : p.In text r) {r₂ : Reader}
    (hreach : r.readTo p.behind ('(' :: '(' :: (p.expression ++ [')', ')'])) = some r₂) :
    p.openAfter.heredocs = r₂.heredocs ++ r₂.announced p.behind := by
  have honward : p.place.onward = '(' :: '(' :: (p.expression ++ [')', ')']) ++ p.behind := by
    simp [place, closing]
  rw [openAfter, h.toAt.heredocs_openAfter, honward, Reader.run_append hreach, Reader.heredocs_run]

end Arithmetic

/-! ## Where the estimate is right -/

/-- All arithmetic in the code of a line (nearest first) is closed, as far as its pairs of
parentheses show. -/
structure Settled (code : List Char) : Prop where
  even : countPairs '(' code = countPairs ')' code
  not_open : code.head? ≠ some '('

namespace Settled
variable {code e : List Char} {c : Char}

theorem nil : Settled [] := ⟨rfl, by simp⟩

theorem cons (h : Settled code) (hopen : c ≠ '(') (hclose : c ≠ ')') : Settled (c :: code) := by
  refine ⟨?_, by simpa using hopen⟩
  rw [countPairs_cons_of_ne hopen, countPairs_cons_of_ne hclose, h.even]

/-- Text without parentheses leaves the line settled. -/
theorem readTo {r r' : Reader} {s rest : List Char} (h : Settled r.code)
    (hreach : r.readTo rest s = some r') (hs : ∀ c ∈ s, c ≠ '(' ∧ c ≠ ')') : Settled r'.code := by
  obtain ⟨shown, hshown, hmem⟩ := Reader.exists_code_readTo hreach
  -- A masked character shows as a blank, which is no parenthesis either.
  have hparen : ∀ c ∈ shown, c ≠ '(' ∧ c ≠ ')' := by
    intro c hc
    rcases hmem c hc with hc | rfl
    · exact hs c hc
    · decide
  rw [hshown]
  clear hshown hmem
  induction shown with
  | nil => exact h
  | cons c shown ih =>
      obtain ⟨hopen, hclose⟩ := hparen c (by simp)
      exact (ih fun d hd => hparen d (List.mem_cons_of_mem c hd)).cons hopen hclose

theorem countPairs_open (h : Settled code) (he : Apart '(' e) :
    countPairs '(' (e.reverse ++ '(' :: '(' :: code) = countPairs '(' code + 1 :=
  he.reverse.countPairs_append_pair h.not_open

theorem countPairs_close (he : Apart ')' e) :
    countPairs ')' (e.reverse ++ '(' :: '(' :: code) = countPairs ')' code := by
  rw [countPairs_append_cons (by decide), he.reverse.countPairs_eq_zero, Nat.zero_add,
    countPairs_cons_of_ne (by decide)]

/-- Inside an expression whose parentheses stand apart, arithmetic is taken to be open. -/
theorem lt_inside (h : Settled code) (hopen : Apart '(' e) (hclose : Apart ')' e) :
    countPairs ')' (e.reverse ++ '(' :: '(' :: code) <
      countPairs '(' (e.reverse ++ '(' :: '(' :: code) := by
  rw [h.countPairs_open hopen, countPairs_close hclose, h.even]
  exact Nat.lt_succ_self _

/-- Behind such an expression it is taken to be closed. -/
theorem arithmetic (h : Settled code) (hopen : Apart '(' e) (hclose : Apart ')' e) :
    Settled (')' :: ')' :: (e.reverse ++ '(' :: '(' :: code)) := by
  refine ⟨?_, by simp⟩
  rw [countPairs_pair, countPairs_close hclose, countPairs_cons_of_ne (by decide),
    countPairs_cons_of_ne (by decide), h.countPairs_open hopen, h.even]

end Settled

/-- A sign `<` between two pairs of parentheses stands in the expression between them. -/
theorem exists_expression_of_sign {e front back : List Char}
    (h : '(' :: '(' :: (e ++ [')', ')']) = front ++ '<' :: back) : ∃ e₁ e₂,
    e = e₁ ++ '<' :: e₂ ∧ front = '(' :: '(' :: e₁ ∧ back = e₂ ++ [')', ')'] := by
  rcases front with _ | ⟨c, _ | ⟨d, e₁⟩⟩
  · cases h
  · cases h
  · obtain ⟨rfl, h₁⟩ := List.cons.inj h
    obtain ⟨rfl, h₂⟩ := List.cons.inj h₁
    rcases List.append_eq_append_iff.mp h₂ with ⟨s, -, hs⟩ | ⟨s, he, hs⟩
    · have hmem : '<' ∈ [')', ')'] := by
        rw [hs]
        simp
      exact absurd hmem (by decide)
    · rcases s with _ | ⟨c, e₂⟩
      · cases hs
      · obtain ⟨rfl, rfl⟩ := List.cons.inj hs
        exact ⟨e₁, e₂, he, rfl, rfl⟩

/-- No sign within an expression whose parentheses stand apart announces a document. -/
theorem Arithmetic.In.heredocs_of_apart {p : Arithmetic} {text : String} {r r₂ : Reader}
    (h : p.In text r) (hsettled : Settled r.code) (hopen : Apart '(' p.expression)
    (hclose : Apart ')' p.expression)
    (hreach : r.readTo p.behind ('(' :: '(' :: (p.expression ++ [')', ')'])) = some r₂) :
    r₂.heredocs = r.heredocs := by
  refine Reader.heredocs_readTo hreach fun front back r₁ hsplit hfront => ?_
  obtain ⟨e₁, e₂, he, rfl, rfl⟩ := exists_expression_of_sign hsplit
  obtain ⟨r₁', hfront', hiff⟩ := h.announces_iff he
  have hback : e₂ ++ [')', ')'] ++ p.behind = e₂ ++ p.closing := by simp [Arithmetic.closing]
  rw [hback] at hfront ⊢
  obtain rfl : r₁' = r₁ := Option.some.inj (hfront'.symm.trans hfront)
  rw [Option.eq_none_iff_forall_ne_some]
  intro doc hdoc
  have hpairs := ((hiff doc).mp hdoc).2.1
  have happart : ∀ c, Apart c p.expression → Apart c e₁ := by
    rw [he]
    exact fun c h => h.of_append
  have hlt := hsettled.lt_inside (happart _ hopen) (happart _ hclose)
  exact absurd hpairs (Nat.not_le_of_lt hlt)

/-- **A shift is told from a here-document by counting.** Within arithmetic the signs `<<` announce a
document exactly where the line so far shows no more `((` than `))` and a word follows, and so do the
signs `<<` behind it. If the line before is settled, as it is without parentheses, and those of the
expression stand apart, nothing within announces a document and the line is settled again behind,
where `<<WORD` announces one. The next line belongs to a document exactly if one is open. -/
theorem shifts_told_by_pairs {text : String} {p : Arithmetic} {r : Reader} (h : p.In text r) :
    ((∀ c ∈ p.front, c ≠ '(' ∧ c ≠ ')') → Settled r.code) ∧
    (∀ e₁ e₂, p.expression = e₁ ++ '<' :: e₂ → ∃ r₁ : Reader,
      r.readTo ('<' :: (e₂ ++ p.closing)) ('(' :: '(' :: e₁) = some r₁ ∧
      ∀ doc, r₁.announces '<' (e₂ ++ p.closing) = some doc ↔ e₁.getLast? ≠ some '<' ∧
        countPairs '(' (Arithmetic.view r e₁) ≤ countPairs ')' (Arithmetic.view r e₁) ∧
        ∃ s, e₂ = '<' :: s ∧ s.head? ≠ some '<' ∧
          (Heredoc.read? (s ++ p.closing)).map Prod.fst = some doc) ∧
    (∃ r₂ : Reader, r.readTo p.behind ('(' :: '(' :: (p.expression ++ [')', ')'])) = some r₂ ∧
      r₂.Coding ∧ r₂.contexts = r.contexts ∧
      r₂.code = ')' :: ')' :: Arithmetic.view r p.expression ∧
      p.openAfter.heredocs = r₂.heredocs ++ r₂.announced p.behind ∧
      (Settled r.code → Apart '(' p.expression → Apart ')' p.expression →
        r₂.heredocs = r.heredocs ∧ Settled r₂.code) ∧
      ∀ mid s r₃ doc, p.behind = mid ++ '<' :: '<' :: s →
        r₂.readTo ('<' :: '<' :: s) mid = some r₃ → r₃.Coding → r₃.before.head? ≠ some '<' →
        s.head? ≠ some '<' → (Heredoc.read? s).map Prod.fst = some doc →
        (r₃.announces '<' ('<' :: s) = some doc ↔
          countPairs '(' r₃.code ≤ countPairs ')' r₃.code) ∧
        ((∀ c ∈ mid, c ≠ '(' ∧ c ≠ ')') → Settled r₂.code → Settled r₃.code) ∧
        (Settled r₃.code → doc ∈ p.openAfter.heredocs)) ∧
    ∀ next below, p.below = next :: below → ∃ l ∈ scan text, l.number = p.above.length + 2 ∧
      l.raw = next ∧
      (p.openAfter.heredocs ≠ [] → l.code = mask next ∧ l.comment = none) ∧
      (p.openAfter.heredocs = [] → l.comment = ((Reader.start p.openAfter.contexts).run next).2 ∧
        l.code = ((Reader.start p.openAfter.contexts).run next).1.code.reverse) := by
  refine ⟨Settled.nil.readTo h.readTo_eq, fun e₁ e₂ he => h.announces_iff he, ?_,
    fun next below hbelow => h.toAt.exists_next hbelow⟩
  obtain ⟨r₂, hreach, hcoding, hcontexts, hview⟩ := h.exists_behind
  have hdocs := h.heredocs_openAfter hreach
  refine ⟨r₂, hreach, hcoding, hcontexts, hview, hdocs, fun hsettled hopen hclose => ⟨?_, ?_⟩, ?_⟩
  · exact h.heredocs_of_apart hsettled hopen hclose hreach
  · rw [hview]
    exact hsettled.arithmetic hopen hclose
  · intro mid s r₃ doc hbehind hmid hr₃ hbefore hs hdoc
    have hannounces : r₃.announces '<' ('<' :: s) = some doc ↔
        countPairs '(' r₃.code ≤ countPairs ')' r₃.code := by
      rw [Reader.announces_eq_some_iff]
      constructor
      · rintro ⟨-, -, -, hpairs, -⟩
        exact hpairs
      · exact fun hpairs => ⟨rfl, hr₃, hbefore, hpairs, s, rfl, hs, hdoc⟩
    refine ⟨hannounces, fun hmid' hsettled => hsettled.readTo hmid hmid', fun hsettled => ?_⟩
    rw [hdocs]
    exact List.mem_append_right _ (Reader.mem_announced_iff.mpr
      ⟨mid, '<' :: s, r₃, hbehind, hmid, hannounces.mpr hsettled.even.le⟩)

/-! ## Two expressions

The inner parentheses of `(1+(2+3)*4)` stand apart, those of `(1+(2))` touch. -/

theorem shifts_told_by_pairs_apart :
    ∃ (p : Arithmetic) (r r₂ : Reader), p.In "x=$((1+(2+3)*4 << 2)); cat <<EOF\nwarn x\nEOF\n" r ∧
      r.readTo p.behind ('(' :: '(' :: (p.expression ++ [')', ')'])) = some r₂ ∧
      r₂.heredocs = [] ∧ ⟨"EOF".toList, false⟩ ∈ p.openAfter.heredocs := by
  let p : Arithmetic := ⟨[], "x=$".toList, "1+(2+3)*4 << 2".toList, "; cat <<EOF".toList,
    ["warn x".toList, "EOF".toList]⟩
  let plain : String → Reader := fun s => ⟨[], [], s.toList.reverse, s.toList.reverse, .nothing⟩
  have hin : p.In "x=$((1+(2+3)*4 << 2)); cat <<EOF\nwarn x\nEOF\n" (plain "x=$") := by
    constructor
    case coding => exact ⟨rfl, rfl⟩
    all_goals decide +kernel
  obtain ⟨hfront, -, ⟨r₂, hreach, -, -, -, -, hapart, hbehind⟩, -⟩ := shifts_told_by_pairs hin
  have hsettled : Settled (plain "x=$").code := hfront (by simp [p])
  obtain ⟨hdocs, hsettled₂⟩ := hapart hsettled (by decide +kernel) (by decide +kernel)
  obtain rfl : r₂ = plain "x=$((1+(2+3)*4 << 2))" :=
    Option.some.inj (hreach.symm.trans (by decide +kernel))
  obtain ⟨-, hmid, hopen⟩ := hbehind "; cat ".toList "EOF".toList
    (plain "x=$((1+(2+3)*4 << 2)); cat ") ⟨"EOF".toList, false⟩ (by decide +kernel)
    (by decide +kernel) ⟨rfl, rfl⟩ (by decide +kernel) (by decide +kernel) (by decide +kernel)
  exact ⟨p, _, _, hin, hreach, hdocs, hopen (hmid (by simp) hsettled₂)⟩

/-- Where inner parentheses touch, a shift takes the next line for a document, and a document's lines
are taken for code. -/
theorem shifts_taken_for_heredocs :
    (∃ (p : Arithmetic) (r : Reader), p.In "echo $(( (1+(2)) << 3 ))\nwarn x\n" r ∧
      p.openAfter.heredocs = [⟨"3".toList, false⟩] ∧
      (scan "echo $(( (1+(2)) << 3 ))\nwarn x\n").map Line.code =
        ["echo $(( (1+(2)) << 3 ))".toList, "      ".toList]) ∧
    ∃ (p : Arithmetic) (r : Reader), p.In "echo $(( ((1)+2) )); cat <<EOF\nwarn x\nEOF\n" r ∧
      p.openAfter.heredocs = [] ∧
      (scan "echo $(( ((1)+2) )); cat <<EOF\nwarn x\nEOF\n").map Line.code =
        ["echo $(( ((1)+2) )); cat <<EOF".toList, "warn x".toList, "EOF".toList] := by
  let touching : Arithmetic := ⟨[], "echo $".toList, " (1+(2)) << 3 ".toList, [], ["warn x".toList]⟩
  let opening : Arithmetic := ⟨[], "echo $".toList, " ((1)+2) ".toList, "; cat <<EOF".toList,
    ["warn x".toList, "EOF".toList]⟩
  let r : Reader := ⟨[], [], "echo $".toList.reverse, "echo $".toList.reverse, .nothing⟩
  have htouching : touching.In "echo $(( (1+(2)) << 3 ))\nwarn x\n" r := by
    constructor
    case coding => exact ⟨rfl, rfl⟩
    all_goals decide +kernel
  have hopening : opening.In "echo $(( ((1)+2) )); cat <<EOF\nwarn x\nEOF\n" r := by
    constructor
    case coding => exact ⟨rfl, rfl⟩
    all_goals decide +kernel
  exact ⟨⟨touching, r, htouching, by decide +kernel, by decide +kernel⟩,
    ⟨opening, r, hopening, by decide +kernel, by decide +kernel⟩⟩

end ShellIndex.Source
