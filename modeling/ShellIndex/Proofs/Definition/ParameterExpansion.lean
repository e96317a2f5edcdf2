import ShellIndex.Proofs.Definition.Expansions
import ShellIndex.Proofs.Source.Insertion

set_option autoImplicit false

/-! # Parameter expansions as they are written

An expansion `${…}` names a parameter and may go on with an operator and a word: plain characters,
braces in pairs, and expansions again (`Word`). It is read as it stands in code
(`Expansion.readsAsWritten`).

Inside an expansion the count of braces passes over an opening brace, but not over the closing one that
goes with it. So an expansion without braces of its own leaves all counts as they were
(`Expansion.scan_plain`), and any other one closes the body in which it stands on its own
(`Expansion.closes`).
-/

namespace ShellIndex.Definition

open Text Source

/-! ## Expansions -/

/-- A character that may stand for itself in the word of an expansion. -/
def isWordChar (c : Char) : Bool := isInert c && c != '$' && c != '{' && c != '}' && c != '\n'

/-- A character of a parameter or of an operator. -/
def isHeadChar (c : Char) : Bool := c.isAlphanum || "_@*#?-!:=+%/^,~.[]".toList.contains c

/-- A parameter with the operator that follows it, if there is one. -/
structure ExpansionHead where
  text : List Char
  ne_nil : text ≠ []
  plain : text.all isHeadChar = true

/-- The word of an expansion. -/
inductive Word where
  | nil
  | char (c : Char) (hc : isWordChar c = true) (more : Word)
  /-- Braces around a word. -/
  | group (inner more : Word)
  /-- An expansion with a word of its own. -/
  | expansion (head : ExpansionHead) (inner more : Word)

namespace Word

def text : Word → List Char
  | nil => []
  | char c _ more => c :: more.text
  | group inner more => '{' :: (inner.text ++ '}' :: more.text)
  | expansion head inner more => '$' :: '{' :: (head.text ++ (inner.text ++ '}' :: more.text))

/-- Whether no brace stands in a word but those of expansions. -/
def isPlain : Word → Bool
  | nil => true
  | char _ _ more => more.isPlain
  | group _ _ => false
  | expansion _ inner more => inner.isPlain && more.isPlain

end Word

structure Expansion where
  head : ExpansionHead
  word : Word

namespace Expansion

def text (x : Expansion) : List Char := '$' :: '{' :: (x.head.text ++ (x.word.text ++ ['}']))

/-- Whether no brace stands in an expansion but those of expansions. -/
def isPlain (x : Expansion) : Bool := x.word.isPlain

end Expansion

/-! ## Reading expansions -/

/-- A text that in code is shown as it is written. -/
def ReadsAsWritten (s : List Char) : Prop :=
  ∀ (r : Reader) (rest : List Char), r.Coding → r.readTo rest s = some (r.showing s)

section
variable {s t : List Char} {c : Char} {r : Reader}

theorem showing_cons (hr : r.Coding) (c : Char) (s : List Char) :
    (r.keep c).showing s = r.showing (c :: s) := by
  have howed := hr.owed_eq
  simp [Reader.showing, Reader.keep, howed]

theorem showing_coding (hr : r.Coding) (s : List Char) : (r.showing s).Coding :=
  ⟨hr.reads_code, hr.owed_eq⟩

theorem ReadsAsWritten.append (hs : ReadsAsWritten s) (ht : ReadsAsWritten t) :
    ReadsAsWritten (s ++ t) := by
  intro r rest hr
  have happend : (r.showing s).showing t = r.showing (s ++ t) := by simp [Reader.showing]
  rw [Reader.readTo_append, hs r _ hr, Option.bind_some, ht _ rest (showing_coding hr s), happend]

theorem ReadsAsWritten.inert (hs : s.all isInert = true) : ReadsAsWritten s := by
  intro r rest hr
  induction s generalizing r with
  | nil => rfl
  | cons c s ih =>
      rw [List.all_cons, Bool.and_eq_true] at hs
      obtain ⟨hc, hs⟩ := hs
      have hopens : r.opensComment c = false := by
        rw [Bool.eq_false_iff, ne_eq, Reader.opensComment_iff]
        rintro ⟨rfl, -⟩
        exact absurd hc (by decide)
      rw [Reader.readTo, if_neg (by simp [hopens]), hr.step_inert hc, ← showing_cons hr]
      exact ih hs _ (hr.keep c)

/-- A character of a head is inert or the sign of a length, and it separates no words. -/
theorem isHeadChar_cases (hc : isHeadChar c = true) :
    (isInert c = true ∨ c = '#') ∧ separatesWords c = false := by
  simp only [isHeadChar, Bool.or_eq_true] at hc
  rcases hc with hc | hc
  · have hletter := isAlphanumeric_of_isAlphanum hc
    have hne := fun d => ne_of_isAlphanumeric hletter (d := d)
    simp only [cutMarks, List.mem_cons, List.not_mem_nil, or_false, forall_eq_or_imp,
      forall_eq] at hne
    refine ⟨Or.inl (isInert_of_isAlphanumeric hletter), ?_⟩
    simp [separatesWords, isOperator, isBlank_of_isAlphanumeric hletter, hne]
  · have hall : "_@*#?-!:=+%/^,~.[]".toList.all
        (fun d => (isInert d || d == '#') && !separatesWords d) = true := by decide
    simpa using List.all_eq_true.mp hall c (by simpa using hc)

/-- Behind a character that separates no words a head is shown as it is written. -/
theorem readTo_head (hs : s.all isHeadChar = true) (hr : r.Coding) {b : Char}
    (hb : r.before.head? = some b) (hbreak : separatesWords b = false) (rest : List Char) :
    r.readTo rest s = some (r.showing s) := by
  induction s generalizing r b with
  | nil => rfl
  | cons c s ih =>
      rw [List.all_cons, Bool.and_eq_true] at hs
      obtain ⟨hc, hcbreak⟩ := isHeadChar_cases hs.1
      have hopens : r.opensComment c = false := by
        rw [Bool.eq_false_iff, ne_eq, Reader.opensComment_iff]
        rintro ⟨-, -, -, hstarts⟩
        rw [hstarts b hb] at hbreak
        cases hbreak
      have hstep : r.step c (s ++ rest) = r.keep c := by
        rcases hc with hc | rfl
        · exact hr.step_inert hc _
        · rw [hr.step_eq]
          rfl
      rw [Reader.readTo, if_neg (by simp [hopens]), hstep, ← showing_cons hr]
      exact ih hs.2 (hr.keep c) rfl hcbreak

theorem ReadsAsWritten.head (head : ExpansionHead) :
    ReadsAsWritten ('$' :: '{' :: head.text) := by
  intro r rest hr
  have hmarks : ReadsAsWritten ['$', '{'] := .inert (by decide)
  have happend : (r.showing ['$', '{']).showing head.text = r.showing ('$' :: '{' :: head.text) := by
    simp [Reader.showing]
  show r.readTo rest (['$', '{'] ++ head.text) = _
  rw [Reader.readTo_append, hmarks r _ hr, Option.bind_some,
    readTo_head head.plain (showing_coding hr _) rfl (by decide), happend]

theorem isInert_of_isWordChar (hc : isWordChar c = true) : isInert c = true := by
  simp only [isWordChar, Bool.and_eq_true] at hc
  exact hc.1.1.1.1

theorem ReadsAsWritten.close : ReadsAsWritten ['}'] := .inert (by decide)

theorem Word.readsAsWritten (w : Word) : ReadsAsWritten w.text := by
  induction w with
  | nil => exact .inert rfl
  | char c hc more ih =>
      have hinert := isInert_of_isWordChar hc
      exact .append (s := [c]) (.inert (by simpa using hinert)) ih
  | group inner more ihinner ihmore =>
      exact .append (s := ['{']) (.inert (by decide)) (ihinner.append (.append .close ihmore))
  | expansion head inner more ihinner ihmore =>
      exact .append (s := '$' :: '{' :: head.text) (.head head) (ihinner.append (.append .close ihmore))

/-- **An expansion is shown as it is written.** -/
theorem Expansion.readsAsWritten (x : Expansion) : ReadsAsWritten x.text :=
  .append (s := '$' :: '{' :: x.head.text) (.head x.head) (x.word.readsAsWritten.append .close)

/-! ## Counting braces of expansions -/

namespace Braces
variable {b b' : Braces} {outer : Option Nat}

/-- Text without braces and dollar signs is passed over. -/
theorem scan_skip (hs : ∀ c ∈ s, c ≠ '{' ∧ c ≠ '}' ∧ c ≠ '$') (b : Braces) (outer : Option Nat)
    (t : List Char) : b.scan outer false (s ++ t) = b.scan outer false t := by
  induction s with
  | nil => rfl
  | cons c s ih =>
      obtain ⟨hopen, hclose, hdollar⟩ := hs c List.mem_cons_self
      have hstays : b.closesBody outer c = false := by simp [closesBody, hclose]
      have hflag : (c == '$') = false := by simpa using hdollar
      rw [List.cons_append, scan, if_neg (by simp [hstays]), b.step_of_ne _ hopen hclose, hflag]
      exact ih fun d hd => hs d (List.mem_cons_of_mem c hd)

/-- The marks of an expansion are counted as one that is open. -/
theorem scan_dollar (b : Braces) (outer : Option Nat) (dollar : Bool) (t : List Char) :
    b.scan outer dollar ('$' :: '{' :: t) =
      (⟨b.depth, b.expansions + 1⟩ : Braces).scan outer false t := by
  have hstays : ∀ b : Braces, b.closesBody outer '$' = false ∧ b.closesBody outer '{' = false :=
    fun b => ⟨by simp [closesBody], by simp [closesBody]⟩
  rw [scan, if_neg (by simp [(hstays b).1]), b.step_of_ne _ (by decide) (by decide), scan,
    if_neg (by simp [(hstays b).2])]
  rfl

/-- A closing brace ends an expansion, if one is open. -/
theorem scan_close (hb : b.expansions ≠ 0) (outer : Option Nat) (t : List Char) :
    b.scan outer false ('}' :: t) = (⟨b.depth, b.expansions - 1⟩ : Braces).scan outer false t := by
  have hstays : b.closesBody outer '}' = false := by simp [closesBody, hb]
  rw [scan, if_neg (by simp [hstays])]
  simp [step, hb]

/-- All braces that are open. -/
def total (b : Braces) : Nat := b.depth + b.expansions

/-- An opening brace is text in an expansion, and opens a block elsewhere. -/
theorem exists_scan_open {outer : Nat} (hlt : outer < b.depth) (t : List Char) :
    ∃ c : Braces, b.scan (some outer) false ('{' :: t) = c.scan (some outer) false t ∧
      outer < c.depth ∧ c.total ≤ b.total + 1 ∧ (b.expansions ≠ 0 → c = b) := by
  have hstays : b.closesBody (some outer) '{' = false := by simp [closesBody]
  refine ⟨b.step false '{', by rw [scan, if_neg (by simp [hstays])]; rfl, ?_⟩
  by_cases hb : b.expansions = 0
  · have hstep : b.step false '{' = ⟨b.depth + 1, b.expansions⟩ := by simp [step, hb]
    rw [hstep, total, total]
    dsimp only
    exact ⟨by omega, by omega, fun hne => absurd hb hne⟩
  · have hstep : b.step false '{' = b := by simp [step, hb]
    rw [hstep]
    exact ⟨hlt, Nat.le_succ _, fun _ => rfl⟩

/-- A closing brace that does not close the body closes one of the others that are open. -/
theorem exists_scan_close {outer : Nat} (hlt : outer < b.depth)
    (h : b.scan (some outer) false ('}' :: t) = (b', .none)) :
    ∃ c : Braces, c.scan (some outer) false t = (b', .none) ∧ outer < c.depth ∧
      c.total + 1 = b.total := by
  rw [scan] at h
  split at h
  · cases h
  · next hstays =>
      refine ⟨_, h, ?_⟩
      by_cases hb : b.expansions = 0
      · have hne : b.depth ≠ outer + 1 := by simpa [closesBody, hb] using hstays
        have hstep : b.step false '}' = ⟨b.depth - 1, b.expansions⟩ := by simp [step, hb]
        rw [hstep, total, total]
        dsimp only
        omega
      · have hstep : b.step false '}' = ⟨b.depth, b.expansions - 1⟩ := by simp [step, hb]
        rw [hstep, total, total]
        dsimp only
        omega

end Braces

theorem ExpansionHead.ne_brace (head : ExpansionHead) :
    ∀ c ∈ head.text, c ≠ '{' ∧ c ≠ '}' ∧ c ≠ '$' := fun c hc =>
  ne_brace_of_pred (by decide) (List.all_eq_true.mp head.plain c hc)

namespace Word
variable {b b' : Braces}

theorem mem_text (w : Word) : ∀ c ∈ w.text, isInert c = true ∨ isHeadChar c = true := by
  induction w with
  | nil => exact nofun
  | char d hd more ih =>
      exact List.forall_mem_cons.mpr ⟨Or.inl (isInert_of_isWordChar hd), ih⟩
  | group inner more ihinner ihmore =>
      refine List.forall_mem_cons.mpr ⟨Or.inl (by decide), List.forall_mem_append.mpr ⟨ihinner, ?_⟩⟩
      exact List.forall_mem_cons.mpr ⟨Or.inl (by decide), ihmore⟩
  | expansion head inner more ihinner ihmore =>
      refine List.forall_mem_cons.mpr ⟨Or.inl (by decide), ?_⟩
      refine List.forall_mem_cons.mpr ⟨Or.inl (by decide), List.forall_mem_append.mpr ⟨?_, ?_⟩⟩
      · exact fun c hc => Or.inr (List.all_eq_true.mp head.plain c hc)
      · refine List.forall_mem_append.mpr ⟨ihinner, ?_⟩
        exact List.forall_mem_cons.mpr ⟨Or.inl (by decide), ihmore⟩

theorem scan_char (hc : isWordChar c = true) (b : Braces) (outer : Option Nat) (t : List Char) :
    b.scan outer false (c :: t) = b.scan outer false t :=
  Braces.scan_skip (s := [c]) (by simpa using ne_brace_of_pred (by decide) hc) b outer t

/-- In an expansion a word without braces of its own leaves the braces as they were. -/
theorem scan_plain (w : Word) (hw : w.isPlain = true) (hb : b.expansions ≠ 0) (outer : Option Nat)
    (t : List Char) : b.scan outer false (w.text ++ t) = b.scan outer false t := by
  induction w generalizing b t with
  | nil => rfl
  | char c hc more ih =>
      show b.scan outer false (c :: (more.text ++ t)) = _
      rw [scan_char hc, ih hw hb]
  | group => cases hw
  | expansion head inner more ihinner ihmore =>
      rw [isPlain, Bool.and_eq_true] at hw
      have htext : (expansion head inner more).text ++ t =
          '$' :: '{' :: (head.text ++ (inner.text ++ '}' :: (more.text ++ t))) := by simp [text]
      rw [htext, Braces.scan_dollar, Braces.scan_skip head.ne_brace,
        ihinner hw.1 (Nat.succ_ne_zero _), Braces.scan_close (Nat.succ_ne_zero _)]
      exact ihmore hw.2 hb t

/-- **A word closes at least as many braces as it opens**, and in an expansion one more if it has
braces of its own. -/
theorem exists_scan {outer : Nat} (w : Word) (hlt : outer < b.depth)
    (h : b.scan (some outer) false (w.text ++ t) = (b', none)) :
    ∃ d : Braces, d.scan (some outer) false t = (b', none) ∧ outer < d.depth ∧
      d.total ≤ b.total ∧ (b.expansions ≠ 0 → w.isPlain = false → d.total < b.total) := by
  induction w generalizing b t with
  | nil => exact ⟨b, h, hlt, Nat.le_refl _, fun _ hplain => by cases hplain⟩
  | char c hc more ih =>
      have h : b.scan (some outer) false (c :: (more.text ++ t)) = (b', none) := h
      rw [scan_char hc] at h
      exact ih hlt h
  | group inner more ihinner ihmore =>
      have htext : (group inner more).text ++ t =
          '{' :: (inner.text ++ '}' :: (more.text ++ t)) := by simp [text]
      obtain ⟨c, hscan, hopened, htotal, hexpansions⟩ :=
        Braces.exists_scan_open hlt (inner.text ++ '}' :: (more.text ++ t))
      rw [htext, hscan] at h
      obtain ⟨d, hd, hlt, hle, -⟩ := ihinner hopened h
      obtain ⟨d', hd', hlt, hclose⟩ := Braces.exists_scan_close hlt hd
      obtain ⟨e, he, hlt, hmore, -⟩ := ihmore hlt hd'
      refine ⟨e, he, hlt, by omega, fun hne _ => ?_⟩
      obtain rfl := hexpansions hne
      omega
  | expansion head inner more ihinner ihmore =>
      have htext : (expansion head inner more).text ++ t =
          '$' :: '{' :: (head.text ++ (inner.text ++ '}' :: (more.text ++ t))) := by simp [text]
      rw [htext, Braces.scan_dollar, Braces.scan_skip head.ne_brace] at h
      by_cases hinner : inner.isPlain = true
      · -- The expansion is closed by its own brace.
        rw [scan_plain inner hinner (Nat.succ_ne_zero _), Braces.scan_close (Nat.succ_ne_zero _)] at h
        obtain ⟨e, he, hlt, hle, hstrict⟩ := ihmore (b := b) hlt h
        refine ⟨e, he, hlt, hle, fun hne hplain => hstrict hne ?_⟩
        simpa [isPlain, hinner] using hplain
      · -- The expansion has been closed before its own brace.
        obtain ⟨d, hd, hlt, -, hstrict⟩ := ihinner (b := ⟨b.depth, b.expansions + 1⟩) hlt h
        have hless := hstrict (Nat.succ_ne_zero _) (Bool.eq_false_iff.mpr hinner)
        have htotal : (⟨b.depth, b.expansions + 1⟩ : Braces).total = b.total + 1 := rfl
        obtain ⟨d', hd', hlt, hclose⟩ := Braces.exists_scan_close hlt hd
        obtain ⟨e, he, hlt, hmore, -⟩ := ihmore hlt hd'
        exact ⟨e, he, hlt, by omega, fun _ _ => by omega⟩

end Word

namespace Expansion
variable {b : Braces}

theorem text_append (x : Expansion) (t : List Char) :
    x.text ++ t = '$' :: '{' :: (x.head.text ++ (x.word.text ++ '}' :: t)) := by
  simp [text]

/-- **An expansion without braces of its own leaves the braces as they were.** -/
theorem scan_plain (x : Expansion) (hx : x.isPlain = true) (b : Braces) (outer : Option Nat)
    (dollar : Bool) (t : List Char) :
    b.scan outer dollar (x.text ++ t) = b.scan outer false t := by
  rw [text_append, Braces.scan_dollar, Braces.scan_skip x.head.ne_brace,
    x.word.scan_plain hx (Nat.succ_ne_zero _), Braces.scan_close (Nat.succ_ne_zero _)]
  rfl

/-- **An expansion with braces of its own closes the body in which it stands**, unless a block or
another expansion is open there. -/
theorem closes (x : Expansion) (hx : x.isPlain = false) (outer : Nat) (dollar : Bool)
    (t : List Char) :
    ∃ b rest, (⟨outer + 1, 0⟩ : Braces).scan (some outer) dollar (x.text ++ t) = (b, some rest) := by
  rw [text_append, Braces.scan_dollar, Braces.scan_skip x.head.ne_brace]
  cases hscan : (⟨outer + 1, 0 + 1⟩ : Braces).scan (some outer) false (x.word.text ++ '}' :: t) with
  | mk b after =>
      cases after with
      | some rest => exact ⟨b, rest, rfl⟩
      | none =>
          -- The word would leave the body open with nothing else, and then the brace closes it.
          obtain ⟨d, hd, hlt, -, hstrict⟩ := x.word.exists_scan (Nat.lt_succ_self outer) hscan
          have hless : d.total < outer + 1 + 1 := hstrict (Nat.succ_ne_zero _) hx
          obtain ⟨c, -, hopen, hclose⟩ := Braces.exists_scan_close hlt hd
          have hle : c.depth ≤ c.total := Nat.le_add_right _ _
          omega

theorem insertable (x : Expansion) : Reader.Insertable x.text := by
  refine ⟨by simp [text, List.getLast?_cons], fun c hc hmem => ?_⟩
  have hparen : isInert c = false ∧ isHeadChar c = false := by
    rcases List.mem_pair.mp hc with rfl | rfl <;> decide
  rcases (Word.expansion x.head x.word .nil).mem_text c hmem with hinert | hhead
  · rw [hparen.1] at hinert
    cases hinert
  · rw [hparen.2] at hhead
    cases hhead

end Expansion

end

end ShellIndex.Definition
