import ShellIndex.Definition.Extract
import ShellIndex.Proofs.Text.Characters
import ShellIndex.Proofs.Text.LastLine

set_option autoImplicit false

/-! # The rounds in which a line is read

What one round does to the progress made so far: the ways in which it can start, and the
equation by which it goes on behind a closed body. Outside of bodies no closing brace counts,
and blank lines change nothing. What is kept wherever a body is opened or closed is kept by a
whole run (`Invariant.readLines`).
-/

namespace ShellIndex.Definition

open Text Source

/-! ## Braces -/

namespace Braces

/-- Without an open body the whole text is read. -/
theorem scan_none (b : Braces) (afterDollar : Bool) (s : List Char) :
    (b.scan .none afterDollar s).2 = .none := by
  induction s generalizing b afterDollar with
  | nil => rfl
  | cons c s ih =>
      have hopen : b.closesBody .none c = false := by simp [closesBody]
      rw [scan, if_neg (by simp [hopen])]
      exact ih _ _

theorem step_of_ne {c : Char} (b : Braces) (afterDollar : Bool) (hopen : c ≠ '{')
    (hclose : c ≠ '}') : b.step afterDollar c = b := by
  unfold step
  split
  · exact absurd rfl hopen
  · exact absurd rfl hclose
  · rfl

/-- Text without braces changes nothing. -/
theorem scan_of_no_brace (b : Braces) (outer : Option Nat) (afterDollar : Bool) {s : List Char}
    (hopen : '{' ∉ s) (hclose : '}' ∉ s) : b.scan outer afterDollar s = (b, .none) := by
  induction s generalizing afterDollar with
  | nil => rfl
  | cons c s ih =>
      rw [List.mem_cons, not_or] at hopen hclose
      have hstays : b.closesBody outer c = false := by simp [closesBody, Ne.symm hclose.1]
      rw [scan, if_neg (by simp [hstays]), b.step_of_ne _ (Ne.symm hopen.1) (Ne.symm hclose.1)]
      exact ih _ hopen.2 hclose.2

end Braces

/-! ## Headers -/

namespace Header

/-- A character of a name is a letter or digit or one of few others. -/
theorem isNamePart_cases {P : Char → Prop} (halphanumeric : ∀ c, isAlphanumeric c = true → P c)
    (hmarks : ∀ c ∈ ['_', ':', '.', '@', '+', '-'], P c) {c : Char} (h : isNamePart c = true) :
    P c := by
  simp only [isNamePart, isNameStart, Bool.or_eq_true, beq_iff_eq] at h
  rcases h with (((((h | rfl) | rfl) | rfl) | rfl) | rfl) | rfl
  · exact halphanumeric c (isAlphanumeric_of_isAlphanum h)
  all_goals exact hmarks _ (by simp)

theorem isBlank_of_isNamePart {c : Char} (h : isNamePart c = true) : isBlank c = false :=
  isNamePart_cases (fun _ => isBlank_of_isAlphanumeric) (by simp; decide) h

/-- A header starts with a letter of a name. -/
theorem read?_eq_none {s : List Char} (h : ∀ c, (skipInline s).head? = some c →
    isNameStart c = false) : read? s = none := by
  have hkeyword : afterKeyword? (skipInline s) = none := by
    unfold afterKeyword?
    split
    · next hs =>
        have hf := h 'f' (by rw [hs]; rfl)
        exact absurd hf (by decide)
    · rfl
  have hname : readName? (skipInline s) = none := by
    cases hs : skipInline s with
    | nil => rfl
    | cons c rest =>
        rw [readName?, h c (by rw [hs]; rfl)]
        rfl
  simp [read?, readKeywordForm?, readParensForm?, hkeyword, hname]

/-- A blank text has no header. -/
theorem read?_of_allBlank {s : List Char} (h : allBlank s = true) : read? s = none := by
  refine read?_eq_none fun c hc => ?_
  have hmem : c ∈ s := (List.dropWhile_sublist _).mem (List.mem_of_head? hc)
  have hblank : isBlank c = true := List.all_eq_true.mp h c hmem
  refine Bool.eq_false_iff.mpr fun hname => ?_
  have hpart : isNamePart c = true := by simp [isNamePart, hname]
  rw [isBlank_of_isNamePart hpart] at hblank
  cases hblank

/-- A name that a header can define. -/
structure IsName (name : List Char) : Prop where
  ne_nil : name ≠ []
  plain : ∀ c ∈ name, isNamePart c = true

theorem isName_of_readName? {s name rest : List Char} (h : readName? s = some (name, rest)) :
    IsName name := by
  cases s with
  | nil => cases h
  | cons c s =>
      rw [readName?] at h
      split at h
      · next hstart =>
          obtain ⟨rfl, -⟩ := Prod.mk.inj (Option.some.inj h)
          refine ⟨List.cons_ne_nil _ _, List.forall_mem_cons.mpr ⟨?_, fun c hc => ?_⟩⟩
          · rw [isNamePart, hstart, Bool.true_or]
          · exact List.all_eq_true.mp List.all_takeWhile c hc
      · cases h

theorem name_ofNamed (named : List Char × List Char) : (ofNamed named).name = named.1 := by
  rw [ofNamed]
  split <;> rfl

/-- A header names what it defines. -/
theorem isName_of_read? {s : List Char} {header : Header} (h : read? s = some header) :
    IsName header.name := by
  simp only [read?, Option.map_eq_some_iff, Option.or_eq_some_iff] at h
  obtain ⟨named, hnamed, rfl⟩ := h
  rw [name_ofNamed]
  rcases hnamed with hkeyword | ⟨-, hparens⟩
  · unfold readKeywordForm? at hkeyword
    split at hkeyword
    · cases hkeyword
    · obtain ⟨read, hread, rfl⟩ := Option.map_eq_some_iff.mp hkeyword
      exact isName_of_readName? hread
  · unfold readParensForm? at hparens
    split at hparens
    · cases hparens
    · next hread =>
        obtain ⟨rest, -, rfl⟩ := Option.map_eq_some_iff.mp hparens
        exact isName_of_readName? hread

end Header

namespace Progress
variable (p : Progress)

/-! ## The start of a round -/

/-- The definition that is open. -/
def opening? (p : Progress) : Option Opening :=
  match p.phase with
  | .outside => none
  | .awaiting o => some o
  | .inside o _ => some o

/-- A round starts with the text as it is, or else with a header behind which the body is open or
awaited. -/
theorem enter_cases {p : Progress} {opening : List Char → Opening} {code : List Char}
    {entry : Entry} (h : p.enter opening code = .ok entry) :
    entry = .text p code ∨
      (p.phase = .outside ∧ ∃ name rest, Header.IsName name ∧
        entry = .text (p.openBody (opening name)) rest) ∨
      (p.phase = .outside ∧ ∃ name, Header.IsName name ∧
        entry = .lineEnd { p with phase := .awaiting (opening name) }) := by
  unfold enter at h
  split at h
  · next hphase =>
      split at h
      · exact Or.inl (Except.ok.inj h).symm
      · next header hheader =>
          have hname := Header.isName_of_read? hheader
          refine Or.inr ?_
          dsimp only at h
          split at h
          · exact Or.inl ⟨hphase, header.name, header.rest, hname, (Except.ok.inj h).symm⟩
          · split at h
            · exact Or.inr ⟨hphase, header.name, hname, (Except.ok.inj h).symm⟩
            · cases h
  · exact Or.inl (Except.ok.inj h).symm

/-! ## Going on behind a closed body -/

theorem readRounds_eq (file : String) (number : Nat) (opening : List Char → Opening)
    (code : List Char) : p.readRounds file number opening code =
      match p.enter opening code with
      | .error fault => .error fault
      | .ok (.lineEnd p) => .ok p
      | .ok (.text p rest) =>
          match p.braces.scan p.outer? false rest with
          | (braces, none) => .ok { p with braces }
          | (braces, some after) =>
              { p.closeBody file number with braces }.readRounds file number
                (Opening.bare number) (skipSeparators after) := by
  rw [readRounds]
  split <;> simp_all
  split <;> simp_all

/-- A round that ends no body reads the line to its end. -/
theorem readRounds_of_scan_none {p p' : Progress} {file : String} {number : Nat}
    {opening : List Char → Opening} {code rest : List Char} {braces : Braces}
    (hentry : p.enter opening code = .ok (.text p' rest))
    (hscan : p'.braces.scan p'.outer? false rest = (braces, none)) :
    p.readRounds file number opening code = .ok { p' with braces } := by
  rw [readRounds_eq, hentry]
  simp only [hscan]

/-- Behind the brace that ends a body the next round starts. -/
theorem readRounds_of_scan_some {p p' : Progress} {file : String} {number : Nat}
    {opening : List Char → Opening} {code rest after : List Char} {braces : Braces}
    (hentry : p.enter opening code = .ok (.text p' rest))
    (hscan : p'.braces.scan p'.outer? false rest = (braces, some after)) :
    p.readRounds file number opening code =
      { p'.closeBody file number with braces }.readRounds file number
        (Opening.bare number) (skipSeparators after) := by
  rw [readRounds_eq, hentry]
  simp only [hscan]

/-- A line without code changes nothing. -/
theorem readRounds_of_allBlank (file : String) (number : Nat) (opening : List Char → Opening)
    {code : List Char} (h : allBlank code = true) :
    p.readRounds file number opening code = .ok p := by
  have hentry : p.enter opening code = .ok (.text p code) := by
    unfold enter
    split
    · rw [Header.read?_of_allBlank h]
    · rfl
  have hnot : ∀ c, isBlank c = false → c ∉ code := by
    intro c hblank hc
    rw [List.all_eq_true.mp h c hc] at hblank
    cases hblank
  have hopen : '{' ∉ code := hnot '{' (by decide)
  have hclose : '}' ∉ code := hnot '}' (by decide)
  exact readRounds_of_scan_none hentry (p.braces.scan_of_no_brace p.outer? false hopen hclose)

/-- A blank line or a line with nothing but a comment changes nothing. -/
theorem readLine_of_allBlank (file : String) (before : List Line) {l : Line}
    (h : allBlank l.code = true) : p.readLine file before l = .ok p := by
  unfold readLine
  split
  · rw [trimStart_eq_nil_iff.mpr h]
  · exact p.readRounds_of_allBlank file _ _ h

/-! ## Line after line -/

/-- A line behind which nothing is open is read on its own. -/
theorem readLines_scan_cons {p p' : Progress} {file : String} {before : List Line} {number : Nat}
    {raw code : List Char} {comment : Option (List Char)}
    (hread : Open.nothing.read raw = ⟨code, comment, Open.nothing⟩)
    (hline : p.readLine file before ⟨number, raw, code, comment⟩ = .ok p')
    (raws : List (List Char)) :
    p.readLines file before (Open.nothing.scan number (raw :: raws)) =
      p'.readLines file (⟨number, raw, code, comment⟩ :: before)
        (Open.nothing.scan (number + 1) raws) := by
  rw [Open.scan]
  simp only [hread]
  rw [readLines, hline]

end Progress

/-- The definitions of a script are those found when all its lines have been read, behind which
nothing is open. -/
theorem exists_readLines_of_extract {file text : String} {found : List Definition}
    (h : extract file text = .ok found) :
    ∃ p : Progress, Progress.start.readLines file [] (scan text) = .ok p ∧ p.phase = .outside ∧
      found = p.found.reverse := by
  rw [extract, ofLines] at h
  split at h
  · cases h
  · next p hread =>
      refine ⟨p, hread, ?_⟩
      split at h
      · cases h
      · next hfinish =>
          obtain rfl := Except.ok.inj h
          unfold Progress.finish at hfinish
          split at hfinish
          · next hphase => exact ⟨hphase, (Except.ok.inj hfinish).symm⟩
          · cases hfinish
          · cases hfinish

/-! ## What every run preserves -/

/-- A property of the progress made that is kept where a body is opened or closed in a line from `n`
on. The run never does anything else. -/
structure Invariant (file : String) (n : Nat) (P : Progress → Prop) : Prop where
  openBody : ∀ (p : Progress) (o : Opening), p.phase = .outside ∨ p.phase = .awaiting o → P p →
    P (p.openBody o)
  await : ∀ (p : Progress) (o : Opening), p.phase = .outside → P p →
    P { p with phase := .awaiting o }
  with_braces : ∀ (p : Progress) (braces : Braces), P p → P { p with braces }
  closeBody : ∀ (p : Progress) (stop : Nat), n ≤ stop → P p → P (p.closeBody file stop)

namespace Invariant
variable {file : String} {n number : Nat} {P : Progress → Prop} {p p' : Progress}
variable {opening : List Char → Opening} {code rest : List Char} {before lines : List Line} {l : Line}

theorem enter_text (h : Invariant file n P) (hp : P p)
    (hentry : p.enter opening code = .ok (.text p' rest)) : P p' := by
  rcases Progress.enter_cases hentry with heq | ⟨hphase, name, rest, -, heq⟩ | ⟨-, name, -, heq⟩
  · obtain ⟨rfl, -⟩ := Entry.text.inj heq
    exact hp
  · obtain ⟨rfl, -⟩ := Entry.text.inj heq
    exact h.openBody p (opening name) (Or.inl hphase) hp
  · cases heq

theorem enter_lineEnd (h : Invariant file n P) (hp : P p)
    (hentry : p.enter opening code = .ok (.lineEnd p')) : P p' := by
  rcases Progress.enter_cases hentry with heq | ⟨-, name, rest, -, heq⟩ | ⟨hphase, name, -, heq⟩
  · cases heq
  · cases heq
  · obtain rfl := Entry.lineEnd.inj heq
    exact h.await p (opening name) hphase hp

theorem readRounds (h : Invariant file n P) (hn : n ≤ number) (hp : P p)
    (hread : p.readRounds file number opening code = .ok p') : P p' := by
  fun_induction Progress.readRounds p file number opening code with
  | case1 p opening code fault hentry => cases hread
  | case2 p opening code q hentry =>
      obtain rfl := Except.ok.inj hread
      exact h.enter_lineEnd hp hentry
  | case3 p opening code q rest hentry braces hscan =>
      obtain rfl := Except.ok.inj hread
      exact h.with_braces q braces (h.enter_text hp hentry)
  | case4 p opening code q rest hentry braces after hscan ih =>
      have hclosed := h.closeBody q number hn (h.enter_text hp hentry)
      exact ih (h.with_braces _ braces hclosed) hread

theorem readLine (h : Invariant file n P) (hn : n ≤ l.number) (hp : P p)
    (hread : p.readLine file before l = .ok p') : P p' := by
  unfold Progress.readLine at hread
  split at hread
  · next o hphase =>
      split at hread
      · obtain rfl := Except.ok.inj hread
        exact hp
      · split at hread
        · exact h.readRounds hn (h.openBody p o (Or.inr hphase) hp) hread
        · cases hread
  · exact h.readRounds hn hp hread

/-- **What opening and closing bodies preserves, the whole run preserves.** -/
theorem readLines (h : Invariant file n P) (hn : ∀ l ∈ lines, n ≤ l.number) (hp : P p)
    (hread : p.readLines file before lines = .ok p') : P p' := by
  induction lines generalizing p before with
  | nil =>
      obtain rfl := Except.ok.inj hread
      exact hp
  | cons l lines ih =>
      rw [Progress.readLines] at hread
      split at hread
      · cases hread
      · next q hq =>
          have hl := h.readLine (hn l List.mem_cons_self) hp hq
          exact ih (fun l' hl' => hn l' (List.mem_cons_of_mem l hl')) hl hread

end Invariant

end ShellIndex.Definition
