import ShellIndex.Proofs.Source.Comments
import ShellIndex.Proofs.Source.Pairs
import ShellIndex.Proofs.Source.Places

set_option autoImplicit false

/-! # Text inserted into a line

A reader in code may come upon more text, which stays visible and leaves the contexts as they are. The
rest of the line is then read as without it, unless the text has been put into the middle of a mark
(`Place.Seam`): a step looks back at the character before, at a run of backslashes and at the
parentheses of the line, and at nothing else (`Beside`).
-/

namespace ShellIndex.Source

open Text

/-! ## Pairs on both sides of a seam -/

section
variable {c : Char} {s t x : List Char}

/-- No pair stands across the seam of two texts, if one of them does not have the character there. -/
theorem countPairs_append (h : s.getLast? ≠ some c ∨ t.head? ≠ some c) :
    countPairs c (s ++ t) = countPairs c s + countPairs c t := by
  rcases h with h | h
  · rcases List.eq_nil_or_concat s with rfl | ⟨s, d, rfl⟩
    · rw [List.nil_append]
      exact (Nat.zero_add _).symm
    · rw [List.concat_eq_append] at h ⊢
      have hd : d ≠ c := by simpa using h
      rw [List.append_assoc, List.singleton_append, countPairs_append_cons hd,
        countPairs_append_cons hd]
      rfl
  · cases t with
    | nil =>
        rw [List.append_nil]
        rfl
    | cons d t =>
        have hd : d ≠ c := by simpa using h
        rw [countPairs_append_cons hd, countPairs_cons_of_ne hd]

theorem countPairs_of_not_mem (h : c ∉ s) : countPairs c s = 0 := by
  induction s with
  | nil => rfl
  | cons d s ih =>
      rw [List.mem_cons, not_or] at h
      rw [countPairs_cons_of_ne (Ne.symm h.1), ih h.2]

/-- Text without the character changes no count, unless it is put into a pair. -/
theorem countPairs_insert (hne : x ≠ []) (hx : c ∉ x)
    (h : s.getLast? ≠ some c ∨ t.head? ≠ some c) :
    countPairs c (s ++ (x ++ t)) = countPairs c (s ++ t) := by
  have hhead : (x ++ t).head? ≠ some c := by
    obtain ⟨d, x, rfl⟩ := List.exists_cons_of_ne_nil hne
    rintro hd
    obtain rfl : d = c := Option.some.inj hd
    exact hx List.mem_cons_self
  have hlast : x.getLast? ≠ some c := fun hd => hx (List.mem_of_getLast? hd)
  rw [countPairs_append (Or.inr hhead), countPairs_append (Or.inl hlast), countPairs_of_not_mem hx,
    countPairs_append h, Nat.zero_add]

end

/-! ## Readers that decide alike -/

namespace Reader
variable {r r' : Reader} {c : Char} {s x rest : List Char}

/-- The reader behind a text that stays visible. -/
def showing (r : Reader) (s : List Char) : Reader :=
  { r with before := s.reverse ++ r.before, code := s.reverse ++ r.code }

/-- Two readers in the same state, whose lines so far do not differ in what a step looks at when
`rest` is read: at the parentheses it looks back from the signs of a here-document only. -/
structure Beside (r r' : Reader) (rest : List Char) : Prop where
  contexts_eq : r'.contexts = r.contexts
  heredocs_eq : r'.heredocs = r.heredocs
  owed_eq : r'.owed = r.owed
  head_eq : r'.before.head? = r.before.head?
  dollar_eq : endsInDollar r'.before = endsInDollar r.before
  backslashes_eq : backslashes r'.before % 2 = backslashes r.before % 2
  pairs_eq : ['<', '<'] <:+: rest →
    ∀ p ∈ ['(', ')'], ∀ u, countPairs p (u ++ r'.code) = countPairs p (u ++ r.code)

/-- What a step decides, and what it shows, is told by the state and by what it looks back at. -/
theorem exists_shown_step (hcontexts : r'.contexts = r.contexts) (hheredocs : r'.heredocs = r.heredocs)
    (howed : r'.owed = r.owed) (hdollar : endsInDollar r'.before = endsInDollar r.before)
    {c : Char} (hopens : c = '<' → r'.opensHeredoc rest = r.opensHeredoc rest) :
    ∃ shown, (r.step c rest).code = shown ++ r.code ∧
      r'.step c rest =
        { r.step c rest with before := c :: r'.before, code := shown ++ r'.code } := by
  obtain ⟨contexts, heredocs, before, code, owed⟩ := r
  obtain ⟨contexts', heredocs', before', code', owed'⟩ := r'
  obtain rfl : contexts' = contexts := hcontexts
  obtain rfl : heredocs' = heredocs := hheredocs
  obtain rfl : owed' = owed := howed
  unfold step stepFree stepCode stepDouble stepSingle stepAnsi stepEscaped announce
  by_cases hc : c = '<'
  · simp only [hdollar, hopens hc]
    repeat' split
    all_goals first | exact ⟨[_], rfl, rfl⟩ | exact ⟨_, rfl, rfl⟩
  · simp only [hdollar]
    repeat' split
    all_goals first | contradiction | exact ⟨[_], rfl, rfl⟩ | exact ⟨_, rfl, rfl⟩

/-- Whether a quote behind a character starts `$'…'` is told by the character and by the backslashes
before it. -/
theorem endsInDollar_cons (c : Char) (before : List Char) :
    endsInDollar (c :: before) = (c == '$' && backslashes before % 2 == 0) := by
  by_cases hc : c = '$'
  · subst hc
    rfl
  · rw [endsInDollar]
    · simp [hc]
    · exact fun _ e => hc (List.cons.inj e).1

theorem backslashes_cons_mod (h : backslashes r'.before % 2 = backslashes r.before % 2) (c : Char) :
    backslashes (c :: r'.before) % 2 = backslashes (c :: r.before) % 2 := by
  by_cases hc : c = '\\'
  · subst hc
    rw [backslashes_cons_self, backslashes_cons_self]
    omega
  · rw [backslashes_cons_of_ne hc, backslashes_cons_of_ne hc]

/-- Behind a step that is taken alike the readers stand beside each other. -/
theorem beside_of_step {shown : List Char}
    (hcode : (r.step c rest).code = shown ++ r.code)
    (hstep : r'.step c rest =
      { r.step c rest with before := c :: r'.before, code := shown ++ r'.code })
    (hbackslashes : backslashes r'.before % 2 = backslashes r.before % 2)
    (hpairs : ['<', '<'] <:+: rest → ∀ p ∈ ['(', ')'], ∀ u,
      countPairs p (u ++ (shown ++ r'.code)) = countPairs p (u ++ (shown ++ r.code))) :
    Beside (r.step c rest) (r'.step c rest) rest := by
  rw [hstep]
  refine ⟨rfl, rfl, rfl, ?_, ?_, ?_, fun hsigns p hp u => ?_⟩
  · rw [before_step]
    rfl
  · rw [before_step]
    dsimp only
    rw [endsInDollar_cons, endsInDollar_cons, hbackslashes]
  · rw [before_step]
    exact backslashes_cons_mod hbackslashes c
  · rw [hcode]
    exact hpairs hsigns p hp u

theorem insideArithmetic_of_pairs (h : ∀ p ∈ ['(', ')'], countPairs p r'.code = countPairs p r.code) :
    insideArithmetic r'.code = insideArithmetic r.code := by
  rw [insideArithmetic, insideArithmetic, h '(' (by simp), h ')' (by simp)]

theorem Beside.opensComment_eq (h : Beside r r' rest) (c : Char) :
    r'.opensComment c = r.opensComment c := by
  have hhead := h.head_eq
  rw [opensComment, opensComment, h.contexts_eq, h.owed_eq]
  cases hb' : r'.before <;> cases hb : r.before <;> simp_all

theorem Beside.opensHeredoc_eq (h : Beside r r' ('<' :: rest)) :
    r'.opensHeredoc rest = r.opensHeredoc rest := by
  unfold opensHeredoc
  split
  · next after =>
      have hpairs := h.pairs_eq ⟨[], after, rfl⟩
      rw [h.head_eq, insideArithmetic_of_pairs fun p hp => hpairs p hp []]
  · rfl

/-- **Readers beside each other read a line alike.** -/
theorem Beside.run {s : List Char} (h : Beside r r' s) :
    ∃ shown, (r.run s).1.code = shown ++ r.code ∧ (r'.run s).1.code = shown ++ r'.code ∧
      (r'.run s).1.contexts = (r.run s).1.contexts ∧
      (r'.run s).1.heredocs = (r.run s).1.heredocs ∧ (r'.run s).2 = (r.run s).2 := by
  induction s generalizing r r' with
  | nil => exact ⟨[], rfl, rfl, h.contexts_eq, h.heredocs_eq, rfl⟩
  | cons c s ih =>
      rw [Reader.run, Reader.run, h.opensComment_eq]
      split
      · exact ⟨mask (c :: s), rfl, rfl, h.contexts_eq, h.heredocs_eq, rfl⟩
      · obtain ⟨shown, hcode, hstep⟩ := exists_shown_step h.contexts_eq h.heredocs_eq h.owed_eq
          h.dollar_eq (c := c) (by rintro rfl; exact h.opensHeredoc_eq)
        have hpairs : ['<', '<'] <:+: s → ∀ p ∈ ['(', ')'], ∀ u,
            countPairs p (u ++ (shown ++ r'.code)) = countPairs p (u ++ (shown ++ r.code)) := by
          intro hsigns p hp u
          rw [← List.append_assoc, ← List.append_assoc]
          exact h.pairs_eq (List.infix_cons hsigns) p hp (u ++ shown)
        obtain ⟨more, hrun, hrun', hrest⟩ :=
          ih (beside_of_step hcode hstep h.backslashes_eq hpairs)
        refine ⟨more ++ shown, ?_, ?_, hrest⟩
        · rw [hrun, hcode, List.append_assoc]
        · rw [hrun', hstep, List.append_assoc]

/-! ## Behind inserted text -/

/-- Text may be inserted before `onward`: the reader stands in code, and neither a mark nor a comment
starts with what stands on both sides. Two parentheses are a mark where the sign of a here-document
follows. -/
structure Seam (r : Reader) (onward : List Char) : Prop extends r.Coding where
  no_comment : ∀ c, onward.head? = some c → r.opensComment c = false
  no_dollar : endsInDollar r.before = false
  backslashes_even : backslashes r.before % 2 = 0
  apart : ['<', '<'] <:+: onward → ∀ c ∈ ['(', ')'], r.code.head? = some c → onward.head? ≠ some c
  no_sign : r.before.head? = some '<' → onward.head? ≠ some '<'

/-- Text that can be inserted: it has no parentheses and ends with a closing brace. -/
structure Insertable (x : List Char) : Prop where
  ends : x.getLast? = some '}'
  no_paren : ∀ c ∈ ['(', ')'], c ∉ x

theorem Insertable.head?_showing (hx : Insertable x) (r : Reader) :
    (r.showing x).before.head? = some '}' := by
  show (x.reverse ++ r.before).head? = some '}'
  rw [List.head?_append, List.head?_reverse, hx.ends]
  rfl

/-- Behind inserted text no comment starts. -/
theorem Insertable.opensComment_showing (hx : Insertable x) (r : Reader) (c : Char) :
    (r.showing x).opensComment c = false := by
  rw [Bool.eq_false_iff, ne_eq, opensComment_iff]
  rintro ⟨-, -, -, hbreak⟩
  exact absurd (hbreak '}' (hx.head?_showing r)) (by decide)

/-- Inserted text ends in no dollar sign and in no backslash, and so did what stands before it. -/
theorem Seam.marks_showing (h : r.Seam rest) (hx : Insertable x) :
    endsInDollar (r.showing x).before = endsInDollar r.before ∧
      backslashes (r.showing x).before % 2 = backslashes r.before % 2 := by
  obtain ⟨before, hbefore⟩ := List.head?_eq_some_iff.mp (hx.head?_showing r)
  rw [hbefore, h.no_dollar, h.backslashes_even, backslashes_cons_of_ne (by decide)]
  exact ⟨rfl, rfl⟩

/-- No pair of parentheses is lost, unless the text is inserted into it. -/
theorem Insertable.countPairs_showing (hx : Insertable x) {p : Char} (hp : p ∈ ['(', ')'])
    {u : List Char} (hu : u.getLast? ≠ some p ∨ r.code.head? ≠ some p) :
    countPairs p (u ++ (r.showing x).code) = countPairs p (u ++ r.code) := by
  refine countPairs_insert (fun hnil => ?_) (fun hmem => ?_) hu
  · have hends := hx.ends
    rw [List.reverse_eq_nil_iff.mp hnil] at hends
    cases hends
  · exact hx.no_paren p hp (List.mem_reverse.mp hmem)

theorem Seam.opensHeredoc_showing (h : r.Seam ('<' :: rest)) (hx : Insertable x) :
    (r.showing x).opensHeredoc rest = r.opensHeredoc rest := by
  have hsign : (r.before.head? != some '<') = true := by
    simpa using fun e => h.no_sign e rfl
  have harithmetic : insideArithmetic (r.showing x).code = insideArithmetic r.code :=
    insideArithmetic_of_pairs fun p hp => hx.countPairs_showing (u := []) hp (Or.inl nofun)
  unfold opensHeredoc
  rw [harithmetic, hx.head?_showing, hsign]
  rfl

/-- The first character behind inserted text is read as without the text. -/
theorem Seam.step_showing {c : Char} (h : r.Seam (c :: rest)) (hx : Insertable x) :
    (r.step c rest).code = c :: r.code ∧
      ((r.showing x).step c rest).code = c :: (r.showing x).code ∧
      Beside (r.step c rest) ((r.showing x).step c rest) rest := by
  obtain ⟨hdollar, hbackslashes⟩ := h.marks_showing hx
  have hcontexts : (r.showing x).contexts = r.contexts := rfl
  have hheredocs : (r.showing x).heredocs = r.heredocs := rfl
  have hopens : c = '<' → (r.showing x).opensHeredoc rest = r.opensHeredoc rest := by
    rintro rfl
    exact h.opensHeredoc_showing hx
  obtain ⟨shown, hcode, hstep⟩ := exists_shown_step hcontexts hheredocs rfl hdollar hopens
  obtain rfl : shown = [c] := by
    rw [h.step_eq, code_stepCode, ← List.singleton_append] at hcode
    exact (List.append_cancel_right hcode).symm
  refine ⟨hcode, by rw [hstep]; rfl, ?_⟩
  refine beside_of_step hcode hstep hbackslashes fun hsigns p hp u => ?_
  rw [← List.append_assoc, ← List.append_assoc]
  refine hx.countPairs_showing hp ?_
  -- The character may complete a pair with what stands before the text: only then is it one itself.
  by_cases hc : c = p
  · exact Or.inr fun e => h.apart (List.infix_cons hsigns) p hp e (congrArg some hc)
  · exact Or.inl (by simpa using hc)

/-- **The rest of a line is read as without the text that is inserted.** -/
theorem Seam.run (h : r.Seam rest) (hx : Insertable x) :
    ∃ shown, (r.run rest).1.code = shown ++ r.code ∧
      ((r.showing x).run rest).1.code = shown ++ (x.reverse ++ r.code) ∧
      ((r.showing x).run rest).1.contexts = (r.run rest).1.contexts ∧
      ((r.showing x).run rest).1.heredocs = (r.run rest).1.heredocs ∧
      ((r.showing x).run rest).2 = (r.run rest).2 := by
  cases rest with
  | nil => exact ⟨[], rfl, rfl, rfl, rfl, rfl⟩
  | cons c rest =>
      have hrun : r.run (c :: rest) = (r.step c rest).run rest := by
        rw [Reader.run, if_neg (by simp [h.no_comment c rfl])]
      have hrun' : (r.showing x).run (c :: rest) = ((r.showing x).step c rest).run rest := by
        rw [Reader.run, if_neg (by simp [hx.opensComment_showing])]
      obtain ⟨hcode, hcode', hbeside⟩ := h.step_showing hx
      obtain ⟨more, hmore, hmore', hrest⟩ := hbeside.run
      rw [hrun, hrun', hmore, hmore', hcode, hcode']
      refine ⟨more ++ [c], ?_, ?_, hrest⟩
      · rw [List.append_assoc, List.singleton_append]
      · rw [List.append_assoc, List.singleton_append]
        rfl

end Reader

/-! ## Scripts -/

namespace Place
variable {p : Place} {text text' : String} {r : Reader} {x : List Char}

/-- The same place with more text before what follows it. -/
def insert (p : Place) (x : List Char) : Place := { p with onward := x ++ p.onward }

/-- **Of a script into which text is inserted only the one line shows more.** -/
theorem At.scan_insert (h : p.At text r) (h' : (p.insert x).At text' r)
    (hread : r.readTo p.onward x = some (r.showing x)) (hseam : r.Seam p.onward)
    (hx : Reader.Insertable x) : ∃ (shown : List Char) (comment : Option (List Char)) (below : List Line),
      scan text = Open.nothing.scan 1 p.above ++
        ⟨p.above.length + 1, p.line, r.code.reverse ++ shown, comment⟩ :: below ∧
      scan text' = Open.nothing.scan 1 p.above ++
        ⟨p.above.length + 1, (p.insert x).line, r.code.reverse ++ (x ++ shown), comment⟩ :: below := by
  obtain ⟨shown, hrun, hrun', hcontexts, hheredocs, hcomment⟩ := hseam.run hx
  have hline : (Open.nothing.after p.above).read p.line = _ := h.read_eq
  have hline' : (Open.nothing.after p.above).read (p.insert x).line = _ := h'.read_eq
  have honward : (p.insert x).onward = x ++ p.onward := rfl
  rw [honward, Reader.run_append hread, hrun', hcontexts, hheredocs, hcomment] at hline'
  rw [hrun] at hline
  have hscan := scan_of_lines h.lines_eq
  have hscan' : scan text' = Open.nothing.scan 1 p.above ++ _ := scan_of_lines h'.lines_eq
  rw [hline, List.reverse_append] at hscan
  rw [hline', List.reverse_append, List.reverse_append, List.reverse_reverse,
    List.append_assoc] at hscan'
  exact ⟨shown.reverse, _, _, hscan, hscan'⟩

end Place

end ShellIndex.Source
