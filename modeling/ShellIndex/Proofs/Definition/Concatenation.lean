import Mathlib.Data.List.Basic
import ShellIndex.Proofs.Definition.Rounds
import ShellIndex.Proofs.Source.Concatenation

set_option autoImplicit false

/-! # Definitions of a text below another

A text that leaves nothing open may stand above any other: the definitions are those of the text
above and then those of the text below, whose lines are numbered on. This holds whatever number of
block braces the text above has left open or closed without need.

The two runs that are compared read the same lines with other numbers, at another depth, and below
other lines (`Corresponds`). One character preserves this, as do a round, a line and all lines.
Outside of bodies the depth decides nothing, and inside a body only the depth above the one at which
the body was opened does.
-/

namespace ShellIndex

/-! ## Results further down -/

/-- The fault in a text with `n` more lines above it. -/
def Fault.shift (n : Nat) : Fault → Fault
  | missingBrace name => missingBrace name
  | missingBody name start => missingBody name (start + n)
  | unterminatedBody name start => unterminatedBody name (start + n)

/-- The error in a text with `n` more lines above it. -/
def ParseError.shift (n : Nat) (e : ParseError) : ParseError :=
  { e with line := e.line + n, fault := e.fault.shift n }

end ShellIndex

namespace ShellIndex.Definition

open Text Source

/-- The definition in a text with `n` more lines above it. -/
def shift (n : Nat) (d : Definition) : Definition :=
  { d with startBlock := d.startBlock + n, start := d.start + n, stop := d.stop + n }

namespace Opening

/-- The opening in a text with `n` more lines above it. -/
def shift (n : Nat) (o : Opening) : Opening :=
  { o with start := o.start + n, startBlock := o.startBlock + n }

theorem bare_add (number n : Nat) (name : List Char) :
    bare (number + n) name = (bare number name).shift n := rfl

/-- The comment above a line does not go on in the text above, if that does not end in one. -/
theorem blockAbove_append {n : Nat} {before above : List Line}
    (habove : ∀ l, above.head? = some l → isDocLine l = false)
    (hbefore : ∀ l ∈ before, isDocLine (l.shift n) = isDocLine l) :
    blockAbove (before.map (Line.shift n) ++ above) = (blockAbove before).map (Line.shift n) := by
  have htake : (before.map (Line.shift n) ++ above).takeWhile isDocLine =
      (before.takeWhile isDocLine).map (Line.shift n) := by
    induction before with
    | nil =>
        cases above with
        | nil => rfl
        | cons l above => exact List.takeWhile_cons_of_neg (by simp [habove l rfl])
    | cons l before ih =>
        have hrest := ih fun l' hl' => hbefore l' (List.mem_cons_of_mem l hl')
        rw [List.map_cons, List.cons_append, List.takeWhile_cons, List.takeWhile_cons,
          hbefore l List.mem_cons_self]
        split
        · rw [hrest, List.map_cons]
        · rfl
  rw [blockAbove, htake, blockAbove, List.map_reverse]

theorem below_shift {n : Nat} {before above : List Line}
    (habove : ∀ l, above.head? = some l → isDocLine l = false)
    (hbefore : ∀ l ∈ before, isDocLine (l.shift n) = isDocLine l) (number : Nat)
    (name : List Char) :
    below (before.map (Line.shift n) ++ above) (number + n) name =
      (below before number name).shift n := by
  have hdoc : Doc.ofLines ((blockAbove before).map (Line.shift n)) =
      Doc.ofLines (blockAbove before) := by
    rw [Doc.ofLines, List.filterMap_map, Doc.ofLines]
    rfl
  rw [below, blockAbove_append habove hbefore, hdoc, below, shift, List.head?_map]
  cases (blockAbove before).head? <;> rfl

end Opening

/-! ## Braces at another depth -/

namespace Braces

/-- The depth does not decide about parameter expansions. -/
theorem step_outside (depth depth' expansions : Nat) (afterDollar : Bool) (c : Char) :
    ∃ d d' e, step ⟨depth, expansions⟩ afterDollar c = ⟨d, e⟩ ∧
      step ⟨depth', expansions⟩ afterDollar c = ⟨d', e⟩ := by
  unfold step
  split
  · split
    · exact ⟨depth, depth', expansions + 1, rfl, rfl⟩
    · split
      · exact ⟨depth + 1, depth' + 1, expansions, rfl, rfl⟩
      · exact ⟨depth, depth', expansions, rfl, rfl⟩
  · split
    · exact ⟨depth - 1, depth' - 1, expansions, rfl, rfl⟩
    · exact ⟨depth, depth', expansions - 1, rfl, rfl⟩
  · exact ⟨depth, depth', expansions, rfl, rfl⟩

theorem scan_outside (depth depth' expansions : Nat) (afterDollar : Bool) (s : List Char) :
    ∃ d d' e, scan ⟨depth, expansions⟩ .none afterDollar s = (⟨d, e⟩, .none) ∧
      scan ⟨depth', expansions⟩ .none afterDollar s = (⟨d', e⟩, .none) := by
  induction s generalizing depth depth' expansions afterDollar with
  | nil => exact ⟨depth, depth', expansions, rfl, rfl⟩
  | cons c s ih =>
      have hnone : ∀ b : Braces, ¬ b.closesBody .none c = true := fun b => by simp [closesBody]
      obtain ⟨d, d', e, hstep, hstep'⟩ := step_outside depth depth' expansions afterDollar c
      rw [scan, scan, if_neg (hnone _), if_neg (hnone _), hstep, hstep']
      exact ih d d' e (c == '$')

/-- The braces open in a body that was opened at depth `outer`, `more` of them in the body. -/
def inBody (outer more expansions : Nat) : Braces := ⟨outer + 1 + more, expansions⟩

/-- In a body a character closes the body, or it does not, at whatever depth the body was opened. -/
theorem step_inBody (more expansions : Nat) (afterDollar : Bool) (c : Char) :
    (∀ outer, (inBody outer more expansions).closesBody (some outer) c = true ∧
        (inBody outer more expansions).step afterDollar c = ⟨outer, 0⟩) ∨
      ∃ more' expansions', ∀ outer,
        (inBody outer more expansions).closesBody (some outer) c = false ∧
          (inBody outer more expansions).step afterDollar c = inBody outer more' expansions' := by
  by_cases hopen : c = '{'
  · subst hopen
    refine Or.inr ?_
    by_cases hdollar : afterDollar = true
    · exact ⟨more, expansions + 1, fun outer => by simp [inBody, closesBody, step, hdollar]⟩
    · by_cases hexpansions : expansions = 0
      · refine ⟨more + 1, expansions, fun outer => ?_⟩
        simp [inBody, closesBody, step, hdollar, hexpansions, Nat.add_assoc]
      · refine ⟨more, expansions, fun outer => ?_⟩
        simp [inBody, closesBody, step, hdollar, hexpansions]
  · by_cases hclose : c = '}'
    · subst hclose
      -- The brace ends an expansion, or else a group in the body, or else the body.
      by_cases hexpansions : expansions = 0
      · by_cases hmore : more = 0
        · refine Or.inl fun outer => ?_
          simp [inBody, closesBody, step, hexpansions, hmore]
        · refine Or.inr ⟨more - 1, expansions, fun outer => ?_⟩
          have hdepth : outer + 1 + more - 1 = outer + 1 + (more - 1) := by omega
          simp [inBody, closesBody, step, hexpansions, hmore, hdepth]
      · refine Or.inr ⟨more, expansions - 1, fun outer => ?_⟩
        simp [inBody, closesBody, step, hexpansions]
    · refine Or.inr ⟨more, expansions, fun outer => ⟨?_, step_of_ne _ _ hopen hclose⟩⟩
      simp [closesBody, hclose]

/-- A body is closed by the same brace at whatever depth it was opened. -/
theorem scan_inBody (more expansions : Nat) (afterDollar : Bool) (s : List Char) :
    (∃ rest, ∀ outer,
        (inBody outer more expansions).scan (some outer) afterDollar s = (⟨outer, 0⟩, some rest)) ∨
      ∃ more' expansions', ∀ outer,
        (inBody outer more expansions).scan (some outer) afterDollar s =
          (inBody outer more' expansions', .none) := by
  induction s generalizing more expansions afterDollar with
  | nil => exact Or.inr ⟨more, expansions, fun outer => rfl⟩
  | cons c s ih =>
      rcases step_inBody more expansions afterDollar c with hcloses | ⟨more', expansions', hstays⟩
      · refine Or.inl ⟨s, fun outer => ?_⟩
        rw [scan, if_pos (hcloses outer).1, (hcloses outer).2]
      · have hscan : ∀ outer,
            (inBody outer more expansions).scan (some outer) afterDollar (c :: s) =
              (inBody outer more' expansions').scan (some outer) (c == '$') s := by
          intro outer
          rw [scan, if_neg (by simp [(hstays outer).1]), (hstays outer).2]
        simp only [hscan]
        exact ih more' expansions' (c == '$')

end Braces

/-! ## Progress below another text -/

/-- The progress made in a text and the progress made in the same text with `n` more lines above
it, where `found` has been found in these. -/
inductive Corresponds (n : Nat) (found : List Definition) : Progress → Progress → Prop where
  | outside (ds : List Definition) (depth depth' expansions : Nat) :
      Corresponds n found ⟨ds, .outside, ⟨depth, expansions⟩⟩
        ⟨ds.map (shift n) ++ found, .outside, ⟨depth', expansions⟩⟩
  | awaiting (ds : List Definition) (o : Opening) (depth depth' expansions : Nat) :
      Corresponds n found ⟨ds, .awaiting o, ⟨depth, expansions⟩⟩
        ⟨ds.map (shift n) ++ found, .awaiting (o.shift n), ⟨depth', expansions⟩⟩
  | inside (ds : List Definition) (o : Opening) (outer outer' more expansions : Nat) :
      Corresponds n found ⟨ds, .inside o outer, Braces.inBody outer more expansions⟩
        ⟨ds.map (shift n) ++ found, .inside (o.shift n) outer',
          Braces.inBody outer' more expansions⟩

namespace Corresponds
variable {n : Nat} {found : List Definition} {p p' : Progress}

theorem openBody (h : Corresponds n found p p') (o : Opening) :
    Corresponds n found (p.openBody o) (p'.openBody (o.shift n)) := by
  cases h with
  | outside ds depth depth' expansions => exact .inside ds o depth depth' 0 expansions
  | awaiting ds o' depth depth' expansions => exact .inside ds o depth depth' 0 expansions
  | inside ds o' outer outer' more expansions =>
      exact .inside ds o (outer + 1 + more) (outer' + 1 + more) 0 expansions

theorem await (h : Corresponds n found p p') (o : Opening) :
    Corresponds n found { p with phase := .awaiting o }
      { p' with phase := .awaiting (o.shift n) } := by
  cases h with
  | outside ds depth depth' expansions => exact .awaiting ds o depth depth' expansions
  | awaiting ds o' depth depth' expansions => exact .awaiting ds o depth depth' expansions
  | inside ds o' outer outer' more expansions => exact .awaiting ds o _ _ expansions

variable {opening opening' : List Char → Opening} {code : List Char}

/-- A round starts alike in both. -/
theorem enter (h : Corresponds n found p p')
    (hopening : ∀ name, opening' name = (opening name).shift n) (code : List Char) :
    match p.enter opening code with
    | .error fault => p'.enter opening' code = .error (fault.shift n)
    | .ok (.lineEnd q) =>
        ∃ q', p'.enter opening' code = .ok (.lineEnd q') ∧ Corresponds n found q q'
    | .ok (.text q rest) =>
        ∃ q', p'.enter opening' code = .ok (.text q' rest) ∧ Corresponds n found q q' := by
  cases hphase : p.phase with
  | outside =>
      have hphase' : p'.phase = .outside := by cases h <;> first | rfl | cases hphase
      unfold Progress.enter
      rw [hphase, hphase']
      dsimp only
      cases Header.read? code with
      | none => exact ⟨p', rfl, h⟩
      | some header =>
          dsimp only
          rw [hopening]
          by_cases hopens : header.opensBody = true
          · rw [if_pos hopens, if_pos hopens]
            exact ⟨_, rfl, h.openBody _⟩
          · rw [if_neg hopens, if_neg hopens]
            by_cases hblank : allBlank header.rest = true
            · rw [if_pos hblank, if_pos hblank]
              exact ⟨_, rfl, h.await _⟩
            · rw [if_neg hblank, if_neg hblank]
              rfl
  | awaiting o =>
      have henter : p.enter opening code = .ok (.text p code) := by rw [Progress.enter, hphase]
      rw [henter]
      refine ⟨p', ?_, h⟩
      cases h <;> first | rfl | cases hphase
  | inside o outer =>
      have henter : p.enter opening code = .ok (.text p code) := by rw [Progress.enter, hphase]
      rw [henter]
      refine ⟨p', ?_, h⟩
      cases h <;> first | rfl | cases hphase

/-- The same brace ends a round in both. -/
theorem scan (h : Corresponds n found p p') (file : String) (number : Nat) (s : List Char) :
    (∃ braces braces', p.braces.scan p.outer? false s = (braces, none) ∧
        p'.braces.scan p'.outer? false s = (braces', none) ∧
        Corresponds n found { p with braces } { p' with braces := braces' }) ∨
      ∃ braces braces' rest, p.braces.scan p.outer? false s = (braces, some rest) ∧
        p'.braces.scan p'.outer? false s = (braces', some rest) ∧
        Corresponds n found { p.closeBody file number with braces }
          { p'.closeBody file (number + n) with braces := braces' } := by
  cases h with
  | outside ds depth depth' expansions =>
      obtain ⟨d, d', e, hscan, hscan'⟩ := Braces.scan_outside depth depth' expansions false s
      exact Or.inl ⟨_, _, hscan, hscan', .outside ds d d' e⟩
  | awaiting ds o depth depth' expansions =>
      obtain ⟨d, d', e, hscan, hscan'⟩ := Braces.scan_outside depth depth' expansions false s
      exact Or.inl ⟨_, _, hscan, hscan', .awaiting ds o d d' e⟩
  | inside ds o outer outer' more expansions =>
      rcases Braces.scan_inBody more expansions false s with
        ⟨rest, hscan⟩ | ⟨more', expansions', hscan⟩
      · exact Or.inr ⟨_, _, rest, hscan outer, hscan outer',
          .outside (o.close file number :: ds) outer outer' 0⟩
      · exact Or.inl ⟨_, _, hscan outer, hscan outer', .inside ds o outer outer' more' expansions'⟩

/-- What a run comes to, and what it comes to with `n` more lines above. -/
def Results (n : Nat) (found : List Definition) :
    Except Fault Progress → Except Fault Progress → Prop
  | .ok p, .ok p' => Corresponds n found p p'
  | .error fault, .error fault' => fault' = fault.shift n
  | _, _ => False

/-- **A line is read alike in both, round by round.** -/
theorem readRounds (h : Corresponds n found p p') (file : String) (number : Nat)
    (hopening : ∀ name, opening' name = (opening name).shift n) (code : List Char) :
    Results n found (p.readRounds file number opening code)
      (p'.readRounds file (number + n) opening' code) := by
  -- On the rounds of the first run, of which `enter` and `scan` say that the second takes them too.
  fun_induction Progress.readRounds p file number opening code generalizing p' opening' with
  | case1 p opening code fault hentry =>
      have henter := h.enter hopening code
      rw [hentry] at henter
      rw [Progress.readRounds_eq, henter]
      rfl
  | case2 p opening code q hentry =>
      have henter := h.enter hopening code
      rw [hentry] at henter
      obtain ⟨q', hentry', hq⟩ := henter
      rw [Progress.readRounds_eq, hentry']
      exact hq
  | case3 p opening code q rest hentry braces hscan =>
      have henter := h.enter hopening code
      rw [hentry] at henter
      obtain ⟨q', hentry', hq⟩ := henter
      rcases hq.scan file number rest with
        ⟨b, b', hb, hb', hread⟩ | ⟨b, b', after, hb, -, -⟩
      · rw [hscan, Prod.mk.injEq] at hb
        obtain ⟨rfl, -⟩ := hb
        rw [Progress.readRounds_of_scan_none hentry' hb']
        exact hread
      · rw [hscan] at hb
        cases hb
  | case4 p opening code q rest hentry braces after hscan ih =>
      have henter := h.enter hopening code
      rw [hentry] at henter
      obtain ⟨q', hentry', hq⟩ := henter
      rcases hq.scan file number rest with
        ⟨b, b', hb, -, -⟩ | ⟨b, b', after', hb, hb', hclosed⟩
      · rw [hscan] at hb
        cases hb
      · rw [hscan, Prod.mk.injEq, Option.some.injEq] at hb
        obtain ⟨rfl, rfl⟩ := hb
        rw [Progress.readRounds_of_scan_some hentry' hb']
        exact ih hclosed fun name => Opening.bare_add number n name

variable {before above : List Line} {l : Line}

/-- **One line keeps both runs together.** -/
theorem readLine (h : Corresponds n found p p') (file : String)
    (habove : ∀ l, above.head? = some l → isDocLine l = false)
    (hbefore : ∀ l ∈ before, isDocLine (l.shift n) = isDocLine l) (l : Line) :
    Results n found (p.readLine file before l)
      (p'.readLine file (before.map (Line.shift n) ++ above) (l.shift n)) := by
  have hbelow := Opening.below_shift habove hbefore l.number
  cases h with
  | outside ds depth depth' expansions =>
      exact (outside ds depth depth' expansions).readRounds file l.number hbelow l.code
  | inside ds o outer outer' more expansions =>
      exact (inside ds o outer outer' more expansions).readRounds file l.number hbelow l.code
  | awaiting ds o depth depth' expansions =>
      unfold Progress.readLine
      dsimp only
      rw [Line.shift_code]
      cases trimStart l.code with
      | nil => exact awaiting ds o depth depth' expansions
      | cons c rest =>
          by_cases hc : c = '{'
          · dsimp only
            rw [if_pos hc, if_pos hc]
            exact ((awaiting ds o depth depth' expansions).openBody o).readRounds file l.number
              (Opening.bare_add l.number n) rest
          · dsimp only
            rw [if_neg hc, if_neg hc]
            rfl

/-- **All lines keep both runs together**, and an error in one is an error in the other. -/
theorem readLines (h : Corresponds n found p p') (file : String)
    (habove : ∀ l, above.head? = some l → isDocLine l = false)
    (hbefore : ∀ l ∈ before, isDocLine (l.shift n) = isDocLine l) {lines : List Line}
    (hlines : ∀ l ∈ lines, isDocLine (l.shift n) = isDocLine l) :
    match p.readLines file before lines with
    | .error e =>
        p'.readLines file (before.map (Line.shift n) ++ above) (lines.map (Line.shift n)) =
          .error (e.shift n)
    | .ok q => ∃ q', p'.readLines file (before.map (Line.shift n) ++ above)
        (lines.map (Line.shift n)) = .ok q' ∧ Corresponds n found q q' := by
  induction lines generalizing p p' before with
  | nil => exact ⟨p', rfl, h⟩
  | cons l lines ih =>
      have hline := h.readLine file habove hbefore l
      rw [List.map_cons, Progress.readLines, Progress.readLines]
      cases hread : p.readLine file before l with
      | error fault =>
          cases hread' : p'.readLine file (before.map (Line.shift n) ++ above) (l.shift n) with
          | error fault' =>
              rw [hread, hread'] at hline
              obtain rfl : fault' = fault.shift n := hline
              rfl
          | ok q' =>
              rw [hread, hread'] at hline
              exact hline.elim
      | ok q =>
          cases hread' : p'.readLine file (before.map (Line.shift n) ++ above) (l.shift n) with
          | error fault' =>
              rw [hread, hread'] at hline
              exact hline.elim
          | ok q' =>
              rw [hread, hread'] at hline
              have hbefore' : ∀ l' ∈ l :: before, isDocLine (l'.shift n) = isDocLine l' := by
                intro l' hl'
                rcases List.mem_cons.mp hl' with rfl | hl'
                · exact hlines l' List.mem_cons_self
                · exact hbefore l' hl'
              exact ih hline hbefore' fun l' hl' => hlines l' (List.mem_cons_of_mem l hl')

/-- The end of the text is met alike in both. -/
theorem finish (h : Corresponds n found p p') :
    p'.finish = match p.finish with
      | .ok ds => .ok (found.reverse ++ ds.map (shift n))
      | .error fault => .error (fault.shift n) := by
  cases h with
  | outside ds depth depth' expansions =>
      show Except.ok (ds.map (shift n) ++ found).reverse =
        Except.ok (found.reverse ++ ds.reverse.map (shift n))
      rw [List.reverse_append, List.map_reverse]
  | awaiting ds o depth depth' expansions => rfl
  | inside ds o outer outer' more expansions => rfl

end Corresponds

/-! ## Texts -/

/-- Lines may be read in two parts. -/
theorem Progress.readLines_append (p : Progress) (file : String) (before lines lines' : List Line) :
    p.readLines file before (lines ++ lines') =
      match p.readLines file before lines with
      | .error e => .error e
      | .ok q => q.readLines file (lines.reverse ++ before) lines' := by
  induction lines generalizing p before with
  | nil => rfl
  | cons l lines ih =>
      rw [List.cons_append, readLines, readLines]
      cases p.readLine file before l with
      | error fault => rfl
      | ok q =>
          dsimp only
          rw [ih, List.reverse_cons, List.append_assoc]
          rfl

/-- What lets a text stand above any other: it ends with a line, nothing in it is left open but
block braces, and the text below it does not go on with its comment. -/
structure Complete (file text : String) (found : List Definition) : Prop where
  ends : text.toList = [] ∨ text.toList.getLast? = some '\n'
  found_eq : extract file text = .ok found
  nothing_open : Open.nothing.after (lines text.toList) = Open.nothing
  no_expansion : ∀ p, Progress.start.readLines file [] (scan text) = .ok p →
    p.braces.expansions = 0
  no_doc : ∀ l, (scan text).getLast? = some l → isDocLine l = false

/-- What has been read at the end of a text that may stand above any other. -/
theorem Complete.exists_progress {file text : String} {found : List Definition}
    (h : Complete file text found) (n : Nat) :
    ∃ p, Progress.start.readLines file [] (scan text) = .ok p ∧
      Corresponds n found.reverse Progress.start p := by
  obtain ⟨p, hread, hphase, rfl⟩ := exists_readLines_of_extract h.found_eq
  refine ⟨p, hread, ?_⟩
  have hexpansions := h.no_expansion p hread
  -- Only outside of bodies a text may end, at whatever depth.
  obtain ⟨ds, phase, depth, expansions⟩ := p
  obtain rfl : phase = .outside := hphase
  obtain rfl : expansions = 0 := hexpansions
  rw [List.reverse_reverse]
  exact .outside [] 0 depth 0

theorem isDocLine_shift {l : Line} (hpos : 0 < l.number) (h : l.isShebang = false) (n : Nat) :
    isDocLine (l.shift n) = isDocLine l := by
  rw [isDocLine, isDocLine, Line.isShebang_shift hpos h, h]
  rfl

theorem lastNumber_append {below : List Line} (h : below ≠ []) (above : List Line) (n : Nat) :
    ((above ++ below.map (Line.shift n)).getLast?.map Line.number).getD 0 =
      (below.getLast?.map Line.number).getD 0 + n := by
  obtain ⟨lines, l, rfl⟩ := List.eq_nil_or_concat below |>.resolve_left h
  simp

/-- **Definitions are found text by text.** Below a text that leaves nothing open but block braces,
the definitions of another text and its errors are those of that text alone, with its lines
numbered on. -/
theorem extract_append {file above : String} {found : List Definition}
    (h : Complete file above found) {below : String} (hbelow : ¬ ['#', '!'] <+: below.toList) :
    extract file (above ++ below) =
      match extract file below with
      | .ok more => .ok (found ++ more.map (shift (lines above.toList).length))
      | .error e => .error (e.shift (lines above.toList).length) := by
  generalize hn : (lines above.toList).length = n
  obtain ⟨p, hread, hp⟩ := h.exists_progress n
  have habove : ∀ l, (scan above).reverse.head? = some l → isDocLine l = false := by
    intro l hl
    rw [List.head?_reverse] at hl
    exact h.no_doc l hl
  have hdoc : ∀ l ∈ scan below, isDocLine (l.shift n) = isDocLine l := by
    intro l hl
    exact isDocLine_shift (Open.le_number_of_mem_scan hl) (isShebang_of_mem_scan hbelow hl) n
  have hlines := hp.readLines file habove (fun l hl => absurd hl List.not_mem_nil) hdoc
  rw [List.map_nil, List.nil_append] at hlines
  rw [extract, ofLines, scan_append h.ends h.nothing_open, hn, Progress.readLines_append, hread,
    List.append_nil, extract, ofLines]
  dsimp only
  cases hbelowRead : Progress.start.readLines file [] (scan below) with
  | error e =>
      rw [hbelowRead] at hlines
      rw [hlines]
  | ok q =>
      rw [hbelowRead] at hlines
      obtain ⟨q', hread', hq⟩ := hlines
      rw [hread']
      dsimp only
      rw [hq.finish, List.reverse_reverse]
      cases hfinish : q.finish with
      | ok more => rfl
      | error fault =>
          -- Without a line below nothing could be left open.
          have hne : scan below ≠ [] := by
            intro hnil
            rw [hnil] at hbelowRead
            obtain rfl := Except.ok.inj hbelowRead
            cases hfinish
          dsimp only
          rw [lastNumber_append hne]
          rfl

/-- A brace too many and one too few in the text above, and below it a definition with a comment, or
else one that is left open. -/
theorem extract_append_unbalanced :
    extract "a.sh" ("#!/bin/sh\nf() \x7b :; \x7d\n\x7d\n\x7b\n" ++ "# Two.\ng() \x7b :; \x7d\n") =
        .ok [⟨"f", none, none, "a.sh", 2, 2, 2⟩, ⟨"g", none, some "Two.", "a.sh", 5, 6, 6⟩] ∧
      extract "a.sh" ("#!/bin/sh\nf() \x7b :; \x7d\n\x7d\n\x7b\n" ++ "g() \x7b\n:\n") =
        .error ⟨"a.sh", 6, .unterminatedBody "g" 5⟩ := by
  have hread :
      Progress.start.readLines "a.sh" [] (scan "#!/bin/sh\nf() \x7b :; \x7d\n\x7d\n\x7b\n") =
        .ok ⟨[⟨"f", none, none, "a.sh", 2, 2, 2⟩], .outside, ⟨1, 0⟩⟩ := by decide +kernel
  have hcomplete : Complete "a.sh" "#!/bin/sh\nf() \x7b :; \x7d\n\x7d\n\x7b\n"
      [⟨"f", none, none, "a.sh", 2, 2, 2⟩] := by
    constructor
    · decide
    · decide +kernel
    · decide +kernel
    · intro p hp
      obtain rfl := Except.ok.inj (hread.symm.trans hp)
      rfl
    · decide +kernel
  have hmore : extract "a.sh" "# Two.\ng() \x7b :; \x7d\n" =
      .ok [⟨"g", none, some "Two.", "a.sh", 1, 2, 2⟩] := by decide +kernel
  have herror : extract "a.sh" "g() \x7b\n:\n" = .error ⟨"a.sh", 2, .unterminatedBody "g" 1⟩ := by
    decide +kernel
  constructor
  · rw [extract_append hcomplete (by decide), hmore]
    decide
  · rw [extract_append hcomplete (by decide), herror]
    decide

end ShellIndex.Definition
