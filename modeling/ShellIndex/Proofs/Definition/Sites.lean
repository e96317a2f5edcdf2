import ShellIndex.Proofs.Definition.Stages

set_option autoImplicit false

/-! # The sites of definitions

Where a definition stands in the code of a script: its header (`Heading`), the blanks behind it, the
brace that opens the body, the text of the body, and the brace that closes it (`Site`). At every stage
that the reader can reach, the definitions found so far are those of such sites, in the order of the
script, and the open definition has a header, too (`Explains`). Each step preserves this
(`Explains.step`), and so it holds of a whole run.
-/

namespace ShellIndex.Definition

open Text Source

/-! ## Sites -/

/-- A header in a script. -/
structure Heading where
  /-- Where the header is read. -/
  point : Point
  /-- The name that it defines. -/
  name : FunctionName
  /-- Its text, with the inline blanks before it. -/
  text : List Char

/-- A definition in a script. -/
structure Site extends Heading where
  /-- What stands between the header and the brace that opens the body. -/
  gap : List Char
  /-- The text between the braces of the body. -/
  body : List Char
  /-- The place of the brace that closes the body. -/
  closing : Point

/-- The definition that a header opens. -/
def Heading.opening (h : Heading) : Opening := h.point.opening h.name.text

/-- The number of expansions that are open where a header stands. -/
def Heading.expansions (h : Heading) : Nat := openExpansions 0 h.point.before

namespace Site

/-- The code of the script up to the end of a definition. -/
def ending (t : Site) : List Char := t.closing.before ++ ['}']

/-- What is recorded of the definition. -/
def definition (file : String) (t : Site) : Definition :=
  t.opening.close file t.closing.line.number

end Site

/-- A place in the given lines, which are given nearest first. -/
structure Point.In (pt : Point) (lines : List Line) : Prop where
  suffix : pt.lines <:+ lines
  code_eq : pt.line.code = pt.front ++ pt.onward

/-- A place where a header is looked for: at the start of a line, or behind a definition that ends
in the line and the separators that follow it. -/
def Point.Free (pt : Point) (sites : List Site) : Prop :=
  pt.front = [] ∨ ∃ t ∈ sites, t.closing.lines = pt.lines ∧ ∃ separators,
    (∀ c ∈ separators, (isBlank c || c == ';' || c == '&') = true) ∧
      pt.front = t.closing.front ++ '}' :: separators

/-- A header in the given lines, with the definitions that have been found. -/
structure Heading.Stands (h : Heading) (lines : List Line) (sites : List Site) : Prop where
  point_in : h.point.In lines
  reads : ∃ blanks text rest, Inline blanks ∧ HeaderText h.name text rest ∧
    h.text = blanks ++ text ∧ h.point.onward = h.text ++ rest
  free : h.point.Free sites

/-- The body is the text up to the first brace that closes as many block braces as are open. -/
structure Site.Closes (t : Site) (lines : List Line) : Prop where
  gap_blank : allBlank t.gap = true
  closing_in : t.closing.In lines
  at_brace : t.closing.onward.head? = some '}'
  before_closing : t.closing.before = t.point.before ++ (t.text ++ (t.gap ++ '{' :: t.body))
  closed : unmatched t.expansions (t.body ++ ['}']) = some 0
  first : ∀ u, u <+: t.body → unmatched t.expansions u ≠ some 0

/-- Definitions in the given lines, nearest first. Each starts behind the end of the next, and the
first ends in `text` at the latest. -/
inductive Listed (lines : List Line) : List Char → List Site → Prop
  | nil (text : List Char) : Listed lines text []
  | cons {text : List Char} {t : Site} {sites : List Site}
      (hstands : t.Stands lines sites) (hcloses : t.Closes lines) (hending : t.ending <+: text)
      (hsites : Listed lines t.point.before sites) : Listed lines text (t :: sites)

/-- What the reader knows of the definitions found and of the open one. -/
inductive PhaseAt (s : Stage) (sites : List Site) : Phase → Braces → Prop
  | outside {b : Braces} (hfree : ∀ pt, s = .round pt → pt.Free sites)
      (hsites : Listed s.lines s.text sites) : PhaseAt s sites .outside b
  | awaiting {b : Braces} {above : List Line} {h : Heading} {gap : List Char}
      (hbetween : s = .between above) (hstands : h.Stands s.lines sites)
      (hsites : Listed s.lines h.point.before sites) (hgap : allBlank gap = true)
      (htext : s.text = h.point.before ++ (h.text ++ gap)) :
      PhaseAt s sites (.awaiting h.opening) b
  | inside {b : Braces} {outer : Nat} {h : Heading} {gap body : List Char}
      (hstands : h.Stands s.lines sites) (hsites : Listed s.lines h.point.before sites)
      (hgap : allBlank gap = true)
      (htext : s.text = h.point.before ++ (h.text ++ (gap ++ '{' :: body)))
      (htally : b.Tally outer h.expansions body) :
      PhaseAt s sites (.inside h.opening outer) b

/-- The place of a stage is a place in its line. -/
def Stage.Sound : Stage → Prop
  | between _ => True
  | round pt => pt.line.code = pt.front ++ pt.onward
  | counting pt => pt.line.code = pt.front ++ pt.onward

/-- What stands behind the progress made at a stage. -/
structure Explains (file : String) (s : Stage) (p : Progress) (sites : List Site) : Prop where
  sound : s.Sound
  expansions_eq : p.braces.expansions = openExpansions 0 s.text
  found_eq : p.found = sites.map (Site.definition file)
  phase : PhaseAt s sites p.phase p.braces

section
variable {file : String} {s s' : Stage} {pt : Point} {p p' : Progress} {sites : List Site}
variable {lines lines' : List Line} {text text' gap : List Char} {h : Heading} {t : Site} {n : Nat}

theorem Heading.name_opening (h : Heading) : h.opening.name = String.ofList h.name.text := by
  rw [opening, Point.opening]
  split <;> rfl

theorem Heading.start_opening (h : Heading) : h.opening.start = h.point.line.number := by
  rw [opening, Point.opening]
  split <;> rfl

/-! ## More lines and more text -/

theorem Point.In.mono (h : pt.In lines) (hlines : lines <:+ lines') : pt.In lines' :=
  ⟨h.suffix.trans hlines, h.code_eq⟩

theorem Heading.Stands.mono (hstands : h.Stands lines sites) (hlines : lines <:+ lines') :
    h.Stands lines' sites :=
  ⟨hstands.point_in.mono hlines, hstands.reads, hstands.free⟩

theorem Site.Closes.mono (h : t.Closes lines) (hlines : lines <:+ lines') : t.Closes lines' :=
  { h with closing_in := h.closing_in.mono hlines }

theorem Listed.mono (h : Listed lines text sites) (hlines : lines <:+ lines')
    (htext : text <+: text') : Listed lines' text' sites := by
  induction h generalizing text' with
  | nil text => exact .nil text'
  | cons hstands hcloses hending hsites ih =>
      exact .cons (hstands.mono hlines) (hcloses.mono hlines) (hending.trans htext)
        (ih (List.prefix_refl _))

/-- Each of the sites stands behind those listed after it, and its body is closed there. -/
theorem Listed.of_mem (hlisted : Listed lines text sites) :
    ∀ t ∈ sites, ∃ earlier, t :: earlier <:+ sites ∧ t.Stands lines earlier ∧ t.Closes lines := by
  induction hlisted with
  | nil text => exact fun t ht => absurd ht List.not_mem_nil
  | @cons text t sites hstands hcloses hending hsites ih =>
      refine List.forall_mem_cons.mpr ⟨⟨sites, List.suffix_refl _, hstands, hcloses⟩, ?_⟩
      intro u hu
      obtain ⟨earlier, hsuffix, hu⟩ := ih u hu
      exact ⟨earlier, hsuffix.trans (List.suffix_cons t sites), hu⟩

/-! ## Text that opens and closes no expansion -/

theorem openExpansions_append (htext : ∀ c ∈ text', c ≠ '{' ∧ c ≠ '}') :
    openExpansions n (text ++ text') = openExpansions n text := by
  induction text' generalizing text with
  | nil => rw [List.append_nil]
  | cons c text' ih =>
      have hc := htext c List.mem_cons_self
      rw [List.append_cons, ih fun d hd => htext d (List.mem_cons_of_mem c hd),
        openExpansions_append_singleton, if_neg fun e => hc.1 e.1, if_neg hc.2]

theorem ne_brace_of_isBlank {c : Char} (hc : isBlank c = true) : c ≠ '{' ∧ c ≠ '}' ∧ c ≠ '$' :=
  ne_brace_of_pred (by decide) hc

theorem ne_brace_of_isNamePart {c : Char} (hc : isNamePart c = true) :
    c ≠ '{' ∧ c ≠ '}' ∧ c ≠ '$' :=
  ne_brace_of_pred (by decide) hc

theorem IsParens.ne_brace {parens : List Char} (h : IsParens parens) :
    ∀ c ∈ parens, c ≠ '{' ∧ c ≠ '}' ∧ c ≠ '$' := by
  obtain ⟨blanks, inner, hblanks, hinner, rfl⟩ := h
  intro c hc
  simp only [List.mem_append, List.mem_cons, List.not_mem_nil, or_false] at hc
  rcases hc with hc | rfl | hc | rfl
  · exact ne_brace_of_isBlank (hblanks.isBlank c hc)
  · decide
  · exact ne_brace_of_isBlank (hinner.isBlank c hc)
  · decide

theorem FunctionName.ne_brace (name : FunctionName) : ∀ c ∈ name.text, c ≠ '{' ∧ c ≠ '}' ∧ c ≠ '$' :=
  fun c hc => ne_brace_of_isNamePart (name.plain c hc)

/-- No character of a header is a brace or a dollar sign. -/
theorem HeaderText.ne_brace {name : FunctionName} {rest : List Char}
    (h : HeaderText name text rest) : ∀ c ∈ text, c ≠ '{' ∧ c ≠ '}' ∧ c ≠ '$' := by
  have hkeyword : ∀ c ∈ "function".toList, c ≠ '{' ∧ c ≠ '}' ∧ c ≠ '$' := by simp
  cases h with
  | keyword hne hblanks hrest =>
      simp only [List.forall_mem_append]
      exact ⟨hkeyword, fun c hc => ne_brace_of_isBlank (hblanks.isBlank c hc), name.ne_brace⟩
  | keywordParens hne hblanks hparens =>
      simp only [List.forall_mem_append]
      exact ⟨hkeyword, fun c hc => ne_brace_of_isBlank (hblanks.isBlank c hc), name.ne_brace,
        hparens.ne_brace⟩
  | parens hparens =>
      simp only [List.forall_mem_append]
      exact ⟨name.ne_brace, hparens.ne_brace⟩

theorem HeaderText.ne_nil {name : FunctionName} {rest : List Char}
    (h : HeaderText name text rest) : text ≠ [] := by
  intro hnil
  cases h with
  | keyword => cases hnil
  | keywordParens => cases hnil
  | parens => exact name.ne_nil (List.append_eq_nil_iff.mp hnil).1

theorem Heading.Stands.ne_brace (hstands : h.Stands lines sites) :
    ∀ c ∈ h.text, c ≠ '{' ∧ c ≠ '}' ∧ c ≠ '$' := by
  obtain ⟨blanks, text, rest, hblanks, htext, heq, -⟩ := hstands.reads
  rw [heq]
  simp only [List.forall_mem_append]
  exact ⟨fun c hc => ne_brace_of_isBlank (hblanks.isBlank c hc), htext.ne_brace⟩

/-- From a header to the brace that opens its body there is no brace or dollar sign. -/
theorem Heading.Stands.ne_brace_of_gap (hstands : h.Stands lines sites)
    (hgap : allBlank gap = true) : ∀ c ∈ h.text ++ gap, c ≠ '{' ∧ c ≠ '}' ∧ c ≠ '$' :=
  List.forall_mem_append.mpr
    ⟨hstands.ne_brace, fun c hc => ne_brace_of_isBlank (List.all_eq_true.mp hgap c hc)⟩

/-- Up to the brace that opens its body a definition opens no expansion. -/
theorem Heading.Stands.openExpansions_eq (hstands : h.Stands lines sites)
    (hgap : allBlank gap = true) :
    openExpansions 0 (h.point.before ++ (h.text ++ gap)) = h.expansions := by
  refine openExpansions_append fun c hc => ?_
  obtain ⟨hopen, hclose, -⟩ := hstands.ne_brace_of_gap hgap c hc
  exact ⟨hopen, hclose⟩

theorem afterDollar_append {more : List Char} (hne : more ≠ []) (s : List Char) :
    afterDollar (s ++ more) = afterDollar more := by
  rw [afterDollar, afterDollar, List.getLast?_append, List.getLast?_eq_some_getLast hne]
  rfl

theorem afterDollar_eq_false (h : ∀ c ∈ text, c ≠ '$') : afterDollar text = false := by
  rw [afterDollar_eq_false_iff]
  exact fun hlast => h '$' (List.mem_of_getLast? hlast) rfl

/-- Behind the brace of a body the body decides what the next character follows. -/
theorem afterDollar_body (s body : List Char) :
    afterDollar (s ++ '{' :: body) = afterDollar body := by
  rw [afterDollar_append (List.cons_ne_nil _ _)]
  cases body with
  | nil => rfl
  | cons c body => exact afterDollar_append (List.cons_ne_nil c body) ['{']

theorem afterDollar_codeAbove (above : List Line) : afterDollar (codeAbove above) = false := by
  cases above with
  | nil => rfl
  | cons l above =>
      rw [codeAbove, ← List.append_assoc, afterDollar_append_singleton]
      rfl

theorem afterDollar_before (pt : Point) : afterDollar pt.before = afterDollar pt.front := by
  rw [Point.before]
  by_cases hfront : pt.front = []
  · rw [hfront, List.append_nil]
    exact afterDollar_codeAbove pt.above
  · exact afterDollar_append hfront _

theorem Heading.Stands.openExpansions_brace (hstands : h.Stands lines sites)
    (hgap : allBlank gap = true) :
    openExpansions 0 (h.point.before ++ (h.text ++ (gap ++ ['{']))) = h.expansions := by
  have hplain : ∀ c ∈ h.text ++ gap, c ≠ '$' := fun c hc => (hstands.ne_brace_of_gap hgap c hc).2.2
  have hne : h.text ++ gap ≠ [] := by
    intro hnil
    obtain ⟨blanks, text, rest, -, htext, heq, -⟩ := hstands.reads
    rw [heq] at hnil
    simp only [List.append_eq_nil_iff] at hnil
    exact htext.ne_nil hnil.1.2
  have hlast : (h.point.before ++ (h.text ++ gap)).getLast? ≠ some '$' := by
    rw [← afterDollar_eq_false_iff, afterDollar_append hne]
    exact afterDollar_eq_false hplain
  have hsplit : h.point.before ++ (h.text ++ (gap ++ ['{'])) =
      h.point.before ++ (h.text ++ gap) ++ ['{'] := by simp
  rw [hsplit, openExpansions_append_singleton, if_neg fun e => hlast e.2, if_neg (by decide)]
  exact hstands.openExpansions_eq hgap

/-! ## One step -/

variable {phase : Phase} {b b' : Braces} {more : List Char}

/-- Text that is read leaves the open definition as it is, if a body counts it. -/
theorem PhaseAt.append (hx : PhaseAt s sites phase b) (hlines : s.lines <:+ s'.lines)
    (htext : s'.text = s.text ++ more) (hphase : ∀ o, phase ≠ .awaiting o)
    (hfree : ∀ pt, s' = .round pt → phase = .outside → pt.Free sites)
    (htally : ∀ o outer n body, phase = .inside o outer → afterDollar s.text = afterDollar body →
      b.Tally outer n body → b'.Tally outer n (body ++ more)) :
    PhaseAt s' sites phase b' := by
  cases hx with
  | outside _ hsites =>
      exact .outside (fun pt hpt => hfree pt hpt rfl)
        (hsites.mono hlines ⟨more, htext.symm⟩)
  | awaiting _ _ _ _ _ => exact absurd rfl (hphase _)
  | @inside _ outer h gap body hstands hsites hgap hbefore hcount =>
      have hflag : afterDollar s.text = afterDollar body := by
        rw [hbefore, ← List.append_assoc, ← List.append_assoc, afterDollar_body]
      refine .inside (hstands.mono hlines) (hsites.mono hlines (List.prefix_refl _)) hgap ?_
        (htally _ _ _ _ rfl hflag hcount)
      rw [htext, hbefore]
      simp

/-- A brace is awaited between two lines only. -/
theorem PhaseAt.ne_awaiting (hx : PhaseAt s sites phase b) (hs : ∀ above, s ≠ .between above) :
    ∀ o, phase ≠ .awaiting o := by
  rintro o rfl
  cases hx with
  | awaiting hbetween => exact hs _ hbetween

/-- A line is entered, or no header is read. -/
theorem Explains.unmoved (hx : Explains file s p sites) (hsound : s'.Sound)
    (hlines : s.lines <:+ s'.lines) (htext : s'.text = s.text) (hphase : ∀ o, p.phase ≠ .awaiting o)
    (hfree : ∀ pt, s' = .round pt → p.phase = .outside → pt.Free sites) :
    Explains file s' p sites := by
  refine ⟨hsound, by rw [htext, hx.expansions_eq], hx.found_eq, ?_⟩
  have hnothing : s'.text = s.text ++ [] := by rw [htext, List.append_nil]
  refine hx.phase.append hlines hnothing hphase hfree ?_
  intro o outer n body _ _ htally
  rw [List.append_nil]
  exact htally

/-- A character is counted, inside a body and outside. -/
theorem Explains.count {c : Char} {onward : List Char} (hx : Explains file (.counting pt) p sites)
    (hcode : pt.onward = c :: onward) (hstays : p.braces.closesBody p.outer? c = false) :
    Explains file (.counting (pt.moved [c] onward))
      { p with braces := p.braces.step (afterDollar pt.front) c } sites := by
  have htext : (Stage.counting (pt.moved [c] onward)).text = pt.before ++ [c] :=
    pt.before_moved [c] onward
  have hflag : afterDollar pt.front = afterDollar pt.before := (afterDollar_before pt).symm
  refine ⟨?_, ?_, hx.found_eq, ?_⟩
  · show pt.line.code = (pt.front ++ [c]) ++ onward
    rw [List.append_assoc]
    exact hx.sound.trans (by rw [hcode]; rfl)
  · rw [htext, hflag]
    exact expansions_step p.braces pt.before c hx.expansions_eq
  · refine hx.phase.append (List.suffix_refl _) htext (hx.phase.ne_awaiting (by simp))
      (fun pt h => by cases h) ?_
    intro o outer n body hphase hbody htally
    have hbody : afterDollar pt.before = afterDollar body := hbody
    rw [hflag, hbody]
    refine htally.step ?_
    rw [Progress.outer?, hphase] at hstays
    exact hstays

theorem text_lineEnd {onward : List Char} (hsound : pt.line.code = pt.front ++ onward) :
    codeAbove pt.lines = pt.before ++ (onward ++ ['\n']) := by
  rw [Point.lines, codeAbove, hsound, Point.before]
  simp

/-- The end of a line is one character more. -/
theorem Explains.lineEnd (hx : Explains file (.counting pt) p sites) (hcode : pt.onward = []) :
    Explains file (.between pt.lines) p sites := by
  have htext : (Stage.between pt.lines).text = pt.before ++ ['\n'] := by
    have hsound : pt.line.code = pt.front ++ pt.onward := hx.sound
    rw [hcode] at hsound
    exact text_lineEnd hsound
  refine ⟨trivial, ?_, hx.found_eq, ?_⟩
  · rw [htext, openExpansions_append (by simp)]
    exact hx.expansions_eq
  · refine hx.phase.append (List.suffix_refl _) htext (hx.phase.ne_awaiting (by simp))
      (fun pt h => by cases h) ?_
    intro o outer n body _ _ htally
    have hstep := htally.step (c := '\n') (by simp [Braces.closesBody])
    exact hstep

/-- A blank line belongs to what stands before the brace that is awaited. -/
theorem Explains.skip {above : List Line} {o : Opening} {l : Line}
    (hx : Explains file (.between above) p sites) (hphase : p.phase = .awaiting o)
    (hblank : allBlank l.code = true) : Explains file (.between (l :: above)) p sites := by
  have hx' := hx.phase
  rw [hphase] at hx'
  have hmore : allBlank (l.code ++ ['\n']) = true := by
    rw [allBlank, List.all_append, ← allBlank, hblank]
    rfl
  refine ⟨trivial, ?_, hx.found_eq, ?_⟩
  · rw [hx.expansions_eq]
    refine (openExpansions_append fun c hc => ?_).symm
    have hc := ne_brace_of_isBlank (List.all_eq_true.mp hmore c hc)
    exact ⟨hc.1, hc.2.1⟩
  · rw [hphase]
    cases hx' with
    | @awaiting _ _ h gap _ hstands hsites hgap htext =>
        have hlines : (Stage.between above).lines <:+ (Stage.between (l :: above)).lines :=
          List.suffix_cons l above
        have hblanks : allBlank (gap ++ (l.code ++ ['\n'])) = true := by
          rw [allBlank, List.all_append, ← allBlank, hgap]
          exact hmore
        refine .awaiting rfl (hstands.mono hlines) (hsites.mono hlines (List.prefix_refl _)) hblanks ?_
        · show codeAbove above ++ (l.code ++ ['\n']) = _
          have htext : codeAbove above = h.point.before ++ (h.text ++ gap) := htext
          rw [htext]
          simp

/-- The brace of a header opens a body. -/
theorem Explains.openBody (hstands : h.Stands s'.lines sites)
    (hsites : Listed s'.lines h.point.before sites) (hgap : allBlank gap = true)
    (htext : s'.text = h.point.before ++ (h.text ++ (gap ++ ['{']))) (hsound : s'.Sound)
    (hexpansions : p.braces.expansions = h.expansions)
    (hfound : p.found = sites.map (Site.definition file)) :
    Explains file s' (p.openBody h.opening) sites := by
  refine ⟨hsound, ?_, hfound, ?_⟩
  · rw [htext, hstands.openExpansions_brace hgap]
    exact hexpansions
  · have hstart := Braces.Tally.start p.braces.depth h.expansions
    rw [← hexpansions] at hstart
    refine .inside hstands hsites hgap htext ?_
    rw [← hexpansions]
    exact hstart

/-- The brace that was awaited. -/
theorem Explains.brace {above : List Line} {o : Opening} {blanks onward : List Char} {l : Line}
    (hx : Explains file (.between above) p sites) (hphase : p.phase = .awaiting o)
    (hblank : allBlank blanks = true) (hcode : l.code = blanks ++ '{' :: onward) :
    Explains file (.round ⟨above, l, blanks ++ ['{'], onward⟩) (p.openBody o) sites := by
  have hx' := hx.phase
  rw [hphase] at hx'
  cases hx' with
  | @awaiting _ _ h gap _ hstands hsites hgap htext =>
      have htext : codeAbove above = h.point.before ++ (h.text ++ gap) := htext
      have hlines : (Stage.between above).lines <:+ l :: above := List.suffix_cons l above
      have hblanks : allBlank (gap ++ blanks) = true := by
        rw [allBlank, List.all_append, ← allBlank, hgap]
        exact hblank
      refine Explains.openBody (hstands.mono hlines) (hsites.mono hlines (List.prefix_refl _)) hblanks
        ?_ ?_ ?_ hx.found_eq
      · show codeAbove above ++ (blanks ++ ['{']) = _
        rw [htext]
        simp
      · show l.code = blanks ++ ['{'] ++ onward
        rw [hcode]
        simp
      · rw [hx.expansions_eq]
        show openExpansions 0 (codeAbove above) = _
        rw [htext]
        exact hstands.openExpansions_eq hgap

/-- Where a header is read there is one, behind the definitions found so far. -/
theorem Explains.exists_heading {header : Header} (hx : Explains file (.round pt) p sites)
    (hphase : p.phase = .outside) (hread : Header.read? pt.onward = some header) :
    ∃ (h : Heading) (gap : List Char), h.point = pt ∧ h.opening = pt.opening header.name ∧
      h.Stands pt.lines sites ∧ Listed pt.lines h.point.before sites ∧ allBlank gap = true ∧
      pt.onward =
        h.text ++ (gap ++ if header.opensBody then '{' :: header.rest else header.rest) ∧
      p.braces.expansions = h.expansions := by
  obtain ⟨name, blanks, text, gap, hname, hblanks, hgap, htext, hsplit⟩ :=
    Header.exists_headerText hread
  have hx' := hx.phase
  rw [hphase] at hx'
  cases hx' with
  | outside hfree hsites =>
      have honward : pt.onward = (blanks ++ text) ++
          (gap ++ if header.opensBody then '{' :: header.rest else header.rest) := by
        rw [hsplit, List.append_assoc]
      refine ⟨⟨pt, name, blanks ++ text⟩, gap, rfl, ?_, ⟨⟨List.suffix_refl _, hx.sound⟩, ?_,
        hfree pt rfl⟩, hsites, ?_, honward, hx.expansions_eq⟩
      · rw [Heading.opening, hname]
      · exact ⟨blanks, text, _, hblanks, htext, rfl, honward⟩
      · exact List.all_eq_true.mpr hgap.isBlank

theorem Explains.header {header : Header} (hx : Explains file (.round pt) p sites)
    (hphase : p.phase = .outside) (hread : Header.read? pt.onward = some header)
    (hopens : header.opensBody = true) (hsplit : pt.onward = more ++ header.rest) :
    Explains file (.counting (pt.moved more header.rest))
      (p.openBody (pt.opening header.name)) sites := by
  obtain ⟨h, gap, hpoint, hopening, hstands, hsites, hgap, honward, hexpansions⟩ :=
    hx.exists_heading hphase hread
  rw [hopens, if_pos rfl] at honward
  have hmore : more = h.text ++ (gap ++ ['{']) := by
    have happend : more ++ header.rest = h.text ++ (gap ++ ['{']) ++ header.rest := by
      rw [← hsplit, honward]
      simp
    exact List.append_cancel_right happend
  rw [← hopening]
  refine Explains.openBody hstands hsites hgap ?_ ?_ hexpansions hx.found_eq
  · rw [hpoint, ← hmore]
    exact pt.before_moved more header.rest
  · show pt.line.code = pt.front ++ more ++ header.rest
    rw [List.append_assoc, ← hsplit]
    exact hx.sound

theorem Explains.await {header : Header} (hx : Explains file (.round pt) p sites)
    (hphase : p.phase = .outside) (hread : Header.read? pt.onward = some header)
    (hopens : header.opensBody = false) (hblank : allBlank header.rest = true) :
    Explains file (.between pt.lines)
      { p with phase := .awaiting (pt.opening header.name) } sites := by
  obtain ⟨h, gap, hpoint, hopening, hstands, hsites, hgap, honward, hexpansions⟩ :=
    hx.exists_heading hphase hread
  rw [hopens, if_neg (by decide)] at honward
  have hmore : allBlank (gap ++ (header.rest ++ ['\n'])) = true := by
    rw [allBlank, List.all_append, List.all_append, ← allBlank, hgap, ← allBlank, hblank]
    rfl
  have htext : codeAbove pt.lines =
      h.point.before ++ (h.text ++ (gap ++ (header.rest ++ ['\n']))) := by
    rw [text_lineEnd hx.sound, honward, hpoint]
    simp
  refine ⟨trivial, ?_, hx.found_eq, ?_⟩
  · show p.braces.expansions = openExpansions 0 (codeAbove pt.lines)
    rw [htext, hstands.openExpansions_eq hmore]
    exact hexpansions
  · rw [← hopening]
    exact .awaiting rfl hstands hsites hmore htext

/-- The brace that closes a body ends a definition. -/
theorem Explains.close {c : Char} {separators onward : List Char}
    (hx : Explains file (.counting pt) p sites) (hcode : pt.onward = c :: (separators ++ onward))
    (hcloses : p.braces.closesBody p.outer? c = true)
    (hskip : skipSeparators (separators ++ onward) = onward) :
    ∃ sites', Explains file (.round (pt.moved (c :: separators) onward))
      { p.closeBody file pt.line.number with
        braces := p.braces.step (afterDollar pt.front) c } sites' := by
  have hseparators := isSeparator_of_skipSeparators hskip
  have hx' := hx.phase
  obtain ⟨found, phase, b⟩ := p
  cases hx' with
  | outside hfree hsites => exact absurd hcloses (by simp [Progress.outer?, Braces.closesBody])
  | awaiting hbetween => cases hbetween
  | @inside _ outer h gap body hstands hsites hgap htext htally =>
      have hcloses : b.closesBody (some outer) c = true := hcloses
      obtain ⟨rfl, hstep⟩ := Braces.step_closing hcloses (afterDollar pt.front)
      have hbefore : (pt.moved ('}' :: separators) onward).before =
          (pt.before ++ ['}']) ++ separators := by
        rw [Point.before_moved, List.append_cons]
      have hbrace : pt.onward.head? = some '}' := by rw [hcode]; rfl
      have hclosed := (htally.closesBody_iff '}').mp hcloses
      -- The open definition becomes the last site, with the end where the brace stands.
      refine ⟨⟨h, gap, body, pt⟩ :: sites, ?_, ?_, ?_, ?_⟩
      · show pt.line.code = pt.front ++ ('}' :: separators) ++ onward
        rw [List.append_assoc]
        exact hx.sound.trans (by rw [hcode]; rfl)
      · show (b.step (afterDollar pt.front) '}').expansions = openExpansions 0 (pt.moved _ _).before
        rw [hbefore, openExpansions_append, ← afterDollar_before]
        · exact expansions_step b pt.before '}' hx.expansions_eq
        · intro d hd
          have hne := ne_brace_of_pred (P := fun c => isBlank c || c == ';' || c == '&') (by decide)
            (hseparators d hd)
          exact ⟨hne.1, hne.2.1⟩
      · show h.opening.close file pt.line.number :: found = _
        rw [List.map_cons]
        exact congrArg _ hx.found_eq
      · refine .outside (fun pt' hpt' => ?_) ?_
        · obtain rfl := Stage.round.inj hpt'
          exact Or.inr ⟨_, List.mem_cons_self, rfl, separators, hseparators, rfl⟩
        · refine .cons hstands ⟨hgap, ⟨List.suffix_refl _, hx.sound⟩, hbrace, htext, hclosed,
            htally.not_closed⟩ ?_ hsites
          exact ⟨separators, hbefore.symm⟩

/-- **Each step keeps the definitions at their sites.** -/
theorem Explains.step (hx : Explains file s p sites) (hstep : Step file s p s' p') :
    ∃ sites', Explains file s' p' sites' := by
  cases hstep with
  | @line above p l hphase =>
      exact ⟨sites, hx.unmoved rfl (List.suffix_cons l above) (List.append_nil _) hphase
        fun pt h _ => Or.inl (by obtain rfl := Stage.round.inj h; rfl)⟩
  | skip l hphase hblank => exact ⟨sites, hx.skip hphase hblank⟩
  | brace l hphase hblank hcode => exact ⟨sites, hx.brace hphase hblank hcode⟩
  | text hcode =>
      exact ⟨sites, hx.unmoved hx.sound (List.suffix_refl _) rfl
        (hx.phase.ne_awaiting (by simp)) (fun pt h => by cases h)⟩
  | header hphase hread hopens hsplit => exact ⟨sites, hx.header hphase hread hopens hsplit⟩
  | await hphase hread hopens hblank => exact ⟨sites, hx.await hphase hread hopens hblank⟩
  | count hcode hstays => exact ⟨sites, hx.count hcode hstays⟩
  | close hcode hcloses hskip => exact hx.close hcode hcloses hskip
  | lineEnd hcode => exact ⟨sites, hx.lineEnd hcode⟩

/-- **At every stage that can be reached the definitions found stand at their sites**, and so does
the open one. -/
theorem Reaches.exists_sites (h : Reaches file s p) : ∃ sites, Explains file s p sites := by
  induction h with
  | start => exact ⟨[], trivial, rfl, rfl, .outside (fun pt h => by cases h) (.nil _)⟩
  | step h hstep ih =>
      obtain ⟨sites, hx⟩ := ih
      exact hx.step hstep

end

end ShellIndex.Definition
