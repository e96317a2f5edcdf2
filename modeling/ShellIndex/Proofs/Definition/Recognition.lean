import ShellIndex.Proofs.Definition.Bodies
import ShellIndex.Proofs.Definition.Concatenation
import ShellIndex.Proofs.Definition.Spans
import ShellIndex.Proofs.Source.Places

set_option autoImplicit false

/-! # No definition is lost or invented

In a script that is not refused, a line that begins with a header starts a definition of that name,
unless it lies inside the body of another one; and what is reported as a definition is a header with a
body behind it (`headers_of_extract`).

That none is lost follows from what the reader owes (`Progress.Owes`): a definition that has been
opened is open still, or it has been reported.
-/

namespace ShellIndex.Definition

open Text Source

/-- A definition is open, or it has been found with an end in line `n` at the earliest. -/
def Progress.Owes (file : String) (n : Nat) (o : Opening) (p : Progress) : Prop :=
  p.opening? = some o ∨ ∃ stop, n ≤ stop ∧ o.close file stop ∈ p.found

section
variable {file : String} {n number : Nat} {o : Opening} {p p' : Progress}
variable {opening : List Char → Opening} {code : List Char} {above lines : List Line} {l : Line}
variable {name : FunctionName} {text rest : List Char}

/-! ## What is owed stays owed -/

theorem Progress.opening?_of_outside (hphase : p.phase = .outside) : p.opening? = none := by
  rw [opening?, hphase]

/-- Outside of bodies a new definition may be opened. -/
theorem Progress.Owes.of_outside (h : p.Owes file n o) (hphase : p.phase = .outside)
    (hfound : p'.found = p.found) : p'.Owes file n o := by
  rcases h with hopen | hfound'
  · rw [p.opening?_of_outside hphase] at hopen
    cases hopen
  · rw [← hfound] at hfound'
    exact Or.inr hfound'

/-- **What is owed stays owed**, until the body is closed. -/
theorem owes_invariant : Invariant file n (Progress.Owes file n o) where
  openBody p o' hphase h := by
    rcases h with hopen | hfound
    · rcases hphase with hphase | hphase
      · rw [p.opening?_of_outside hphase] at hopen
        cases hopen
      · rw [Progress.opening?, hphase] at hopen
        exact Or.inl hopen
    · exact Or.inr hfound
  await p o' hphase h := h.of_outside hphase rfl
  with_braces p braces h := h
  closeBody p stop hn h := by
    obtain ⟨found, phase, braces⟩ := p
    cases phase with
    | outside => exact h
    | awaiting o' => exact h
    | inside o' outer =>
        rcases h with hopen | ⟨stop', hstop, hmem⟩
        · obtain rfl : o' = o := Option.some.inj hopen
          exact Or.inr ⟨stop, hn, List.mem_cons_self⟩
        · exact Or.inr ⟨stop', hstop, List.mem_cons_of_mem _ hmem⟩

/-! ## Lines that begin with a header -/

/-- The first character behind the blanks is one of a name. -/
theorem BeginsHeader.exists_trimStart (h : BeginsHeader name code) :
    ∃ c rest, trimStart code = c :: rest ∧ isNamePart c = true := by
  obtain ⟨blanks, text, rest, hblanks, htext, rfl⟩ := h
  obtain ⟨c, more, hmore, hc⟩ : ∃ c more, text = c :: more ∧ isNamePart c = true := by
    obtain ⟨c, more, hname, hstart, -⟩ := name.exists_cons
    have hc : isNamePart c = true := by simp [isNamePart, hstart]
    cases htext with
    | keyword => exact ⟨'f', _, rfl, by decide⟩
    | keywordParens => exact ⟨'f', _, rfl, by decide⟩
    | @parens parens => exact ⟨c, more ++ parens, by rw [hname]; rfl, hc⟩
  refine ⟨c, more ++ rest, ?_, hc⟩
  rw [trimStart, List.dropWhile_append_of_pos hblanks.isBlank, hmore, List.cons_append,
    List.dropWhile_cons_of_neg (by simp [Header.isBlank_of_isNamePart hc])]

/-- A line that begins with a header is refused where a brace is awaited. -/
theorem BeginsHeader.readLine_of_awaiting (h : BeginsHeader name l.code)
    (hphase : p.phase = .awaiting o) :
    p.readLine file above l = .error (.missingBrace o.name) := by
  obtain ⟨c, rest, htrim, hc⟩ := h.exists_trimStart
  have hne : c ≠ '{' := (ne_brace_of_isNamePart hc).1
  rw [Progress.readLine, hphase]
  dsimp only
  rw [htrim]
  dsimp only
  rw [if_neg hne]

/-- Outside of bodies a header opens a body or is followed by the wait for one. -/
theorem readRounds_of_header {header : Header} (hphase : p.phase = .outside)
    (hheader : Header.read? code = some header)
    (hread : p.readRounds file number opening code = .ok p') :
    (p.openBody (opening header.name)).readRounds file number opening header.rest = .ok p' ∨
      p' = { p with phase := .awaiting (opening header.name) } := by
  rw [Progress.readRounds_eq, Progress.enter, hphase, hheader] at hread
  dsimp only at hread
  by_cases hopens : header.opensBody = true
  · rw [if_pos hopens] at hread
    have hentry : (p.openBody (opening header.name)).enter opening header.rest = .ok (.text _ _) :=
      Progress.enter_of_no_header (fun hinside => by cases hinside) opening
    rw [Progress.readRounds_eq, hentry]
    exact Or.inl hread
  · rw [if_neg hopens] at hread
    by_cases hblank : allBlank header.rest = true
    · rw [if_pos hblank] at hread
      obtain rfl := Except.ok.inj hread
      exact Or.inr rfl
    · rw [if_neg hblank] at hread
      cases hread

/-- A line that begins with a header opens a definition outside of bodies. -/
theorem BeginsHeader.readLine_of_outside (h : BeginsHeader name l.code)
    (hphase : p.phase = .outside) (hread : p.readLine file above l = .ok p') :
    p'.Owes file l.number (Opening.below above l.number name.text) := by
  obtain ⟨blanks, text, rest, hblanks, htext, hcode⟩ := h
  obtain ⟨header, hheader, hname⟩ := Header.read?_of_headerText hblanks htext
  rw [← hcode] at hheader
  rw [Progress.readLine_of_ne_awaiting (by simp [hphase])] at hread
  rw [← hname]
  rcases readRounds_of_header hphase hheader hread with hbody | rfl
  · have hopened : (p.openBody (Opening.below above l.number header.name)).Owes file l.number
        (Opening.below above l.number header.name) := Or.inl rfl
    exact owes_invariant.readRounds (Nat.le_refl _) hopened hbody
  · exact Or.inl rfl

/-! ## Scripts that are not refused -/

/-- What is owed at the end of a script has been found. -/
theorem Progress.Owes.exists_found (h : p.Owes file n o) (hphase : p.phase = .outside) :
    ∃ d ∈ p.found, d.start = o.start ∧ d.name = o.name ∧ n ≤ d.stop := by
  rcases h with hopen | ⟨stop, hstop, hmem⟩
  · rw [p.opening?_of_outside hphase] at hopen
    cases hopen
  · exact ⟨o.close file stop, hmem, rfl, rfl, hstop⟩

/-- What has been read above a line of a script that is not refused, and what is read from it on. -/
theorem exists_progress_at {text : String} (hread : Progress.start.readLines file [] (scan text) = .ok p)
    (hl : l ∈ scan text) : ∃ (above below : List Line) (q q' : Progress),
      q.Ordered file (l.number - 1) ∧ 0 < l.number ∧ q.readLine file above l = .ok q' ∧
      q'.readLines file (l :: above) below = .ok p ∧ ∀ l' ∈ below, l.number ≤ l'.number := by
  obtain ⟨raws, line, raws', hlines, rfl⟩ := Open.exists_line_of_mem_scan hl
  rw [scan_of_lines hlines, Progress.readLines_append] at hread
  split at hread
  · cases hread
  · next q hq =>
      rw [Nat.add_comm 1]
      have hstart : Progress.start.Reached file 0 [] :=
        ⟨Progress.ordered_start file, List.Pairwise.nil, by simp, Or.inl rfl⟩
      have hordered := hstart.readLines Open.nothing raws hq
      rw [Nat.zero_add] at hordered
      rw [Progress.readLines] at hread
      split at hread
      · cases hread
      · next q' hq' =>
          refine ⟨_, _, q, q', hordered, Nat.succ_pos _, hq', hread, fun l' hl' => ?_⟩
          have hle := Open.le_number_of_mem_scan hl'
          show raws.length + 1 ≤ l'.number
          omega

/-- **No definition is lost or invented.** A line that begins with a header is the first line of a
definition with that name, or it lies behind the first line of one and not behind the last; and what
is reported stands in the script, header and body, in this order. -/
theorem headers_of_extract {file text : String} {found : List Definition}
    (h : extract file text = .ok found) :
    (∀ l ∈ scan text, ∀ name : FunctionName, BeginsHeader name l.code →
      (∃ d ∈ found, d.start = l.number ∧ d.name = String.ofList name.text) ∨
        ∃ d ∈ found, d.start < l.number ∧ l.number ≤ d.stop) ∧
    ∃ sites : List Site, found = (sites.map (Site.definition file)).reverse ∧
      Listed (scan text).reverse (maskedCode text) sites ∧
      ∀ t ∈ sites, (t.definition file).start = t.point.line.number ∧
        (t.definition file).name = String.ofList t.name.text := by
  constructor
  · obtain ⟨p, hread, hphase, rfl⟩ := exists_readLines_of_extract h
    intro l hl name hheader
    obtain ⟨above, below, q, q', hordered, hpos, hline, hrest, hbelow⟩ := exists_progress_at hread hl
    simp only [List.mem_reverse]
    rcases hq : q.phase with _ | o | ⟨o, outer⟩
    · have howes := owes_invariant.readLines hbelow (hheader.readLine_of_outside hq hline) hrest
      obtain ⟨d, hd, hstart, hname, -⟩ := howes.exists_found hphase
      exact Or.inl ⟨d, hd, hstart, hname⟩
    · rw [hheader.readLine_of_awaiting hq] at hline
      cases hline
    · have hopen : q.opening? = some o := by rw [Progress.opening?, hq]
      have howes : q.Owes file l.number o := Or.inl hopen
      have howes' := owes_invariant.readLine (Nat.le_refl _) howes hline
      obtain ⟨d, hd, hstart, -, hstop⟩ :=
        (owes_invariant.readLines hbelow howes' hrest).exists_found hphase
      have hle := (hordered.fits o hopen).start_le
      exact Or.inr ⟨d, hd, by omega, hstop⟩
  · obtain ⟨sites, hfound, hlisted⟩ := exists_sites_of_extract h
    refine ⟨sites, hfound, hlisted, fun t _ => ?_⟩
    exact ⟨t.toHeading.start_opening, t.toHeading.name_opening⟩

/-- A header in the body of a definition, one behind it, and one whose brace stands two lines below. -/
theorem headers_of_three_definitions :
    let text := "f() \x7b\nin() \x7b :; \x7d\n\x7d; g() \x7b :; \x7d\nfunction h\n# The body.\n\x7b :; \x7d\n"
    extract "a.sh" text = .ok [⟨"f", none, none, "a.sh", 1, 1, 3⟩, ⟨"g", none, none, "a.sh", 3, 3, 3⟩,
        ⟨"h", none, none, "a.sh", 4, 4, 6⟩] ∧
      ∃ sites : List Site, [⟨"f", none, none, "a.sh", 1, 1, 3⟩, ⟨"g", none, none, "a.sh", 3, 3, 3⟩,
        ⟨"h", none, none, "a.sh", 4, 4, 6⟩] = (sites.map (Site.definition "a.sh")).reverse ∧
      Listed (scan text).reverse (maskedCode text) sites := by
  intro text
  have hextract : extract "a.sh" text = .ok [⟨"f", none, none, "a.sh", 1, 1, 3⟩,
      ⟨"g", none, none, "a.sh", 3, 3, 3⟩, ⟨"h", none, none, "a.sh", 4, 4, 6⟩] := by decide +kernel
  obtain ⟨sites, hsites, hlisted, -⟩ := (headers_of_extract hextract).2
  exact ⟨hextract, sites, hsites, hlisted⟩

end

end ShellIndex.Definition
