import ShellIndex.Proofs.Definition.Sites
import ShellIndex.Proofs.Source.Columns

set_option autoImplicit false

/-! # Where a body ends

Whatever a script holds, a body ends with the first brace that closes as many block braces as have
been opened since its own, and a script without such a brace is refused (`body_ends_at_first_match`).
Neither the depth at which the body was opened nor any brace before the definition decides this, but
for the expansions that are still open there. There is one such brace for a header
(`Site.closing_unique`).
-/

namespace ShellIndex.Definition

open Text Source

/-- The code of a script. -/
def maskedCode (text : String) : List Char := codeAbove (scan text).reverse

section
variable {file : String} {b : Braces} {outer n : Nat} {body code : List Char} {p : Progress}
variable {o : Opening} {above below more : List Line} {s : Stage}

theorem codeAbove_append (below above : List Line) :
    codeAbove (below ++ above) = codeAbove above ++ codeAbove below := by
  induction below with
  | nil => rw [List.nil_append, codeAbove, List.append_nil]
  | cons l below ih => rw [List.cons_append, codeAbove, codeAbove, ih, List.append_assoc]

theorem codeAbove_reverse_cons (l : Line) (more : List Line) :
    codeAbove (l :: more).reverse = l.code ++ ('\n' :: codeAbove more.reverse) := by
  rw [List.reverse_cons, codeAbove_append, codeAbove, codeAbove]
  simp

/-! ## One end for each header -/

section
variable {lines : List Line} {sites sites' : List Site} {t u : Site} {pt pt' : Point}
variable {s' body' rest rest' : List Char}

theorem Point.In.length_before_lt (h : pt.In lines) (h' : pt'.In lines)
    (hlt : pt.above.length < pt'.above.length) : pt.before.length < pt'.before.length := by
  have habove : pt'.above <:+ lines := (List.suffix_cons pt'.line pt'.above).trans h'.suffix
  obtain ⟨between, hbetween⟩ := List.suffix_of_suffix_length_le h.suffix habove hlt
  show pt.before.length < (codeAbove pt'.above ++ pt'.front).length
  rw [← hbetween, codeAbove_append, text_lineEnd h.code_eq]
  simp only [List.length_append, List.length_singleton]
  omega

/-- A place is known by the code before it. -/
theorem Point.In.eq_of_before (h : pt.In lines) (h' : pt'.In lines)
    (hbefore : pt.before = pt'.before) : pt = pt' := by
  have hlength : pt.lines.length = pt'.lines.length := by
    rcases Nat.lt_trichotomy pt.above.length pt'.above.length with hlt | heq | hgt
    · exact absurd (congrArg List.length hbefore) (h.length_before_lt h' hlt).ne
    · exact congrArg (· + 1) heq
    · exact absurd (congrArg List.length hbefore) (h'.length_before_lt h hgt).ne'
  have hlines : pt.lines = pt'.lines :=
    (List.suffix_of_suffix_length_le h.suffix h'.suffix hlength.le).eq_of_length hlength
  obtain ⟨above, line, front, onward⟩ := pt
  obtain ⟨above', line', front', onward'⟩ := pt'
  obtain ⟨rfl, rfl⟩ := List.cons.inj hlines
  obtain rfl : front = front' := List.append_cancel_left hbefore
  obtain rfl : onward = onward' := List.append_cancel_left (h.code_eq.symm.trans h'.code_eq)
  rfl

theorem eq_of_append_brace {s : List Char} (hs : '{' ∉ s) (hs' : '{' ∉ s')
    (h : s ++ '{' :: rest = s' ++ '{' :: rest') : s = s' ∧ rest = rest' := by
  have hcut : ∀ u v : List Char, '{' ∉ u → (u ++ '{' :: v).takeWhile (· != '{') = u := by
    intro u v hu
    rw [(takeWhile_append_cons rfl u v).1, List.takeWhile_eq_self_iff]
    exact fun c hc => bne_iff_ne.mpr fun e => hu (e ▸ hc)
  obtain rfl : s = s' := by rw [← hcut s rest hs, h, hcut s' rest' hs']
  exact ⟨rfl, (List.cons.inj (List.append_cancel_left h)).2⟩

/-- A closed body that goes no further than one which no earlier brace closes is that one. -/
theorem eq_of_first_closed (hle : body ++ ['}'] <+: body' ++ ['}'])
    (hclosed : unmatched n (body ++ ['}']) = some 0)
    (hfirst : ∀ u, u <+: body' → unmatched n u ≠ some 0) : body = body' := by
  rcases List.prefix_concat_iff.mp hle with heq | hearlier
  · exact List.append_cancel_right heq
  · exact absurd hclosed (hfirst _ hearlier)

/-- Two bodies that start at one place of a text, each with no earlier brace that closes it, are one
body. -/
theorem eq_of_closed (htext : body ++ '}' :: rest = body' ++ '}' :: rest')
    (hclosed : unmatched n (body ++ ['}']) = some 0)
    (hclosed' : unmatched n (body' ++ ['}']) = some 0)
    (hfirst : ∀ u, u <+: body → unmatched n u ≠ some 0)
    (hfirst' : ∀ u, u <+: body' → unmatched n u ≠ some 0) : body = body' := by
  have hle : body ++ ['}'] <+: body ++ '}' :: rest := ⟨rest, by simp⟩
  have hle' : body' ++ ['}'] <+: body ++ '}' :: rest := ⟨rest', by rw [htext]; simp⟩
  rcases List.prefix_or_prefix_of_prefix hle hle' with hearlier | hlater
  · exact eq_of_first_closed hearlier hclosed hfirst'
  · exact (eq_of_first_closed hlater hclosed' hfirst).symm

/-- The brace that opens the body is the first one behind the header. -/
theorem Site.no_brace (hstands : t.Stands lines sites) (hcloses : t.Closes lines) :
    '{' ∉ t.text ++ t.gap := fun hmem =>
  (hstands.ne_brace_of_gap hcloses.gap_blank _ hmem).1 rfl

/-- The code of the script, taken apart at the braces of a body. -/
theorem Site.Closes.exists_rest (h : t.Closes lines) : ∃ rest, codeAbove lines =
    t.point.before ++ (t.text ++ t.gap ++ '{' :: (t.body ++ '}' :: rest)) := by
  obtain ⟨below, hlines⟩ := h.closing_in.suffix
  obtain ⟨onward, honward⟩ := List.head?_eq_some_iff.mp h.at_brace
  refine ⟨onward ++ '\n' :: codeAbove below, ?_⟩
  rw [← hlines, codeAbove_append, text_lineEnd h.closing_in.code_eq, honward, h.before_closing]
  simp

/-- **A body has one end**: if the headers of two definitions are read at one place, one brace closes
both. -/
theorem Site.closing_unique (ht : t.Stands lines sites) (hu : u.Stands lines sites')
    (htc : t.Closes lines) (huc : u.Closes lines) (hpoint : t.point = u.point) :
    t.closing = u.closing := by
  obtain ⟨rest, hrest⟩ := htc.exists_rest
  obtain ⟨rest', hrest'⟩ := huc.exists_rest
  have hsplit := hrest.symm.trans hrest'
  rw [hpoint] at hsplit
  obtain ⟨hopening, hbehind⟩ := eq_of_append_brace (Site.no_brace ht htc) (Site.no_brace hu huc)
    (List.append_cancel_left hsplit)
  have hexpansions : t.expansions = u.expansions := by
    rw [Heading.expansions, Heading.expansions, hpoint]
  have hclosed := huc.closed
  have hfirst := huc.first
  rw [← hexpansions] at hclosed hfirst
  have hbody : t.body = u.body := eq_of_closed hbehind htc.closed hclosed htc.first hfirst
  have hbefore : t.closing.before = u.closing.before := by
    calc t.closing.before
        = t.point.before ++ (t.text ++ t.gap ++ '{' :: t.body) := by
          rw [htc.before_closing, List.append_assoc]
      _ = u.point.before ++ (u.text ++ u.gap ++ '{' :: u.body) := by rw [hpoint, hopening, hbody]
      _ = u.closing.before := by rw [huc.before_closing, List.append_assoc]
  exact htc.closing_in.eq_of_before huc.closing_in hbefore

end

/-! ## Bodies that are not closed -/

/-- Text that closes no body is counted to its end. -/
theorem Braces.Tally.scan (h : b.Tally outer n body)
    (hopen : ∀ u, u <+: code → unmatched n (body ++ u) ≠ some 0) :
    ∃ b' : Braces, b.scan (some outer) (afterDollar body) code = (b', .none) ∧
      b'.Tally outer n (body ++ code) := by
  induction code generalizing b body with
  | nil => exact ⟨b, rfl, by rwa [List.append_nil]⟩
  | cons c code ih =>
      have hstays : b.closesBody (some outer) c = false := by
        rw [Bool.eq_false_iff, ne_eq, h.closesBody_iff]
        exact hopen [c] ⟨code, rfl⟩
      have hrest : ∀ u, u <+: code → unmatched n (body ++ [c] ++ u) ≠ some 0 := by
        intro u hu
        rw [List.append_assoc]
        exact hopen (c :: u) (List.cons_prefix_cons.mpr ⟨rfl, hu⟩)
      obtain ⟨b', hscan, htally⟩ := ih (h.step hstays) hrest
      refine ⟨b', ?_, ?_⟩
      · rw [Braces.scan, if_neg (by simp [hstays]), ← afterDollar_append_singleton body c]
        exact hscan
      · rw [List.append_cons]
        exact htally

/-- The line feed at the end of a line closes nothing. -/
theorem Braces.Tally.lineFeed (h : b.Tally outer n body) : b.Tally outer n (body ++ ['\n']) := by
  have hstep := h.step (c := '\n') (by simp [closesBody])
  exact hstep

theorem not_closed_line {rest : List Char}
    (hopen : ∀ u, u <+: code ++ rest → unmatched n (body ++ u) ≠ some 0) :
    ∀ u, u <+: code → unmatched n (body ++ u) ≠ some 0 := fun u hu =>
  hopen u (hu.trans (List.prefix_append _ _))

theorem not_closed_below {rest : List Char}
    (hopen : ∀ u, u <+: code ++ '\n' :: rest → unmatched n (body ++ u) ≠ some 0) :
    ∀ u, u <+: rest → unmatched n (body ++ code ++ ['\n'] ++ u) ≠ some 0 := by
  intro u hu
  have hmore : code ++ '\n' :: u <+: code ++ '\n' :: rest :=
    (List.prefix_append_right_inj _).mpr (List.cons_prefix_cons.mpr ⟨rfl, hu⟩)
  have hnot := hopen _ hmore
  rw [List.append_assoc, List.append_assoc]
  exact hnot

/-- In a body that is not closed in a line the line is read to its end. -/
theorem readRounds_of_not_closed (hphase : p.phase = .inside o outer)
    (htally : p.braces.Tally outer n body) (hflag : afterDollar body = false)
    (hopen : ∀ u, u <+: code → unmatched n (body ++ u) ≠ some 0) (number : Nat)
    (opening : List Char → Opening) :
    ∃ b : Braces, p.readRounds file number opening code = .ok { p with braces := b } ∧
      b.Tally outer n (body ++ code) := by
  obtain ⟨b, hscan, hb⟩ := htally.scan hopen
  have hentry : p.enter opening code = .ok (.text p code) := by rw [Progress.enter, hphase]
  have houter : p.outer? = some outer := by rw [Progress.outer?, hphase]
  rw [hflag, ← houter] at hscan
  exact ⟨b, Progress.readRounds_of_scan_none hentry hscan, hb⟩

/-- In a body that is not closed in some lines they are read to their end. -/
theorem readLines_of_not_closed (hphase : p.phase = .inside o outer)
    (htally : p.braces.Tally outer n body) (hflag : afterDollar body = false)
    (hopen : ∀ u, u <+: codeAbove more.reverse → unmatched n (body ++ u) ≠ some 0) :
    ∃ p', p.readLines file above more = .ok p' ∧ p'.phase = .inside o outer := by
  induction more generalizing p above body with
  | nil => exact ⟨p, rfl, hphase⟩
  | cons l more ih =>
      rw [codeAbove_reverse_cons] at hopen
      obtain ⟨b, hrounds, hb⟩ := readRounds_of_not_closed hphase htally hflag
        (not_closed_line hopen) l.number (Opening.below above l.number)
      have hread : p.readLine file above l = .ok { p with braces := b } := by
        rw [Progress.readLine_of_ne_awaiting (by simp [hphase])]
        exact hrounds
      rw [Progress.readLines, hread]
      exact ih hphase hb.lineFeed (afterDollar_append_singleton _ '\n')
        (not_closed_below hopen)

/-- In a body that is not closed in a line the lines below are read. -/
theorem readLines_of_line_end {b : Braces} (hphase : p.phase = .inside o outer)
    (htally : b.Tally outer n (body ++ code))
    (hopen : ∀ u, u <+: code ++ '\n' :: codeAbove more.reverse → unmatched n (body ++ u) ≠ some 0) :
    ∃ p', ({ p with braces := b } : Progress).readLines file above more = .ok p' ∧
      p'.phase = .inside o outer := by
  exact readLines_of_not_closed hphase htally.lineFeed (afterDollar_append_singleton _ '\n')
    (not_closed_below hopen)

/-! ## From a stage to the end of the script -/

/-- The code of the script from a stage on, whose lines below are given. -/
def Stage.onward (below : List Line) : Stage → List Char
  | between _ => codeAbove below.reverse
  | round pt => pt.onward ++ '\n' :: codeAbove below.reverse
  | counting pt => pt.onward ++ '\n' :: codeAbove below.reverse

theorem Stage.text_append_onward (hsound : s.Sound) (below : List Line) :
    s.text ++ s.onward below = codeAbove (below.reverse ++ s.lines) := by
  rw [codeAbove_append]
  cases s with
  | between above => rfl
  | round pt =>
      show pt.before ++ (pt.onward ++ '\n' :: _) = codeAbove pt.lines ++ _
      rw [text_lineEnd hsound]
      simp
  | counting pt =>
      show pt.before ++ (pt.onward ++ '\n' :: _) = codeAbove pt.lines ++ _
      rw [text_lineEnd hsound]
      simp

/-- From a stage in a body that is not closed any more the script is read to its end. -/
theorem Reaches.resume_of_not_closed (h : Reaches file s p) (hphase : p.phase = .inside o outer)
    (htally : p.braces.Tally outer n body) (hflag : afterDollar s.text = afterDollar body)
    (hopen : ∀ u, u <+: s.onward below → unmatched n (body ++ u) ≠ some 0) :
    ∃ p', p.resume file below s = .ok p' ∧ p'.phase = .inside o outer := by
  cases s with
  | between above =>
      exact readLines_of_not_closed hphase htally (hflag.symm.trans (afterDollar_codeAbove above))
        hopen
  | round pt =>
      have hround := h.afterDollar_round
      have hbody : afterDollar body = false := by
        rw [← hflag]
        exact (afterDollar_before pt).trans hround
      obtain ⟨b, hrounds, hb⟩ := readRounds_of_not_closed hphase htally hbody
        (not_closed_line hopen) pt.line.number pt.opening
      rw [Progress.resume, hrounds]
      exact readLines_of_line_end hphase hb hopen
  | counting pt =>
      obtain ⟨b, hscan, hb⟩ := htally.scan (not_closed_line hopen)
      have hpoint : afterDollar pt.front = afterDollar body :=
        (afterDollar_before pt).symm.trans hflag
      have houter : p.outer? = some outer := by rw [Progress.outer?, hphase]
      rw [Progress.resume, Progress.countOn, houter, hpoint, hscan]
      exact readLines_of_line_end hphase hb hopen

/-! ## Scripts -/

/-- The last line of a script is numbered as there are lines. -/
theorem lastNumber_scan (text : String) :
    ((scan text).getLast?.map Line.number).getD 0 = (lines text.toList).length := by
  rw [← List.getLast?_map, scan, Open.map_number_scan, List.getLast?_range']
  split
  · next hempty => rw [hempty]; rfl
  · next hne =>
      rw [Option.getD_some]
      omega

/-- A script whose open body is not closed any more is refused at its end. -/
theorem Reaches.extract_of_not_closed {text : String} {rest : List Char} (h : Reaches file s p)
    (hphase : p.phase = .inside o outer) (htally : p.braces.Tally outer n body)
    (hflag : afterDollar s.text = afterDollar body) (hlines : s.lines.reverse <+: scan text)
    (hrest : maskedCode text = s.text ++ rest)
    (hopen : ∀ u, u <+: rest → unmatched n (body ++ u) ≠ some 0) :
    extract file text =
      .error ⟨file, (lines text.toList).length, .unterminatedBody o.name o.start⟩ := by
  obtain ⟨below, hscan⟩ := hlines
  obtain ⟨sites, hx⟩ := h.exists_sites
  have hcode : maskedCode text = s.text ++ s.onward below := by
    rw [Stage.text_append_onward hx.sound, maskedCode, ← hscan, List.reverse_append,
      List.reverse_reverse]
  obtain rfl : rest = s.onward below := List.append_cancel_left (hrest.symm.trans hcode)
  obtain ⟨p', hresume, hphase'⟩ := h.resume_of_not_closed hphase htally hflag hopen
  have hread : Progress.start.readLines file [] (scan text) = .ok p' := by
    rw [← hscan, h.resume_eq below]
    exact hresume
  rw [extract, ofLines, hread, ← lastNumber_scan]
  dsimp only
  rw [Progress.finish, hphase']

/-- The definitions of a script stand at their sites. -/
theorem exists_sites_of_extract {file text : String} {found : List Definition}
    (h : extract file text = .ok found) :
    ∃ sites : List Site, found = (sites.map (Site.definition file)).reverse ∧
      Listed (scan text).reverse (maskedCode text) sites := by
  obtain ⟨p, hread, hphase, rfl⟩ := exists_readLines_of_extract h
  have hreached := Reaches.readLines .start hread
  rw [List.append_nil] at hreached
  obtain ⟨sites, hx⟩ := hreached.exists_sites
  have hx' := hx.phase
  rw [hphase] at hx'
  cases hx' with
  | outside hfree hsites => exact ⟨sites, by rw [hx.found_eq], hsites⟩

/-- **A body ends at its own brace.** In a body that is open the depth exceeds the one at which it was
opened by the number of its block braces that are open, its own included; if these are never all
closed, the script is refused. The body of a definition ends with the first brace that closes the last
of them, and no other brace is the end for its header. -/
theorem body_ends_at_first_match (file : String) :
    (∀ (s : Stage) (p : Progress) (o : Opening) (outer : Nat), Reaches file s p →
      p.phase = .inside o outer →
      ∃ (sites : List Site) (h : Heading) (gap body : List Char),
        p.found = sites.map (Site.definition file) ∧ Listed s.lines h.point.before sites ∧
        h.Stands s.lines sites ∧ o = h.opening ∧ allBlank gap = true ∧
        s.text = h.point.before ++ (h.text ++ (gap ++ '{' :: body)) ∧
        outer < p.braces.depth ∧ unmatched h.expansions body = some (p.braces.depth - outer) ∧
        ∀ (text : String) (rest : List Char), s.lines.reverse <+: scan text →
          maskedCode text = s.text ++ rest →
          (∀ u, u <+: rest → unmatched h.expansions (body ++ u) ≠ some 0) →
          extract file text =
            .error ⟨file, (lines text.toList).length, .unterminatedBody o.name o.start⟩) ∧
    ∀ (text : String) (found : List Definition), extract file text = .ok found →
      ∃ sites : List Site, found = (sites.map (Site.definition file)).reverse ∧
        Listed (scan text).reverse (maskedCode text) sites ∧
        ∀ t ∈ sites, (t.definition file).stop = t.closing.line.number ∧
          ∃ earlier, t :: earlier <:+ sites ∧ t.Stands (scan text).reverse earlier ∧
            t.Closes (scan text).reverse ∧ ∀ u : Site, u.point = t.point →
              u.Stands (scan text).reverse earlier → u.Closes (scan text).reverse →
                u.closing = t.closing := by
  refine ⟨fun s p o outer h hphase => ?_, fun text found h => ?_⟩
  · obtain ⟨sites, hx⟩ := h.exists_sites
    have hx' := hx.phase
    rw [hphase] at hx'
    cases hx' with
    | @inside _ _ heading gap body hstands hsites hgap htext htally =>
        refine ⟨sites, heading, gap, body, hx.found_eq, hsites, hstands, rfl, hgap, htext,
          htally.outer_lt, htally.unmatched_eq, fun text rest hlines hrest hopen => ?_⟩
        have hflag : afterDollar s.text = afterDollar body := by
          rw [htext, ← List.append_assoc, ← List.append_assoc, afterDollar_body]
        exact h.extract_of_not_closed hphase htally hflag hlines hrest hopen
  · obtain ⟨sites, hfound, hlisted⟩ := exists_sites_of_extract h
    refine ⟨sites, hfound, hlisted, fun t ht => ⟨rfl, ?_⟩⟩
    obtain ⟨earlier, hsuffix, hstands, hcloses⟩ := hlisted.of_mem t ht
    exact ⟨earlier, hsuffix, hstands, hcloses, fun u hpoint hu huc =>
      Site.closing_unique hu hstands huc hcloses hpoint⟩

/-- A brace without need and one that stays open stand before a definition with a group in its body,
and before one that is left open behind such a group. -/
theorem body_ends_behind_stray_braces :
    let closed := "\x7d\n\x7b\nf() \x7b\n\x7b :; \x7d\nmore\n\x7d\n"
    let unclosed := "\x7d\n\x7b\nf() \x7b\n\x7b :; \x7d\nmore\n"
    (extract "a.sh" closed = .ok [⟨"f", none, none, "a.sh", 3, 3, 6⟩] ∧ ∃ sites : List Site,
      [⟨"f", none, none, "a.sh", 3, 3, 6⟩] = (sites.map (Site.definition "a.sh")).reverse ∧
        Listed (scan closed).reverse (maskedCode closed) sites ∧
        ∀ t ∈ sites, ∃ earlier, t.Stands (scan closed).reverse earlier ∧
          t.Closes (scan closed).reverse) ∧
    extract "a.sh" unclosed = .error ⟨"a.sh", 5, .unterminatedBody "f" 3⟩ := by
  intro closed unclosed
  constructor
  · have hextract : extract "a.sh" closed = .ok [⟨"f", none, none, "a.sh", 3, 3, 6⟩] := by
      decide +kernel
    obtain ⟨sites, hfound, hlisted, hsites⟩ := (body_ends_at_first_match "a.sh").2 _ _ hextract
    refine ⟨hextract, sites, hfound, hlisted, fun t ht => ?_⟩
    obtain ⟨-, earlier, -, hstands, hcloses, -⟩ := hsites t ht
    exact ⟨earlier, hstands, hcloses⟩
  · have hread : Progress.start.readLines "a.sh" [] (scan unclosed) =
        .ok ⟨[], .inside ⟨"f", 3, 3, Doc.none⟩ 1, ⟨2, 0⟩⟩ := by decide +kernel
    have hreached := Reaches.readLines .start hread
    rw [List.append_nil] at hreached
    obtain ⟨sites, h, gap, body, -, -, -, -, -, -, -, hcount, hrefused⟩ :=
      (body_ends_at_first_match "a.sh").1 _ _ _ _ hreached rfl
    -- Nothing follows that could close the body.
    refine (hrefused unclosed [] ?_ (List.append_nil _).symm ?_).trans ?_
    · exact ⟨[], by simp [Stage.lines]⟩
    · intro u hu
      obtain rfl := List.prefix_nil.mp hu
      rw [List.append_nil, hcount]
      decide
    · decide +kernel

end

end ShellIndex.Definition
