import ShellIndex.Proofs.Definition.Recognition

set_option autoImplicit false

/-! # Where a malformed definition is reported

A script is refused in one of two ways. A line that puts something else in the place of the brace of a
body is refused as it is read: it is the first line that is refused so, and no line below it changes
anything (`readLines_eq_error_iff`). A definition that is left open is refused at the end of the
script: nothing was refused before, so that the definitions found stand at their sites, and the open
one stands behind all of them (`Heading.LastOpen`).

A definition is opened by a header only, which is why a script without headers is not refused.
-/

namespace ShellIndex.Definition

open Text Source

section
variable {file : String} {number : Nat} {p q : Progress} {opening : List Char → Opening}
variable {code : List Char} {above lines : List Line} {l : Line} {e : ParseError} {fault : Fault}

/-! ## Lines that are refused -/

theorem Progress.missingBrace_of_enter (h : p.enter opening code = .error fault) :
    ∃ name, fault = .missingBrace name := by
  unfold enter at h
  split at h
  · split at h
    · cases h
    · next header hheader =>
        dsimp only at h
        split at h
        · cases h
        · split at h
          · cases h
          · exact ⟨_, (Except.error.inj h).symm⟩
  · cases h

theorem Progress.missingBrace_of_readRounds
    (h : p.readRounds file number opening code = .error fault) :
    ∃ name, fault = .missingBrace name := by
  fun_induction Progress.readRounds p file number opening code with
  | case1 p opening code fault' hentry =>
      obtain rfl := Except.error.inj h
      exact missingBrace_of_enter hentry
  | case2 p opening code q hentry => cases h
  | case3 p opening code q rest hentry braces hscan => cases h
  | case4 p opening code q rest hentry braces after hscan ih => exact ih h

theorem Progress.missingBrace_of_readLine (h : p.readLine file above l = .error fault) :
    ∃ name, fault = .missingBrace name := by
  unfold readLine at h
  split at h
  · split at h
    · cases h
    · split at h
      · exact missingBrace_of_readRounds h
      · exact ⟨_, (Except.error.inj h).symm⟩
  · exact missingBrace_of_readRounds h

/-- A line without code is not refused. -/
theorem Progress.not_allBlank_of_readLine (h : p.readLine file above l = .error fault) :
    allBlank l.code = false := by
  rw [Bool.eq_false_iff]
  intro hblank
  rw [p.readLine_of_allBlank file above hblank] at h
  cases h

/-- Some lines are refused at the first of them that is refused behind those before it. -/
theorem Progress.readLines_eq_error_iff : p.readLines file above lines = .error e ↔
    ∃ done l more q fault, lines = done ++ l :: more ∧ p.readLines file above done = .ok q ∧
      q.readLine file (done.reverse ++ above) l = .error fault ∧ e = ⟨file, l.number, fault⟩ := by
  constructor
  · intro h
    induction lines generalizing p above with
    | nil => cases h
    | cons l lines ih =>
        rw [readLines] at h
        split at h
        · next fault hline => exact ⟨[], l, lines, p, fault, rfl, rfl, hline, (Except.error.inj h).symm⟩
        · next q hq =>
            obtain ⟨done, l', more, q', fault, rfl, hdone, hline, rfl⟩ := ih h
            refine ⟨l :: done, l', more, q', fault, rfl, ?_, ?_, rfl⟩
            · rw [readLines, hq]
              exact hdone
            · rw [List.reverse_cons, List.append_assoc]
              exact hline
  · rintro ⟨done, l, more, q, fault, rfl, hdone, hline, rfl⟩
    rw [readLines_append, hdone]
    dsimp only
    rw [readLines, hline]

/-- The lines above some that are read are read. -/
theorem Progress.exists_readLines_of_prefix {done : List Line}
    (h : p.readLines file above lines = .ok q) (hdone : done <+: lines) :
    ∃ q', p.readLines file above done = .ok q' := by
  obtain ⟨more, rfl⟩ := hdone
  rw [readLines_append] at h
  split at h
  · cases h
  · next q' hq => exact ⟨q', hq⟩

/-! ## Lines without headers -/

/-- What is read as a header is at the start of the text. -/
theorem Header.exists_beginsHeader {header : Header} (h : Header.read? code = some header) :
    ∃ name, BeginsHeader name code := by
  obtain ⟨name, blanks, text, gap, -, hblanks, -, htext, hcode⟩ := Header.exists_headerText h
  exact ⟨name, blanks, text, _, hblanks, htext, hcode⟩

/-- Outside of bodies a line without a header leads to no definition. -/
theorem Progress.readLine_of_no_header (hphase : p.phase = .outside)
    (hl : Header.read? l.code = none) (file : String) (above : List Line) :
    ∃ q, p.readLine file above l = .ok q ∧ q.phase = .outside := by
  have hentry := enter_of_no_header (fun _ : p.phase = .outside => hl)
    (Opening.below above l.number)
  have houter : p.outer? = none := by rw [outer?, hphase]
  have hscan : (p.braces.scan p.outer? false l.code).2 = none := by
    rw [houter]
    exact p.braces.scan_none false l.code
  rw [readLine_of_ne_awaiting (by simp [hphase])]
  exact ⟨_, readRounds_of_scan_none hentry (Prod.ext rfl hscan), hphase⟩

/-- **Lines without headers lead to no definition.** -/
theorem Progress.readLines_of_no_header (hphase : p.phase = .outside)
    (hlines : ∀ l ∈ lines, Header.read? l.code = none) (file : String) (above : List Line) :
    ∃ q, p.readLines file above lines = .ok q ∧ q.phase = .outside := by
  induction lines generalizing p above with
  | nil => exact ⟨p, rfl, hphase⟩
  | cons l lines ih =>
      have hl := hlines l List.mem_cons_self
      obtain ⟨q, hread, hq⟩ := p.readLine_of_no_header hphase hl file above
      rw [readLines, hread]
      exact ih hq (fun l' hl' => hlines l' (List.mem_cons_of_mem l hl')) (l :: above)

end

/-! ## The first lines of a script -/

theorem Open.take_scan (o : Open) (number n : Nat) (raws : List (List Char)) :
    (o.scan number raws).take n = o.scan number (raws.take n) := by
  induction raws generalizing o number n with
  | nil => rw [List.take_nil, Open.scan, List.take_nil]
  | cons raw raws ih =>
      cases n with
      | zero => rfl
      | succ n => rw [Open.scan, List.take_succ_cons, List.take_succ_cons, Open.scan, ih]

theorem take_scan (text : String) (n : Nat) :
    (scan text).take n = Open.nothing.scan 1 ((lines text.toList).take n) :=
  Open.take_scan Open.nothing 1 n _

theorem length_scan (text : String) : (scan text).length = (lines text.toList).length :=
  Open.length_scan Open.nothing 1 _

/-- A script of the first lines of another is scanned as they are. -/
theorem isPrefix_scan {text text' : String} (h : lines text'.toList <+: lines text.toList) :
    scan text' <+: scan text := by
  obtain ⟨more, hmore⟩ := h
  rw [scan, scan, ← hmore, Open.scan_append]
  exact List.prefix_append _ _

/-- A line of a script is numbered by the lines above it. -/
theorem number_of_scan_eq {text : String} {done more : List Line} {l : Line}
    (h : scan text = done ++ l :: more) : l.number = done.length + 1 := by
  have hnumbers : (scan text).map Line.number = List.range' 1 (lines text.toList).length :=
    Open.map_number_scan Open.nothing 1 _
  have hlength : done.length < (lines text.toList).length := by
    rw [← length_scan, h, List.length_append, List.length_cons]
    omega
  have hat := congrArg (fun numbers => numbers[done.length]?) hnumbers
  simp only [h, List.map_append, List.map_cons] at hat
  rw [List.getElem?_append_right (by simp), List.length_map, Nat.sub_self, List.getElem?_cons_zero,
    List.getElem?_range' hlength] at hat
  have hnumber := Option.some.inj hat
  omega

/-! ## Definitions that are left open -/

/-- The script with the code `code` ends before the body of the definition under a header does: the
brace of the body is missing, or the braces behind it are never all closed. The fault names the
definition and the line of its header. -/
inductive Heading.LeftOpen (h : Heading) (code : List Char) : Fault → Prop
  | missingBody {gap : List Char} (hgap : allBlank gap = true)
      (hcode : code = h.point.before ++ (h.text ++ gap)) :
      h.LeftOpen code (.missingBody (String.ofList h.name.text) h.point.line.number)
  | unterminatedBody {gap body : List Char} (hgap : allBlank gap = true)
      (hcode : code = h.point.before ++ (h.text ++ (gap ++ '{' :: body)))
      (hopen : ∀ u, u <+: body → unmatched h.expansions u ≠ some 0) :
      h.LeftOpen code (.unterminatedBody (String.ofList h.name.text) h.point.line.number)

/-- The last header of a script: those before it are the headers of definitions, all of which are
closed before it. A line that begins with a header is the line of one of these headers, or it lies in
the body of one of the definitions, or below the last header. -/
structure Heading.LastOpen (h : Heading) (text : String) (sites : List Site) : Prop where
  stands : h.Stands (scan text).reverse sites
  listed : Listed (scan text).reverse h.point.before sites
  no_other : ∀ l ∈ scan text, ∀ name : FunctionName, BeginsHeader name l.code →
    (∃ h' ∈ h :: sites.map Site.toHeading,
        h'.point.line.number = l.number ∧ h'.name.text = name.text) ∨
      (∃ t ∈ sites, t.point.line.number < l.number ∧ l.number ≤ t.closing.line.number) ∨
      h.point.line.number < l.number

section
variable {file text : String} {p : Progress} {l : Line} {name : FunctionName}

/-- A line that begins with a header opens a definition, or it lies behind the header of one that is
open. -/
theorem BeginsHeader.exists_owes (h : BeginsHeader name l.code) (hl : l ∈ scan text)
    (hread : Progress.start.readLines file [] (scan text) = .ok p) :
    (∃ o : Opening, o.start = l.number ∧ o.name = String.ofList name.text ∧
        p.Owes file l.number o) ∨
      ∃ o : Opening, o.start < l.number ∧ p.Owes file l.number o := by
  obtain ⟨above, below, q, q', hordered, hpos, hline, hrest, hbelow⟩ := exists_progress_at hread hl
  rcases hq : q.phase with _ | o | ⟨o, outer⟩
  · have howes := h.readLine_of_outside hq hline
    exact Or.inl ⟨_, rfl, rfl, owes_invariant.readLines hbelow howes hrest⟩
  · rw [h.readLine_of_awaiting hq] at hline
    cases hline
  · have hopen : q.opening? = some o := by rw [Progress.opening?, hq]
    have hle := (hordered.fits o hopen).start_le
    have howes := owes_invariant.readLine (Nat.le_refl _) (Or.inl hopen) hline
    exact Or.inr ⟨o, by omega, owes_invariant.readLines hbelow howes hrest⟩

/-- What is owed is the definition under the last header, or one that has been found. -/
theorem Progress.Owes.heading_or_site {h : Heading} {sites : List Site} {o : Opening} {n : Nat}
    (howes : p.Owes file n o) (hopen : p.opening? = some h.opening)
    (hfound : p.found = sites.map (Site.definition file)) :
    o = h.opening ∨ ∃ t ∈ sites, t.opening.start = o.start ∧ t.opening.name = o.name ∧
      n ≤ t.closing.line.number := by
  rcases howes with heq | ⟨stop, hstop, hmem⟩
  · rw [hopen] at heq
    exact Or.inl (Option.some.inj heq).symm
  · rw [hfound] at hmem
    obtain ⟨t, ht, hdefinition⟩ := List.mem_map.mp hmem
    have hclosing : t.closing.line.number = stop := congrArg Definition.stop hdefinition
    exact Or.inr ⟨t, ht, congrArg Definition.start hdefinition, congrArg Definition.name hdefinition,
      hclosing ▸ hstop⟩

/-- At the end of a script whose last definition is open no header is missed. -/
theorem Heading.lastOpen {h : Heading} {sites : List Site}
    (hread : Progress.start.readLines file [] (scan text) = .ok p)
    (hopen : p.opening? = some h.opening) (hfound : p.found = sites.map (Site.definition file))
    (hstands : h.Stands (scan text).reverse sites)
    (hlisted : Listed (scan text).reverse h.point.before sites) : h.LastOpen text sites := by
  refine ⟨hstands, hlisted, fun l hl name hheader => ?_⟩
  rcases hheader.exists_owes hl hread with ⟨o, hstart, hname, howes⟩ | ⟨o, hstart, howes⟩
  · refine Or.inl ?_
    rcases howes.heading_or_site hopen hfound with rfl | ⟨t, ht, hstart', hname', -⟩
    · rw [h.name_opening] at hname
      exact ⟨h, List.mem_cons_self, h.start_opening.symm.trans hstart, String.ofList_inj.mp hname⟩
    · rw [t.name_opening, hname] at hname'
      exact ⟨t.toHeading, List.mem_cons_of_mem h (List.mem_map_of_mem ht),
        t.start_opening.symm.trans (hstart'.trans hstart), String.ofList_inj.mp hname'⟩
  · rcases howes.heading_or_site hopen hfound with rfl | ⟨t, ht, hstart', -, hstop⟩
    · rw [h.start_opening] at hstart
      exact Or.inr (Or.inr hstart)
    · rw [← hstart', t.start_opening] at hstart
      exact Or.inr (Or.inl ⟨t, ht, hstart, hstop⟩)

/-- What is reported at the end of a script is its last definition, which is left open. -/
theorem exists_lastOpen {fault : Fault}
    (hread : Progress.start.readLines file [] (scan text) = .ok p)
    (hfinish : p.finish = .error fault) :
    ∃ (h : Heading) (sites : List Site), h.LastOpen text sites ∧ h.LeftOpen (maskedCode text) fault := by
  have hreached := Reaches.readLines .start hread
  rw [List.append_nil] at hreached
  obtain ⟨sites, hx⟩ := hreached.exists_sites
  have hx' := hx.phase
  obtain ⟨found, phase, b⟩ := p
  cases hx' with
  | outside hfree hsites => cases hfinish
  | @awaiting _ above h gap hbetween hstands hsites hgap htext =>
      obtain rfl := Except.error.inj hfinish
      rw [h.name_opening, h.start_opening]
      exact ⟨h, sites, Heading.lastOpen hread rfl hx.found_eq hstands hsites, .missingBody hgap htext⟩
  | @inside _ outer h gap body hstands hsites hgap htext htally =>
      obtain rfl := Except.error.inj hfinish
      rw [h.name_opening, h.start_opening]
      exact ⟨h, sites, Heading.lastOpen hread rfl hx.found_eq hstands hsites,
        .unterminatedBody hgap htext htally.not_closed⟩

/-! ## Scripts that are refused -/

/-- A script is refused at a line, or else at its end. -/
theorem extract_eq_error {e : ParseError} (h : extract file text = .error e) :
    Progress.start.readLines file [] (scan text) = .error e ∨
      ∃ p fault, Progress.start.readLines file [] (scan text) = .ok p ∧ p.finish = .error fault ∧
        e = ⟨file, (lines text.toList).length, fault⟩ := by
  rw [extract, ofLines] at h
  split at h
  · next e' hread =>
      obtain rfl := Except.error.inj h
      exact Or.inl hread
  · next p hread =>
      split at h
      · next fault hfinish =>
          rw [lastNumber_scan] at h
          exact Or.inr ⟨p, fault, hread, hfinish, (Except.error.inj h).symm⟩
      · cases h

theorem Progress.ne_missingBrace_of_finish {fault : Fault} (h : p.finish = .error fault)
    (name : String) : fault ≠ .missingBrace name := by
  unfold finish at h
  split at h
  · cases h
  all_goals
    rw [← Except.error.inj h]
    exact Fault.noConfusion

/-- An error at a line is the same whatever follows the line, and no fewer lines have it. -/
theorem error_of_readLines {e : ParseError}
    (h : Progress.start.readLines file [] (scan text) = .error e) :
    e.file = file ∧ (∃ name, e.fault = .missingBrace name) ∧
      (∃ l ∈ scan text, l.number = e.line ∧ allBlank l.code = false) ∧
      (∀ text' : String, lines text'.toList <+: lines text.toList →
        (lines text'.toList).length < e.line →
        ∀ e' name, extract file text' = .error e' → e'.fault ≠ .missingBrace name) ∧
      ∀ text' : String, (lines text'.toList).take e.line = (lines text.toList).take e.line →
        extract file text' = .error e := by
  obtain ⟨done, l, more, q, fault, hscan, hdone, hline, rfl⟩ := Progress.readLines_eq_error_iff.mp h
  have hnumber : l.number = done.length + 1 := number_of_scan_eq hscan
  have hcode := Progress.not_allBlank_of_readLine hline
  refine ⟨rfl, Progress.missingBrace_of_readLine hline, ⟨l, ?_, rfl, hcode⟩,
    fun text' hprefix hlength e' name herror => ?_, fun text' htake => ?_⟩
  · rw [hscan]
    exact List.mem_append_right _ List.mem_cons_self
  · -- The shorter script ends above the line, so that all of it is read.
    have habove : scan text' <+: done := by
      refine List.prefix_of_prefix_length_le (isPrefix_scan hprefix) ⟨l :: more, hscan.symm⟩ ?_
      rw [length_scan]
      have hlength : (lines text'.toList).length < l.number := hlength
      omega
    obtain ⟨q', hq'⟩ := Progress.exists_readLines_of_prefix hdone habove
    rcases extract_eq_error herror with hread | ⟨p, fault', -, hfinish, rfl⟩
    · rw [hq'] at hread
      cases hread
    · exact Progress.ne_missingBrace_of_finish hfinish name
  · have htake : (scan text').take (done.length + 1) = done ++ [l] := by
      have hfirst : (scan text).take (done.length + 1) = done ++ [l] := by
        rw [hscan, List.take_length_add_append, List.take_succ_cons, List.take_zero]
      rw [take_scan, ← hnumber, htake, ← take_scan, hnumber, hfirst]
    have hscan' : scan text' = done ++ l :: (scan text').drop (done.length + 1) := by
      conv => lhs; rw [← List.take_append_drop (done.length + 1) (scan text'), htake]
      rw [List.append_assoc]
      rfl
    have hread : Progress.start.readLines file [] (scan text') = .error ⟨file, l.number, fault⟩ :=
      Progress.readLines_eq_error_iff.mpr ⟨done, l, _, q, fault, hscan', hdone, hline, rfl⟩
    rw [extract, ofLines, hread]

/-- An error at the end of a script is about its last definition. -/
theorem error_of_finish {fault : Fault}
    (hread : Progress.start.readLines file [] (scan text) = .ok p)
    (hfinish : p.finish = .error fault) :
    1 ≤ (lines text.toList).length ∧
      ∃ (h : Heading) (sites : List Site), h.LastOpen text sites ∧
        h.LeftOpen (maskedCode text) fault := by
  obtain ⟨h, sites, hlast, hopen⟩ := exists_lastOpen hread hfinish
  have hlength := hlast.stands.point_in.suffix.length_le
  rw [List.length_reverse, length_scan, Point.lines, List.length_cons] at hlength
  exact ⟨by omega, h, sites, hlast, hopen⟩

/-- **Errors have their place, and nothing below it removes them.** A script is refused at one of its
lines. Either the line holds code in the place of the brace of a body: then no script of fewer of the
lines is refused for a missing brace, and every script that starts with the lines up to this one is
refused with the same error. Or it is the last line, and the error names the last definition of the
script, which is left open, with the line of its header. A script none of whose lines begins with a
header is not refused. -/
theorem extract_refuses_in_place (file text : String) :
    (∀ e, extract file text = .error e →
      e.file = file ∧ 1 ≤ e.line ∧ e.line ≤ (lines text.toList).length ∧
      (((∃ name, e.fault = .missingBrace name) ∧
          (∃ l ∈ scan text, l.number = e.line ∧ allBlank l.code = false) ∧
          (∀ text' : String, lines text'.toList <+: lines text.toList →
            (lines text'.toList).length < e.line →
            ∀ e' name, extract file text' = .error e' → e'.fault ≠ .missingBrace name) ∧
          ∀ text' : String, (lines text'.toList).take e.line = (lines text.toList).take e.line →
            extract file text' = .error e) ∨
        (e.line = (lines text.toList).length ∧ ∃ (h : Heading) (sites : List Site),
          h.LastOpen text sites ∧ h.LeftOpen (maskedCode text) e.fault))) ∧
    ((∀ l ∈ scan text, ∀ name : FunctionName, ¬ BeginsHeader name l.code) →
      ∃ found, extract file text = .ok found) := by
  refine ⟨fun e h => ?_, fun hnone => ?_⟩
  · rcases extract_eq_error h with hread | ⟨p, fault, hread, hfinish, rfl⟩
    · obtain ⟨hfile, hfault, ⟨l, hl, hnumber, hcode⟩, hfewer, hmore⟩ := error_of_readLines hread
      have hpos := Open.le_number_of_mem_scan hl
      have hle : l.number ≤ (lines text.toList).length := by
        obtain ⟨done, more, hscan⟩ := List.append_of_mem hl
        have hlength := congrArg List.length hscan
        rw [length_scan, List.length_append, List.length_cons] at hlength
        rw [number_of_scan_eq hscan]
        omega
      exact ⟨hfile, hnumber ▸ hpos, hnumber ▸ hle,
        Or.inl ⟨hfault, ⟨l, hl, hnumber, hcode⟩, hfewer, hmore⟩⟩
    · obtain ⟨hpos, hopen⟩ := error_of_finish hread hfinish
      exact ⟨rfl, hpos, Nat.le_refl _, Or.inr ⟨rfl, hopen⟩⟩
  · have hlines : ∀ l ∈ scan text, Header.read? l.code = none := by
      intro l hl
      rw [Option.eq_none_iff_forall_ne_some]
      intro header hheader
      obtain ⟨name, hbegins⟩ := Header.exists_beginsHeader hheader
      exact hnone l hl name hbegins
    have hstart : Progress.start.phase = .outside := rfl
    obtain ⟨q, hread, hphase⟩ := Progress.readLines_of_no_header hstart hlines file []
    refine ⟨q.found.reverse, ?_⟩
    rw [extract, ofLines, hread]
    dsimp only
    rw [Progress.finish, hphase]

/-- A word in the place of a brace, behind a definition and whatever follows; a body that is not
closed; and a script without definitions that holds a brace too many. -/
theorem extract_refuses_word_and_open_body :
    extract "a.sh" "f() \x7b :; \x7d\ng()\n\nword\n" = .error ⟨"a.sh", 4, .missingBrace "g"⟩ ∧
      extract "a.sh" "f() \x7b :; \x7d\ng()\n\nword\nh() \x7b\n" =
        .error ⟨"a.sh", 4, .missingBrace "g"⟩ ∧
      (∃ (h : Heading) (sites : List Site),
        h.LastOpen "f() \x7b :; \x7d\ng() \x7b\n:\n" sites ∧
          h.LeftOpen (maskedCode "f() \x7b :; \x7d\ng() \x7b\n:\n") (.unterminatedBody "g" 2)) ∧
      ∃ found, extract "a.sh" "echo\n\x7d\n" = .ok found := by
  have hword : extract "a.sh" "f() \x7b :; \x7d\ng()\n\nword\n" =
      .error ⟨"a.sh", 4, .missingBrace "g"⟩ := by decide +kernel
  have hopen : extract "a.sh" "f() \x7b :; \x7d\ng() \x7b\n:\n" =
      .error ⟨"a.sh", 3, .unterminatedBody "g" 2⟩ := by decide +kernel
  refine ⟨hword, ?_, ?_, ?_⟩
  · obtain ⟨-, -, -, ⟨-, -, -, hmore⟩ | ⟨-, h, sites, -, hleft⟩⟩ :=
      (extract_refuses_in_place _ _).1 _ hword
    · exact hmore _ (by decide +kernel)
    · cases hleft
  · obtain ⟨-, -, -, ⟨⟨name, hfault⟩, -⟩ | ⟨-, hlast⟩⟩ := (extract_refuses_in_place _ _).1 _ hopen
    · cases hfault
    · exact hlast
  · refine (extract_refuses_in_place _ _).2 ?_
    have hnone : ∀ l ∈ scan "echo\n\x7d\n", Header.read? l.code = none := by decide +kernel
    rintro l hl name ⟨blanks, text, rest, hblanks, htext, hcode⟩
    obtain ⟨header, hheader, -⟩ := Header.read?_of_headerText hblanks htext
    rw [← hcode, hnone l hl] at hheader
    cases hheader

end

end ShellIndex.Definition
