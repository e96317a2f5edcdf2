import ShellIndex.Proofs.Definition.Bodies
import ShellIndex.Proofs.Definition.ParameterExpansion

set_option autoImplicit false

/-! # Expansions in bodies

What the reader makes of a script up to a place in a body depends on nothing behind the place
(`Reaches.exchange`). So a parameter expansion that is put there changes the result only by what is
counted in it: one without braces of its own changes nothing, and any other one ends the body in its
line, unless a block or an expansion is open there (`expansions_in_bodies`).
-/

namespace ShellIndex.Definition

open Text Source

section
variable {file : String} {s s' : Stage} {pt : Point} {p p' : Progress} {above above' lines : List Line}
variable {l : Line} {code rest : List Char} {opening opening' : List Char → Opening} {number : Nat}

/-! ## Other text behind a place -/

/-- A header with the brace of its body is read alike, whatever follows the brace. -/
theorem Header.read?_exchange {header : Header} {read : List Char}
    (h : read? (read ++ header.rest) = some header) (hopens : header.opensBody = true)
    (onward : List Char) : read ≠ [] ∧ read? (read ++ onward) = some { header with rest := onward } := by
  obtain ⟨name, blanks, text, gap, hname, hblanks, hgap, htext, hsplit⟩ := exists_headerText h
  rw [hopens, if_pos rfl] at htext hsplit
  have hread : read = blanks ++ (text ++ (gap ++ ['{'])) := by
    refine List.append_cancel_right (hsplit.trans ?_)
    simp
  have htext' : HeaderText name text (gap ++ '{' :: onward) :=
    htext.of_head? (by cases gap <;> rfl)
  have hcode : read ++ onward = blanks ++ (text ++ (gap ++ '{' :: onward)) := by
    rw [hread]
    simp
  refine ⟨by simp [hread], ?_⟩
  rw [hcode, read?_brace hblanks hgap htext', ← hname, ← hopens]

/-- Text that starts with no separator is not passed over. -/
theorem skipSeparators_append {separators onward onward' : List Char}
    (h : skipSeparators (separators ++ onward) = onward) (hhead : onward'.head? = onward.head?) :
    skipSeparators (separators ++ onward') = onward' := by
  rw [skipSeparators, List.dropWhile_append_of_pos (isSeparator_of_skipSeparators h)]
  cases onward' with
  | nil => rfl
  | cons c onward' =>
      have hnot := List.head?_dropWhile_not (fun c => isBlank c || c == ';' || c == '&')
        (separators ++ onward)
      rw [skipSeparators] at h
      rw [h, ← hhead] at hnot
      exact List.dropWhile_cons_of_neg (by simpa using hnot)

/-- The same place in another line. -/
def Point.onto (pt : Point) (line : Line) (onward : List Char) : Point := { pt with line, onward }

/-- The stage is reached in every line that is the same up to there. Where a header may be looked for
the next character has to be the same, too. -/
def Exchanges (file : String) (p : Progress) : Stage → Prop
  | .between _ => True
  | .round pt => ∀ (line : Line) (onward : List Char), line.number = pt.line.number →
      line.code = pt.front ++ onward → (p.outer? = none → onward.head? = pt.onward.head?) →
      Reaches file (.round (pt.onto line onward)) p
  | .counting pt => p.outer? ≠ none → ∀ (line : Line) (onward : List Char),
      line.number = pt.line.number → line.code = pt.front ++ onward →
      Reaches file (.counting (pt.onto line onward)) p

theorem Point.opening_onto (pt : Point) {line : Line} (hnumber : line.number = pt.line.number)
    (onward : List Char) : (pt.onto line onward).opening = pt.opening := by
  funext name
  rw [opening, opening, onto, hnumber]

theorem Exchanges.step (h : Exchanges file p s) (hreach : Reaches file s p)
    (hstep : Step file s p s' p') : Exchanges file p' s' := by
  cases hstep with
  | @line above p l hphase =>
      -- Nothing has been read of the line.
      intro line onward hnumber hcode _
      have hstep : Step file (.between above) p (.round ⟨above, line, [], line.code⟩) p :=
        .line line hphase
      rw [hcode] at hstep
      exact hreach.step hstep
  | skip => trivial
  | @brace above p o blanks onward l hphase hblank hcode =>
      intro line onward hnumber hcode _
      exact hreach.step (.brace line hphase hblank (by rw [hcode]; simp))
  | @text pt p hcode =>
      -- In a body no header is looked for, so the next character may be any.
      intro hopen line onward hnumber hline
      have hround := h line onward hnumber hline fun hnone => absurd hnone hopen
      refine hround.step (.text fun hphase => ?_)
      rw [Progress.outer?, hphase] at hopen
      exact absurd rfl hopen
  | @header pt p header read hphase hread hopens hsplit =>
      -- The header with its brace has been read, and it starts with the same character.
      intro _ line onward hnumber hline
      rw [hsplit] at hread
      obtain ⟨hne, hread'⟩ := Header.read?_exchange hread hopens onward
      obtain ⟨c, read, rfl⟩ := List.exists_cons_of_ne_nil hne
      have hround := h line (c :: read ++ onward) hnumber (by rw [hline]; simp [Point.moved])
        fun _ => by rw [hsplit]; rfl
      have hnext := hround.step (.header hphase hread' hopens rfl)
      rw [pt.opening_onto hnumber] at hnext
      exact hnext
  | await => trivial
  | @count pt p c onward' hcode hstays =>
      intro hopen line onward hnumber hline
      have hcounting := h hopen line (c :: onward) hnumber (by rw [hline]; simp [Point.moved])
      exact hcounting.step (.count rfl hstays)
  | @close pt p c separators onward' hcode hcloses hskip =>
      -- Behind the body the same separators are passed over, since the next character is the same.
      intro line onward hnumber hline hhead
      have hopen : p.outer? ≠ none := by
        intro hnone
        rw [hnone] at hcloses
        simp [Braces.closesBody] at hcloses
      have hclosed : ({ p.closeBody file pt.line.number with
          braces := p.braces.step (afterDollar pt.front) c } : Progress).outer? = none := by
        obtain ⟨found, phase, braces⟩ := p
        cases phase <;> rfl
      have hcounting := h hopen line (c :: (separators ++ onward)) hnumber
        (by rw [hline]; simp [Point.moved])
      have hnext := hcounting.step (.close rfl hcloses (skipSeparators_append hskip (hhead hclosed)))
      rw [Point.onto, hnumber] at hnext
      exact hnext
  | lineEnd => trivial

/-- **What is reached in a body depends on nothing behind it**: every line that is the same up to
there comes to it as well. -/
theorem Reaches.exchange (h : Reaches file s p) : Exchanges file p s := by
  induction h with
  | start => trivial
  | step h hstep ih => exact ih.step h hstep

/-! ## The comment above a line -/

/-- A line with code is part of no comment. -/
theorem isDocLine_of_brace (h : '}' ∈ l.code) : isDocLine l = false := by
  have hblank : allBlank l.code = false := by
    rw [Bool.eq_false_iff]
    intro hall
    exact absurd (List.all_eq_true.mp hall _ h) (by decide)
  simp [isDocLine, Line.isComment, hblank]

/-- A body is closed by a brace. -/
theorem Braces.mem_of_scan {b b' : Braces} {outer : Option Nat} {dollar : Bool}
    (h : b.scan outer dollar code = (b', some rest)) : '}' ∈ code := by
  induction code generalizing b dollar with
  | nil => cases h
  | cons c code ih =>
      rw [scan] at h
      split at h
      · next hcloses =>
          simp only [closesBody, Bool.and_eq_true, beq_iff_eq] at hcloses
          rw [hcloses.1.1]
          exact List.mem_cons_self
      · exact List.mem_cons_of_mem c (ih h)

namespace Progress

theorem enter_of_inside (hopen : p.outer? ≠ none) (opening : List Char → Opening)
    (code : List Char) : p.enter opening code = .ok (.text p code) :=
  enter_of_no_header (fun hphase => by rw [outer?, hphase] at hopen; exact absurd rfl hopen) opening

/-- A body that is open before some code and not behind it is closed by a brace. -/
theorem mem_of_countOn {dollar : Bool} (hopen : p.outer? ≠ none)
    (hread : p.countOn file number dollar code = .ok p') (hclosed : p'.outer? = none) :
    '}' ∈ code := by
  cases hscan : p.braces.scan p.outer? dollar code with
  | mk braces after =>
      cases after with
      | some after => exact Braces.mem_of_scan hscan
      | none =>
          rw [countOn, hscan] at hread
          obtain rfl := Except.ok.inj hread
          exact absurd hclosed hopen

/-- What stands above a line matters for a header at its start. -/
theorem readLine_of_takeWhile (hblock : p.outer? = none →
    above.takeWhile isDocLine = above'.takeWhile isDocLine) (file : String) (l : Line) :
    p.readLine file above l = p.readLine file above' l := by
  cases hphase : p.phase with
  | awaiting o =>
      rw [readLine, readLine, hphase]
  | outside =>
      have hopening : Opening.below above l.number = Opening.below above' l.number := by
        funext name
        rw [Opening.below, Opening.below, blockAbove, blockAbove, hblock (by rw [outer?, hphase])]
      rw [readLine_of_ne_awaiting (by simp [hphase]), readLine_of_ne_awaiting (by simp [hphase]),
        hopening]
  | inside o outer =>
      have hopen : p.outer? ≠ none := by simp [outer?, hphase]
      rw [readLine_of_ne_awaiting (by simp [hphase]), readLine_of_ne_awaiting (by simp [hphase]),
        readRounds_of_text file _ (enter_of_inside hopen _ _),
        readRounds_of_text file _ (enter_of_inside hopen _ _)]

/-- In a body nothing above the line matters for the lines below. -/
theorem readLines_of_takeWhile (hblock : p.outer? = none →
    above.takeWhile isDocLine = above'.takeWhile isDocLine) :
    p.readLines file above lines = p.readLines file above' lines := by
  induction lines generalizing p above above' with
  | nil => rfl
  | cons l lines ih =>
      rw [readLines, readLines, readLine_of_takeWhile hblock file l]
      cases hread : p.readLine file above' l with
      | error fault => rfl
      | ok q =>
          refine ih fun hclosed => ?_
          by_cases hopen : p.outer? = none
          · rw [List.takeWhile_cons, List.takeWhile_cons, hblock hopen]
          · -- The line in which the body is closed is no comment.
            have hphase : ∀ o, p.phase ≠ .awaiting o := fun o ho => hopen (by rw [outer?, ho])
            rw [readLine_of_ne_awaiting hphase, readRounds_of_text file _ (enter_of_inside hopen _ _)]
              at hread
            have hdoc := isDocLine_of_brace (mem_of_countOn hopen hread hclosed)
            rw [List.takeWhile_cons_of_neg (by simp [hdoc]), List.takeWhile_cons_of_neg (by simp [hdoc])]

/-! ## What has been found stays found -/

theorem found_closeBody (p : Progress) (file : String) (stop : Nat) :
    p.found <:+ (p.closeBody file stop).found := by
  obtain ⟨found, phase, braces⟩ := p
  cases phase with
  | outside => exact List.suffix_refl _
  | awaiting o => exact List.suffix_refl _
  | inside o outer => exact List.suffix_cons _ _

theorem found_invariant (d : Definition) : Invariant file 0 fun p => d ∈ p.found where
  openBody _ _ _ hd := hd
  await _ _ _ hd := hd
  with_braces _ _ hd := hd
  closeBody p stop _ hd := (p.found_closeBody file stop).mem hd

end Progress

/-! ## Places in bodies -/

/-- The lines of a script up to a place that the reader `r` has come to. -/
def linesUpTo (p : Place) (r : Reader) : List Line :=
  Open.nothing.scan 1 p.above ++ [⟨p.above.length + 1, p.front, r.code.reverse, none⟩]

/-- The place is in the body of `o`, which was opened at depth `outer`; `b` are the braces that are
open there. -/
def InBody (file : String) (p : Place) (r : Reader) (o : Opening) (outer : Nat) (b : Braces) : Prop :=
  ∃ found, Progress.start.readLines file [] (linesUpTo p r) = .ok ⟨found, .inside o outer, b⟩

/-- At a place of `text` that the reader `r` has come to, `x` is inserted in `text'`: in code, not in
the middle of a mark, and not behind a dollar sign. -/
structure Inserted (x : List Char) (p : Place) (r : Reader) (text text' : String) : Prop where
  at_text : p.At text r
  at_text' : (p.insert x).At text' r
  seam : r.Seam p.onward
  no_dollar : r.code.head? ≠ some '$'

section
variable {place : Place} {r : Reader} {o : Opening} {outer : Nat} {b : Braces} {x : Expansion}
variable {text text' : String}

/-- Behind a line that leaves a body open braces are counted at its end. -/
theorem Reaches.counting_of_between (h : Reaches file (.between (l :: above)) p)
    (hopen : p.outer? ≠ none) : Reaches file (.counting ⟨above, l, l.code, []⟩) p := by
  generalize hs : Stage.between (l :: above) = s at h
  rcases h with _ | ⟨h, hstep⟩
  · cases hs
  · cases hstep with
    | skip l hphase hblank => exact absurd (by rw [Progress.outer?, hphase]) hopen
    | await hphase hread hopens hblank => exact absurd rfl hopen
    | @lineEnd pt p hcode =>
        obtain ⟨rfl, rfl⟩ := List.cons.inj (Stage.between.inj hs)
        obtain ⟨sites, hx⟩ := h.exists_sites
        have hsound : pt.line.code = pt.front ++ pt.onward := hx.sound
        rw [hcode, List.append_nil] at hsound
        rw [hsound, ← hcode]
        exact h
    | _ => cases hs

/-- **From a place in a body braces are counted**, whatever the line goes on with. -/
theorem InBody.readLines (h : InBody file place r o outer b) :
    ∃ found, ∀ (raw shown : List Char) (comment : Option (List Char)) (below : List Line),
      Progress.start.readLines file [] (Open.nothing.scan 1 place.above ++
          ⟨place.above.length + 1, raw, r.code.reverse ++ shown, comment⟩ :: below) =
        readBelow file (⟨place.above.length + 1, raw, r.code.reverse ++ shown, comment⟩ ::
            (Open.nothing.scan 1 place.above).reverse) below (place.above.length + 1)
          ((⟨found, .inside o outer, b⟩ : Progress).countOn file (place.above.length + 1)
            (afterDollar r.code.reverse) shown) := by
  obtain ⟨found, hread⟩ := h
  refine ⟨found, fun raw shown comment below => ?_⟩
  have hlines : (linesUpTo place r).reverse ++ [] =
      ⟨place.above.length + 1, place.front, r.code.reverse, none⟩ ::
        (Open.nothing.scan 1 place.above).reverse := by simp [linesUpTo]
  have hreached := Reaches.readLines .start hread
  rw [hlines] at hreached
  have hcounting := (hreached.counting_of_between nofun).exchange nofun
    ⟨place.above.length + 1, raw, r.code.reverse ++ shown, comment⟩ shown rfl rfl
  have hresume := hcounting.resume_eq below
  simp only [Stage.lines, Point.lines, Point.onto, List.reverse_cons, List.reverse_reverse,
    List.append_assoc, List.singleton_append] at hresume
  exact hresume

/-- What stands in the line in which a body is closed is part of no comment. -/
theorem readBelow_of_brace {q : Except Fault Progress} {l' : Line}
    (hclosed : ∀ p, q = .ok p → p.outer? = none → '}' ∈ l.code ∧ '}' ∈ l'.code) (below : List Line) :
    readBelow file (l :: above) below number q = readBelow file (l' :: above) below number q := by
  cases q with
  | error fault => rfl
  | ok p =>
      refine Progress.readLines_of_takeWhile fun hnone => ?_
      obtain ⟨hl, hl'⟩ := hclosed p rfl hnone
      rw [List.takeWhile_cons_of_neg (by simp [isDocLine_of_brace hl]),
        List.takeWhile_cons_of_neg (by simp [isDocLine_of_brace hl'])]

theorem mem_of_readBelow {q : Except Fault Progress} {below : List Line} {d : Definition}
    (h : readBelow file lines below number q = .ok p) (hd : ∀ p₀, q = .ok p₀ → d ∈ p₀.found) :
    d ∈ p.found := by
  cases q with
  | error fault => cases h
  | ok p₀ => exact (Progress.found_invariant d).readLines (fun l _ => Nat.zero_le _) (hd p₀ rfl) h

theorem Expansion.countOn_plain (hx : x.isPlain = true) (p : Progress) (file : String) (number : Nat)
    (code : List Char) :
    p.countOn file number false (x.text ++ code) = p.countOn file number false code := by
  rw [Progress.countOn, Progress.countOn, x.scan_plain hx]

/-- Behind an expansion with braces of its own the definition has been found. -/
theorem Expansion.mem_of_countOn {found : List Definition} {dollar : Bool} (hx : x.isPlain = false)
    (h : (⟨found, .inside o outer, ⟨outer + 1, 0⟩⟩ : Progress).countOn file number dollar
      (x.text ++ code) = .ok p) : o.close file number ∈ p.found := by
  obtain ⟨braces, rest, hclose⟩ := x.closes hx outer dollar code
  rw [Progress.countOn, Progress.outer?, hclose] at h
  exact (Progress.found_invariant _).readRounds (Nat.zero_le _) List.mem_cons_self h

/-- Scripts that are read alike and have as many lines have the same definitions. -/
theorem extract_of_readLines
    (hread : Progress.start.readLines file [] (scan text') = Progress.start.readLines file [] (scan text))
    (hlength : (Text.lines text'.toList).length = (Text.lines text.toList).length) :
    extract file text' = extract file text := by
  rw [extract, ofLines, extract, ofLines, hread, lastNumber_scan, lastNumber_scan, hlength]

/-- **Expansions in bodies.** An expansion without braces of its own that is inserted into a body
changes nothing of what is found in the script. Any other one ends the body in its line, unless a
block or another expansion is open there. -/
theorem expansions_in_bodies (file : String) (x : Expansion) {place : Place} {r : Reader} {o : Opening}
    {outer : Nat} {b : Braces} {text text' : String} (hx : Inserted x.text place r text text')
    (hbody : InBody file place r o outer b) :
    (x.isPlain = true → extract file text' = extract file text) ∧
      (x.isPlain = false → b = ⟨outer + 1, 0⟩ → ∀ found, extract file text' = .ok found →
        o.close file (place.above.length + 1) ∈ found) := by
  obtain ⟨shown, comment, below, hscan, hscan'⟩ :=
    hx.at_text.scan_insert hx.at_text' (x.readsAsWritten r _ hx.seam.toCoding) hx.seam x.insertable
  obtain ⟨found₀, hcount⟩ := hbody.readLines
  have hflag : afterDollar r.code.reverse = false := by
    rw [afterDollar_eq_false_iff, List.getLast?_reverse]
    exact hx.no_dollar
  rw [hflag] at hcount
  have hopen : (⟨found₀, .inside o outer, b⟩ : Progress).outer? ≠ none := nofun
  constructor
  · intro hplain
    refine extract_of_readLines ?_ ?_
    · rw [hscan, hscan', hcount, hcount, x.countOn_plain hplain]
      refine readBelow_of_brace (fun p hp hclosed => ?_) below
      have hmem := Progress.mem_of_countOn hopen hp hclosed
      exact ⟨by simp [hmem], by simp [hmem]⟩
    · rw [hx.at_text.lines_eq, hx.at_text'.lines_eq]
      simp [Place.insert]
  · rintro hplain rfl found hextract
    obtain ⟨p, hread, -, rfl⟩ := exists_readLines_of_extract hextract
    rw [hscan', hcount] at hread
    exact List.mem_reverse.mpr (mem_of_readBelow hread fun p₀ => x.mem_of_countOn hplain)

/-- An expansion in a default value changes nothing, a pair of braces in it ends the body. -/
theorem expansions_in_bodies_two :
    let text := "f() \x7b\n  echo \n  more\n\x7d\ng() \x7b :; \x7d\n"
    let nested := "f() \x7b\n  echo $\x7b1:-$\x7bb\x7d c\x7d\n  more\n\x7d\ng() \x7b :; \x7d\n"
    let paired := "f() \x7b\n  echo $\x7b1:-\x7b\x7d\x7d\n  more\n\x7d\ng() \x7b :; \x7d\n"
    extract "a.sh" nested = extract "a.sh" text ∧
      ∀ found, extract "a.sh" paired = .ok found → ⟨"f", none, none, "a.sh", 1, 1, 2⟩ ∈ found := by
  intro text nested paired
  let place : Place :=
    ⟨["f() \x7b".toList], "  echo ".toList, [], ["  more".toList, ['\x7d'], "g() \x7b :; \x7d".toList]⟩
  let r : Reader := (Reader.start []).showing "  echo ".toList
  let head : ExpansionHead := ⟨"1:-".toList, by decide, by decide⟩
  let x : Expansion := ⟨head, .expansion ⟨['b'], by decide, by decide⟩ .nil
    (.char ' ' (by decide) (.char 'c' (by decide) .nil))⟩
  let y : Expansion := ⟨head, .group .nil .nil⟩
  have hseam : r.Seam place.onward := by
    refine ⟨⟨by decide, by decide⟩, nofun, by decide, by decide, ?_, nofun⟩
    exact fun _ _ _ _ => nofun
  have hbody : InBody "a.sh" place r ⟨"f", 1, 1, Doc.none⟩ 0 ⟨1, 0⟩ := ⟨[], by decide +kernel⟩
  have hx : Inserted x.text place r text nested :=
    ⟨by decide +kernel, by decide +kernel, hseam, by decide⟩
  have hy : Inserted y.text place r text paired :=
    ⟨by decide +kernel, by decide +kernel, hseam, by decide⟩
  exact ⟨(expansions_in_bodies "a.sh" x hx hbody).1 rfl,
    (expansions_in_bodies "a.sh" y hy hbody).2 rfl rfl⟩

/-- The braces of a default value that is a pair of braces end the body. -/
theorem body_cut_short :
    extract "a.sh" "f() \x7b\n  echo $\x7b1:-\x7b\x7d\x7d\n  more\n\x7d\ng() \x7b :; \x7d\n" =
        .ok [⟨"f", none, none, "a.sh", 1, 1, 2⟩, ⟨"g", none, none, "a.sh", 5, 5, 5⟩] ∧
      extract "a.sh" "f() \x7b\n  echo \n  more\n\x7d\ng() \x7b :; \x7d\n" =
        .ok [⟨"f", none, none, "a.sh", 1, 1, 4⟩, ⟨"g", none, none, "a.sh", 5, 5, 5⟩] := by
  decide +kernel

end

end

end ShellIndex.Definition
