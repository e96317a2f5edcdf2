import ShellIndex.Proofs.Definition.Expansions
import ShellIndex.Proofs.Definition.HeaderText

set_option autoImplicit false

/-! # The stages of a run

Reading a script goes from stage to stage: between two lines, at the start of a round, or where the
braces of a body are counted character by character (`Stage`). A step (`Step`) leads from one stage to
the next, and what the steps lead to from the start of the script is what can be reached (`Reaches`).

The reader and the steps say the same. What the reader has made of some lines is reached behind them
(`Reaches.readLines`), and from all that is reached the reader goes on to its result
(`Reaches.resume_eq`).
-/

namespace ShellIndex.Definition

open Text Source

/-! ## Stages -/

/-- The code of some lines, given nearest first. Each ends with a line feed. -/
def codeAbove : List Line → List Char
  | [] => []
  | l :: above => codeAbove above ++ (l.code ++ ['\n'])

/-- A place in a line. -/
structure Point where
  /-- The lines above, nearest first. -/
  above : List Line
  /-- The line. -/
  line : Line
  /-- The code of the line before the place. -/
  front : List Char
  /-- The code of the line from there on. -/
  onward : List Char

namespace Point

/-- The code of the script before a place. -/
def before (pt : Point) : List Char := codeAbove pt.above ++ pt.front

/-- The lines up to a place, nearest first. -/
def lines (pt : Point) : List Line := pt.line :: pt.above

/-- The place behind some code that is read. -/
def moved (pt : Point) (read onward : List Char) : Point :=
  { pt with front := pt.front ++ read, onward }

/-- The opening for a header at a place: at the start of a line it takes the comment above. -/
def opening (pt : Point) (name : List Char) : Opening :=
  if pt.front = [] then .below pt.above pt.line.number name else .bare pt.line.number name

end Point

/-- Where the reader of a script is. -/
inductive Stage where
  /-- Between two lines; those above are given nearest first. -/
  | between (above : List Line)
  /-- At the start of a round. -/
  | round (pt : Point)
  /-- Counting braces. -/
  | counting (pt : Point)

namespace Stage

/-- The lines up to a stage, nearest first. -/
def lines : Stage → List Line
  | between above => above
  | round pt => pt.lines
  | counting pt => pt.lines

/-- The code of the script before a stage. -/
def text : Stage → List Char
  | between above => codeAbove above
  | round pt => pt.before
  | counting pt => pt.before

end Stage

/-- One step of the reader. -/
inductive Step (file : String) : Stage → Progress → Stage → Progress → Prop
  /-- A line is entered. -/
  | line {above : List Line} {p : Progress} (l : Line) (hphase : ∀ o, p.phase ≠ .awaiting o) :
      Step file (.between above) p (.round ⟨above, l, [], l.code⟩) p
  /-- A blank line stands before the brace of a body. -/
  | skip {above : List Line} {p : Progress} {o : Opening} (l : Line)
      (hphase : p.phase = .awaiting o) (hblank : allBlank l.code = true) :
      Step file (.between above) p (.between (l :: above)) p
  /-- The brace that was awaited opens the body. -/
  | brace {above : List Line} {p : Progress} {o : Opening} {blanks onward : List Char} (l : Line)
      (hphase : p.phase = .awaiting o) (hblank : allBlank blanks = true)
      (hcode : l.code = blanks ++ '{' :: onward) :
      Step file (.between above) p (.round ⟨above, l, blanks ++ ['{'], onward⟩) (p.openBody o)
  /-- No header is read. -/
  | text {pt : Point} {p : Progress}
      (hcode : p.phase = .outside → Header.read? pt.onward = none) :
      Step file (.round pt) p (.counting pt) p
  /-- A header is read with the brace of its body. -/
  | header {pt : Point} {p : Progress} {header : Header} {read : List Char}
      (hphase : p.phase = .outside) (hread : Header.read? pt.onward = some header)
      (hopens : header.opensBody = true) (hsplit : pt.onward = read ++ header.rest) :
      Step file (.round pt) p (.counting (pt.moved read header.rest))
        (p.openBody (pt.opening header.name))
  /-- A header is read without the brace of its body. -/
  | await {pt : Point} {p : Progress} {header : Header}
      (hphase : p.phase = .outside) (hread : Header.read? pt.onward = some header)
      (hopens : header.opensBody = false) (hblank : allBlank header.rest = true) :
      Step file (.round pt) p (.between pt.lines)
        { p with phase := .awaiting (pt.opening header.name) }
  /-- A character is counted. -/
  | count {pt : Point} {p : Progress} {c : Char} {onward : List Char}
      (hcode : pt.onward = c :: onward) (hstays : p.braces.closesBody p.outer? c = false) :
      Step file (.counting pt) p (.counting (pt.moved [c] onward))
        { p with braces := p.braces.step (afterDollar pt.front) c }
  /-- A character closes the body, and the separators behind it are passed over. -/
  | close {pt : Point} {p : Progress} {c : Char} {separators onward : List Char}
      (hcode : pt.onward = c :: (separators ++ onward))
      (hcloses : p.braces.closesBody p.outer? c = true)
      (hskip : skipSeparators (separators ++ onward) = onward) :
      Step file (.counting pt) p (.round (pt.moved (c :: separators) onward))
        { p.closeBody file pt.line.number with
          braces := p.braces.step (afterDollar pt.front) c }
  /-- The line ends. -/
  | lineEnd {pt : Point} {p : Progress} (hcode : pt.onward = []) :
      Step file (.counting pt) p (.between pt.lines) p

/-- What the reader can come to at a stage. -/
inductive Reaches (file : String) : Stage → Progress → Prop
  | start : Reaches file (.between []) Progress.start
  | step {s s' : Stage} {p p' : Progress} (h : Reaches file s p) (hstep : Step file s p s' p') :
      Reaches file s' p'

section
variable {file : String} {s : Stage} {pt : Point} {p p' : Progress} {above : List Line} {l : Line}

/-! ## Points -/

theorem Point.before_moved (pt : Point) (read onward : List Char) :
    (pt.moved read onward).before = pt.before ++ read := by
  rw [before, before, List.append_assoc]
  rfl

theorem Point.opening_of_front_ne_nil (h : pt.front ≠ []) :
    pt.opening = Opening.bare pt.line.number := by
  funext name
  rw [opening, if_neg h]

theorem Point.moved_moved (pt : Point) (read read' onward onward' : List Char) :
    (pt.moved read onward).moved read' onward' = pt.moved (read ++ read') onward' := by
  simp [moved]

theorem Point.moved_nil (pt : Point) : pt.moved [] pt.onward = pt := by
  rw [moved, List.append_nil]

theorem Point.moved_self (h : pt.onward = []) : pt = pt.moved [] [] := by
  obtain ⟨above, line, front, onward⟩ := pt
  obtain rfl : onward = [] := h
  simp [moved]

theorem exists_separators (code : List Char) :
    ∃ separators, code = separators ++ skipSeparators code :=
  ⟨_, List.takeWhile_append_dropWhile.symm⟩

/-- What is passed over behind a closing brace is separators. -/
theorem isSeparator_of_skipSeparators {separators onward : List Char}
    (h : skipSeparators (separators ++ onward) = onward) :
    ∀ c ∈ separators, (isBlank c || c == ';' || c == '&') = true := by
  have hsplit : (separators ++ onward).takeWhile (fun c => isBlank c || c == ';' || c == '&') ++
      onward = separators ++ onward := by
    conv => lhs; rhs; rw [← h]
    exact List.takeWhile_append_dropWhile
  have hrun := List.append_cancel_right hsplit
  intro c hc
  rw [← hrun] at hc
  exact List.all_eq_true.mp List.all_takeWhile c hc

/-- No separator is a dollar sign. -/
theorem afterDollar_of_skipSeparators {front separators onward : List Char} {c : Char}
    (hc : c ≠ '$') (h : skipSeparators (separators ++ onward) = onward) :
    afterDollar (front ++ c :: separators) = false := by
  rw [afterDollar_eq_false_iff, List.getLast?_append, List.getLast?_cons]
  intro hlast
  cases hsep : separators.getLast? with
  | none =>
      rw [hsep] at hlast
      exact hc (Option.some.inj hlast)
  | some d =>
      rw [hsep] at hlast
      obtain rfl : d = '$' := Option.some.inj hlast
      have hdollar := isSeparator_of_skipSeparators h _ (List.mem_of_getLast? hsep)
      exact absurd hdollar (by decide)

/-! ## How a round starts -/

theorem Progress.enter_text {opening : List Char → Opening} {code rest : List Char}
    (h : p.enter opening code = .ok (.text p' rest)) :
    (p' = p ∧ rest = code ∧ (p.phase = .outside → Header.read? code = none)) ∨
      (p.phase = .outside ∧ ∃ header, Header.read? code = some header ∧ header.opensBody = true ∧
        p' = p.openBody (opening header.name) ∧ rest = header.rest) := by
  unfold enter at h
  split at h
  · next hphase =>
      split at h
      · next hnone =>
          obtain ⟨rfl, rfl⟩ := Entry.text.inj (Except.ok.inj h)
          exact Or.inl ⟨rfl, rfl, fun _ => hnone⟩
      · next header hread =>
          dsimp only at h
          split at h
          · next hopens =>
              obtain ⟨rfl, rfl⟩ := Entry.text.inj (Except.ok.inj h)
              exact Or.inr ⟨hphase, header, hread, hopens, rfl, rfl⟩
          · split at h
            · cases h
            · cases h
  · next hphase =>
      obtain ⟨rfl, rfl⟩ := Entry.text.inj (Except.ok.inj h)
      exact Or.inl ⟨rfl, rfl, fun e => absurd e hphase⟩

theorem Progress.enter_lineEnd {opening : List Char → Opening} {code : List Char}
    (h : p.enter opening code = .ok (.lineEnd p')) :
    p.phase = .outside ∧ ∃ header, Header.read? code = some header ∧ header.opensBody = false ∧
      allBlank header.rest = true ∧ p' = { p with phase := .awaiting (opening header.name) } := by
  unfold enter at h
  split at h
  · next hphase =>
      split at h
      · cases h
      · next header hread =>
          dsimp only at h
          split at h
          · cases h
          · next hopens =>
              split at h
              · next hblank =>
                  obtain rfl := Entry.lineEnd.inj (Except.ok.inj h)
                  exact ⟨hphase, header, hread, by simpa using hopens, hblank, rfl⟩
              · cases h
  · cases h

/-- What follows the brace of a header is the end of the text. -/
theorem Header.exists_append_rest {code : List Char} {header : Header}
    (h : read? code = some header) (hopens : header.opensBody = true) :
    ∃ read, code = read ++ '{' :: header.rest := by
  obtain ⟨name, blanks, text, gap, -, -, -, -, hsplit⟩ := exists_headerText h
  rw [hopens, if_pos rfl] at hsplit
  exact ⟨blanks ++ (text ++ gap), by rw [hsplit]; simp⟩

theorem afterDollar_header {code read front : List Char} {header : Header}
    (h : Header.read? code = some header) (hopens : header.opensBody = true)
    (hsplit : code = read ++ header.rest) : afterDollar (front ++ read) = false := by
  obtain ⟨text, hcode⟩ := Header.exists_append_rest h hopens
  have hread : read = text ++ ['{'] := by
    refine List.append_cancel_right (hsplit.symm.trans (hcode.trans ?_))
    rw [List.append_assoc]
    rfl
  rw [hread, ← List.append_assoc, afterDollar_append_singleton]
  rfl

/-! ## What the reader makes of some lines is reached -/

theorem closeBody_with_braces (p : Progress) (file : String) (stop : Nat) (b b' : Braces) :
    ({ ({ p with braces := b } : Progress).closeBody file stop with braces := b' } : Progress) =
      { p.closeBody file stop with braces := b' } := by
  obtain ⟨found, phase, braces⟩ := p
  cases phase <;> rfl

/-- Braces are counted up to the end of the line, or behind the brace that closes the body. -/
theorem Reaches.counted {code : List Char} {braces : Braces} {after : Option (List Char)}
    (h : Reaches file (.counting pt) p) (hcode : pt.onward = code)
    (hscan : p.braces.scan p.outer? (afterDollar pt.front) code = (braces, after)) :
    (after = none → Reaches file (.counting (pt.moved code [])) { p with braces }) ∧
      ∀ rest, after = some rest → ∃ read, read ≠ [] ∧ afterDollar (pt.front ++ read) = false ∧
        Reaches file (.round (pt.moved read (skipSeparators rest)))
          { p.closeBody file pt.line.number with braces } := by
  induction code generalizing pt p with
  | nil =>
      obtain ⟨rfl, rfl⟩ := Prod.mk.inj hscan
      rw [Point.moved_self hcode] at h
      exact ⟨fun _ => h, fun rest hrest => by cases hrest⟩
  | cons c code ih =>
      rw [Braces.scan] at hscan
      split at hscan
      · next hcloses =>
          obtain ⟨rfl, rfl⟩ := Prod.mk.inj hscan
          refine ⟨fun hnone => (by cases hnone), fun rest hrest => ?_⟩
          obtain rfl := Option.some.inj hrest
          have hclose : c ≠ '$' := by
            rintro rfl
            simp [Braces.closesBody] at hcloses
          obtain ⟨separators, hsplit⟩ := exists_separators code
          have hskip : skipSeparators (separators ++ skipSeparators code) = skipSeparators code := by
            rw [← hsplit]
          rw [hsplit] at hcode
          exact ⟨c :: separators, List.cons_ne_nil _ _, afterDollar_of_skipSeparators hclose hskip,
            h.step (.close hcode hcloses hskip)⟩
      · next hstays =>
          have hcounted := h.step (.count hcode (Bool.eq_false_iff.mpr hstays))
          have hflag : afterDollar (pt.moved [c] code).front = (c == '$') :=
            afterDollar_append_singleton pt.front c
          rw [← hflag] at hscan
          -- The steps counted behind the character are the ones from there on.
          obtain ⟨hend, hclosed⟩ := ih hcounted rfl hscan
          constructor
          · intro hnone
            have hrest := hend hnone
            rw [Point.moved_moved] at hrest
            exact hrest
          · intro rest hrest
            obtain ⟨read, hne, hdollar, hround⟩ := hclosed rest hrest
            rw [Point.moved, List.append_assoc] at hdollar
            rw [Point.moved_moved, closeBody_with_braces] at hround
            exact ⟨c :: read, List.cons_ne_nil c read, hdollar, hround⟩

/-- The text with which a round goes on is where braces are counted. -/
theorem Reaches.enter {opening : List Char → Opening} {code rest : List Char}
    (h : Reaches file (.round pt) p) (hdollar : afterDollar pt.front = false)
    (hopening : opening = pt.opening) (hcode : code = pt.onward)
    (hentry : p.enter opening code = .ok (.text p' rest)) :
    ∃ read, Reaches file (.counting (pt.moved read rest)) p' ∧
      afterDollar (pt.front ++ read) = false := by
  subst hopening hcode
  rcases Progress.enter_text hentry with ⟨rfl, rfl, hnone⟩ | ⟨hphase, header, hread, hopens, rfl, rfl⟩
  · exact ⟨[], by simpa [Point.moved] using h.step (.text hnone), by simpa using hdollar⟩
  · obtain ⟨read, hcode⟩ := Header.exists_append_rest hread hopens
    have hsplit : pt.onward = read ++ ['{'] ++ header.rest := by
      rw [hcode, List.append_assoc]
      rfl
    exact ⟨read ++ ['{'], h.step (.header hphase hread hopens hsplit),
      afterDollar_header hread hopens hsplit⟩

/-- What a line is read to is reached behind it. -/
theorem Reaches.readRounds {opening : List Char → Opening} {code : List Char} {number : Nat}
    (h : Reaches file (.round pt) p) (hdollar : afterDollar pt.front = false)
    (hnumber : number = pt.line.number) (hopening : opening = pt.opening) (hcode : code = pt.onward)
    (hread : p.readRounds file number opening code = .ok p') :
    Reaches file (.between pt.lines) p' := by
  fun_induction Progress.readRounds p file number opening code generalizing pt with
  | case1 p opening code fault hentry => cases hread
  | case2 p opening code q hentry =>
      obtain rfl := Except.ok.inj hread
      subst hopening hcode
      obtain ⟨hphase, header, hheader, hopens, hblank, rfl⟩ := Progress.enter_lineEnd hentry
      exact h.step (.await hphase hheader hopens hblank)
  | case3 p opening code q rest hentry braces hscan =>
      obtain rfl := Except.ok.inj hread
      obtain ⟨read, hcounting, hflag⟩ := h.enter hdollar hopening hcode hentry
      rw [← hflag] at hscan
      have hend := (hcounting.counted rfl hscan).1 rfl
      exact hend.step (.lineEnd rfl)
  | case4 p opening code q rest hentry braces after hscan ih =>
      obtain ⟨read, hcounting, hflag⟩ := h.enter hdollar hopening hcode hentry
      rw [← hflag] at hscan
      obtain ⟨read', hne, hdollar', hround⟩ := (hcounting.counted rfl hscan).2 after rfl
      have hround : Reaches file
          (.round ((pt.moved read rest).moved read' (skipSeparators after)))
          { q.closeBody file number with braces } := by
        rw [hnumber]
        exact hround
      have hfront : ((pt.moved read rest).moved read' (skipSeparators after)).front ≠ [] := by
        simp [Point.moved, hne]
      have hend := ih hround hdollar' hnumber (by rw [Point.opening_of_front_ne_nil hfront, hnumber]; rfl) rfl
        hread
      exact hend

theorem Reaches.readLine (h : Reaches file (.between above) p)
    (hread : p.readLine file above l = .ok p') : Reaches file (.between (l :: above)) p' := by
  unfold Progress.readLine at hread
  split at hread
  · next o hphase =>
      obtain ⟨blanks, hblank, hcode⟩ := exists_blank_append_trimStart l.code
      split at hread
      · next hempty =>
          obtain rfl := Except.ok.inj hread
          exact h.step (.skip l hphase (trimStart_eq_nil_iff.mp hempty))
      · next c rest hrest =>
          split at hread
          · next hc =>
              subst hc
              rw [hrest] at hcode
              have hround := h.step (.brace l hphase hblank hcode)
              refine hround.readRounds (afterDollar_append_singleton blanks '{') rfl ?_ rfl hread
              rw [Point.opening_of_front_ne_nil (by simp)]
          · cases hread
  · next hphase => exact (h.step (.line l hphase)).readRounds rfl rfl rfl rfl hread

/-- **What the reader makes of some lines is reached behind them.** -/
theorem Reaches.readLines {lines : List Line} (h : Reaches file (.between above) p)
    (hread : p.readLines file above lines = .ok p') :
    Reaches file (.between (lines.reverse ++ above)) p' := by
  induction lines generalizing p above with
  | nil =>
      obtain rfl := Except.ok.inj hread
      exact h
  | cons l lines ih =>
      rw [Progress.readLines] at hread
      split at hread
      · cases hread
      · next q hq =>
          rw [List.reverse_cons, List.append_assoc]
          exact ih (h.readLine hq) hread

/-! ## The rest of a line -/

/-- Counts braces in the rest of a line, and reads on behind the brace that closes the body. -/
def Progress.countOn (p : Progress) (file : String) (number : Nat) (dollar : Bool)
    (code : List Char) : Except Fault Progress :=
  match p.braces.scan p.outer? dollar code with
  | (braces, none) => .ok { p with braces }
  | (braces, some after) =>
      { p.closeBody file number with braces }.readRounds file number (Opening.bare number)
        (skipSeparators after)

namespace Progress
variable {opening : List Char → Opening} {code rest : List Char} {c : Char}

theorem readRounds_of_text (file : String) (number : Nat)
    (hentry : p.enter opening code = .ok (.text p' rest)) :
    p.readRounds file number opening code = p'.countOn file number false rest := by
  rw [readRounds_eq, hentry]
  rfl

theorem countOn_of_stays (hstays : p.braces.closesBody p.outer? c = false) (file : String)
    (number : Nat) (dollar : Bool) (code : List Char) :
    p.countOn file number dollar (c :: code) =
      { p with braces := p.braces.step dollar c }.countOn file number (c == '$') code := by
  rw [countOn, countOn, Braces.scan, if_neg (by simp [hstays])]
  show _ = match (p.braces.step dollar c).scan p.outer? (c == '$') code with
    | (braces, none) => _
    | (braces, some after) => _
  cases (p.braces.step dollar c).scan p.outer? (c == '$') code with
  | mk braces after =>
      cases after with
      | none => rfl
      | some after =>
          have hclosed := closeBody_with_braces p file number (p.braces.step dollar c) braces
          exact congrArg (fun q : Progress =>
            q.readRounds file number (Opening.bare number) (skipSeparators after)) hclosed.symm

theorem countOn_of_closes (hcloses : p.braces.closesBody p.outer? c = true) (file : String)
    (number : Nat) (dollar : Bool) (code : List Char) :
    p.countOn file number dollar (c :: code) =
      { p.closeBody file number with braces := p.braces.step dollar c }.readRounds file number
        (Opening.bare number) (skipSeparators code) := by
  rw [countOn, Braces.scan, if_pos hcloses]

theorem readLine_of_ne_awaiting (hphase : ∀ o, p.phase ≠ .awaiting o) (file : String)
    (above : List Line) (l : Line) : p.readLine file above l =
      p.readRounds file l.number (Opening.below above l.number) l.code := by
  unfold readLine
  split
  · next o ho => exact absurd ho (hphase o)
  · rfl

theorem readLine_of_brace {o : Opening} {blanks onward : List Char} (hphase : p.phase = .awaiting o)
    (hblank : allBlank blanks = true) (hcode : l.code = blanks ++ '{' :: onward) (file : String)
    (above : List Line) : p.readLine file above l =
      (p.openBody o).readRounds file l.number (Opening.bare l.number) onward := by
  rw [readLine, hphase, hcode]
  dsimp only
  rw [trimStart, List.dropWhile_append_of_pos (List.all_eq_true.mp hblank)]
  rfl

theorem enter_of_no_header (h : p.phase = .outside → Header.read? code = none)
    (opening : List Char → Opening) : p.enter opening code = .ok (.text p code) := by
  unfold enter
  split
  · next hphase => rw [h hphase]
  · rfl

theorem enter_of_header {header : Header} (hphase : p.phase = .outside)
    (hread : Header.read? code = some header) (hopens : header.opensBody = true)
    (opening : List Char → Opening) :
    p.enter opening code = .ok (.text (p.openBody (opening header.name)) header.rest) := by
  rw [enter, hphase, hread]
  dsimp only
  rw [if_pos hopens]

theorem enter_of_await {header : Header} (hphase : p.phase = .outside)
    (hread : Header.read? code = some header) (hopens : header.opensBody = false)
    (hblank : allBlank header.rest = true) (opening : List Char → Opening) :
    p.enter opening code = .ok (.lineEnd { p with phase := .awaiting (opening header.name) }) := by
  rw [enter, hphase, hread]
  dsimp only
  rw [if_neg (by simp [hopens]), if_pos hblank]

end Progress

/-! ## From what is reached the reader goes on -/

/-- Reads the lines below one that has been read. -/
def readBelow (file : String) (lines below : List Line) (number : Nat) :
    Except Fault Progress → Except ParseError Progress
  | .error fault => .error ⟨file, number, fault⟩
  | .ok p => p.readLines file lines below

/-- Reads on from a stage to the end of the script, whose lines below are given. -/
def Progress.resume (file : String) (below : List Line) (p : Progress) :
    Stage → Except ParseError Progress
  | .between above => p.readLines file above below
  | .round pt => readBelow file pt.lines below pt.line.number
      (p.readRounds file pt.line.number pt.opening pt.onward)
  | .counting pt => readBelow file pt.lines below pt.line.number
      (p.countOn file pt.line.number (afterDollar pt.front) pt.onward)

theorem readLines_eq_readBelow (p : Progress) (file : String) (above : List Line) (l : Line)
    (below : List Line) : p.readLines file above (l :: below) =
      readBelow file (l :: above) below l.number (p.readLine file above l) := by
  rw [Progress.readLines]
  cases p.readLine file above l <;> rfl

/-- Where a round starts the character before is no dollar sign. -/
theorem Reaches.afterDollar_round (h : Reaches file (.round pt) p) :
    afterDollar pt.front = false := by
  rcases h with _ | ⟨h, hstep⟩
  cases hstep with
  | line l hphase => rfl
  | brace l hphase hblank hcode => exact afterDollar_append_singleton _ '{'
  | close hcode hcloses hskip =>
      refine afterDollar_of_skipSeparators ?_ hskip
      rintro rfl
      simp [Braces.closesBody] at hcloses

/-- A round that starts goes on where braces are counted. -/
theorem Progress.resume_round {read rest : List Char}
    (hentry : p.enter pt.opening pt.onward = .ok (.text p' rest))
    (hdollar : afterDollar (pt.front ++ read) = false) (below : List Line) :
    p.resume file below (.round pt) = p'.resume file below (.counting (pt.moved read rest)) := by
  rw [resume, resume, readRounds_of_text file pt.line.number hentry]
  dsimp only [Point.moved, Point.lines]
  rw [hdollar]

/-- **A step leaves the rest of the run to be done.** -/
theorem Progress.resume_step {s' : Stage} (h : Reaches file s p) (hstep : Step file s p s' p') :
    ∃ read, s'.lines = read ++ s.lines ∧
      ∀ below, p.resume file (read.reverse ++ below) s = p'.resume file below s' := by
  cases hstep with
  | @line above p l hphase =>
      refine ⟨[l], rfl, fun below => ?_⟩
      have hread := readLine_of_ne_awaiting hphase file above l
      exact (readLines_eq_readBelow p file above l below).trans (congrArg _ hread)
  | @skip above p o l hphase hblank =>
      refine ⟨[l], rfl, fun below => ?_⟩
      have hread := p.readLine_of_allBlank file above hblank
      exact (readLines_eq_readBelow p file above l below).trans (congrArg _ hread)
  | @brace above p o blanks onward l hphase hblank hcode =>
      refine ⟨[l], rfl, fun below => ?_⟩
      have hread := readLine_of_brace hphase hblank hcode file above
      -- Behind the brace the line has begun, and a header takes no comment.
      have hopening : (⟨above, l, blanks ++ ['{'], onward⟩ : Point).opening = Opening.bare l.number :=
        Point.opening_of_front_ne_nil (by simp)
      show p.readLines file above (l :: below) =
        readBelow file (l :: above) below l.number ((p.openBody o).readRounds file l.number _ onward)
      rw [hopening, readLines_eq_readBelow, hread]
  | @text pt p hcode =>
      -- Nothing has been read in the round, so it starts behind no dollar sign.
      refine ⟨[], rfl, fun below => ?_⟩
      have hdollar : afterDollar (pt.front ++ []) = false := by
        rw [List.append_nil]
        exact h.afterDollar_round
      have hresume : p.resume file below (.round pt) = _ :=
        resume_round (enter_of_no_header hcode pt.opening) hdollar below
      rw [Point.moved_nil] at hresume
      exact hresume
  | @header pt p header read hphase hread hopens hsplit =>
      refine ⟨[], rfl, fun below => ?_⟩
      exact resume_round (enter_of_header hphase hread hopens pt.opening)
        (afterDollar_header hread hopens hsplit) below
  | @await pt p header hphase hread hopens hblank =>
      refine ⟨[], rfl, fun below => ?_⟩
      show readBelow file pt.lines below pt.line.number _ = _
      rw [readRounds_eq, enter_of_await hphase hread hopens hblank]
      rfl
  | @count pt p c onward hcode hstays =>
      refine ⟨[], rfl, fun below => ?_⟩
      have hflag : afterDollar (pt.moved [c] onward).front = (c == '$') :=
        afterDollar_append_singleton pt.front c
      show readBelow file pt.lines below pt.line.number (p.countOn file pt.line.number _ pt.onward) = _
      rw [hcode, countOn_of_stays hstays, resume, hflag]
      rfl
  | @close pt p c separators onward hcode hcloses hskip =>
      refine ⟨[], rfl, fun below => ?_⟩
      have hopening : (pt.moved (c :: separators) onward).opening = Opening.bare pt.line.number :=
        Point.opening_of_front_ne_nil (by simp [Point.moved])
      show readBelow file pt.lines below pt.line.number (p.countOn file pt.line.number _ pt.onward) = _
      rw [hcode, countOn_of_closes hcloses, hskip, resume, hopening]
      rfl
  | @lineEnd pt p hcode =>
      refine ⟨[], rfl, fun below => ?_⟩
      show readBelow file pt.lines below pt.line.number (p.countOn file pt.line.number _ pt.onward) = _
      rw [hcode]
      rfl

/-- **From all that is reached the reader goes on to its result.** -/
theorem Reaches.resume_eq (h : Reaches file s p) (below : List Line) :
    Progress.start.readLines file [] (s.lines.reverse ++ below) = p.resume file below s := by
  induction h generalizing below with
  | start => rfl
  | step h hstep ih =>
      obtain ⟨read, hlines, hresume⟩ := Progress.resume_step h hstep
      rw [← hresume below, ← ih, hlines, List.reverse_append, List.append_assoc]

end

end ShellIndex.Definition
