import ShellIndex.Proofs.Definition.Written
import ShellIndex.Proofs.Source.PlainLines

set_option autoImplicit false

/-! # Extraction undoes printing

Definitions that are written one below the other are extracted as they were to be recorded, with
the lines that they take up (`extract_textOf`). The proof follows the written lines: the comment,
the header, the body and the closing brace of one definition, and then one definition after
another. While the body is read, the invariant is that the depth exceeds the depth outside by one
more than the balance of the lines read so far.
-/

namespace ShellIndex.Definition

open Text Source

variable {p : Progress} {m : Nat}

/-! ## The comment -/

/-- The scanned lines of a comment, from line `m` on. -/
def commentLines (m : Nat) : List (List Char) → List Line
  | [] => []
  | text :: texts =>
      ⟨m, '#' :: ' ' :: text, (mask ('#' :: ' ' :: text)).reverse, some (' ' :: text)⟩ ::
        commentLines (m + 1) texts

/-- Comment lines are passed over. -/
theorem readLines_comment (file : String) (before : List Line) (texts raws : List (List Char)) :
    p.readLines file before
        (Open.nothing.scan m (texts.map ("# ".toList ++ ·) ++ raws)) =
      p.readLines file ((commentLines m texts).reverse ++ before)
        (Open.nothing.scan (m + texts.length) raws) := by
  induction texts generalizing before m with
  | nil => rfl
  | cons text texts ih =>
      have hline := p.readLine_of_allBlank file before
        (l := ⟨m, '#' :: ' ' :: text, (mask ('#' :: ' ' :: text)).reverse, some (' ' :: text)⟩)
        (allBlank_mask _)
      have hstep := Progress.readLines_scan_cons (read_comment (' ' :: text)) hline
        (texts.map ("# ".toList ++ ·) ++ raws)
      rw [List.map_cons, List.cons_append]
      refine hstep.trans ?_
      rw [ih, commentLines, List.reverse_cons, List.append_assoc, List.length_cons]
      congr 2
      omega

theorem isDocLine_commentLines (hm : 1 < m) (texts : List (List Char)) :
    ∀ l ∈ commentLines m texts, isDocLine l = true := by
  induction texts generalizing m with
  | nil => simp [commentLines]
  | cons text texts ih =>
      intro l hl
      rcases List.mem_cons.mp hl with rfl | hl
      · have hne : m ≠ 1 := by omega
        have hnumber : (m == 1) = false := by simpa using hne
        simp [isDocLine, Line.isComment, Line.isShebang, allBlank_mask, hnumber]
      · exact ih (by omega) l hl

theorem number_head?_commentLines (texts : List (List Char)) :
    ((commentLines m texts).head?.map Line.number).getD (m + texts.length) = m := by
  cases texts <;> rfl

theorem filterMap_commentLines {texts : List (List Char)} (h : ∀ text ∈ texts, Trimmed text) :
    (commentLines m texts).filterMap Line.commentText = texts := by
  induction texts generalizing m with
  | nil => rfl
  | cons text texts ih =>
      have htext : Line.commentText ⟨m, '#' :: ' ' :: text, (mask ('#' :: ' ' :: text)).reverse,
          some (' ' :: text)⟩ = some text := congrArg some (h text (by simp)).trimEnd_eq
      rw [commentLines, List.filterMap_cons_some htext,
        ih fun t ht => h t (List.mem_cons_of_mem text ht)]

/-- The opening of the definition that is written behind `n` lines. -/
def Written.opening (w : Written) (n : Nat) : Opening :=
  ⟨String.ofList w.name.text, n + 2 + w.commentTexts.length, n + 2, w.doc⟩

/-- The blank line above the comment ends it. -/
theorem below_commentLines (w : Written) (n : Nat) (before : List Line) :
    Opening.below ((commentLines (n + 2) w.commentTexts).reverse ++ ⟨n + 1, [], [], none⟩ :: before)
      (n + 2 + w.commentTexts.length) w.name.text = w.opening n := by
  have hblock : blockAbove ((commentLines (n + 2) w.commentTexts).reverse ++
      ⟨n + 1, [], [], none⟩ :: before) = commentLines (n + 2) w.commentTexts := by
    have hdoc : ∀ l ∈ (commentLines (n + 2) w.commentTexts).reverse, isDocLine l = true :=
      fun l hl => isDocLine_commentLines (by omega) w.commentTexts l (List.mem_reverse.mp hl)
    have hstop : isDocLine (⟨n + 1, [], [], none⟩ : Line) = false := rfl
    rw [blockAbove, List.takeWhile_append_of_pos hdoc, List.takeWhile_cons,
      if_neg (by simp [hstop]), List.append_nil, List.reverse_reverse]
  rw [Opening.below, hblock, number_head?_commentLines, Doc.ofLines,
    filterMap_commentLines fun _ ht => (w.of_mem_commentTexts ht).1, Doc.ofTexts_commentTexts]
  rfl

/-! ## The header -/

theorem isPlainCode_header (w : Written) : ∀ c ∈ w.header, isPlainCode c = true := by
  intro c hc
  refine w.header_cases (P := fun c => isPlainCode c = true) (fun d hd => ?_)
    (List.all_eq_true.mp (by decide)) hc
  have hinert := isInert_of_isAlphanumeric hd
  simp only [isInert, Bool.and_eq_true] at hinert
  exact hinert.1.1.1

theorem read_openBrace : Open.nothing.read ['{'] = ⟨['{'], none, Open.nothing⟩ :=
  read_of_isPlainCode (List.all_eq_true.mp (by decide))

theorem read_closeBrace : Open.nothing.read ['}'] = ⟨['}'], none, Open.nothing⟩ :=
  read_of_isPlainCode (List.all_eq_true.mp (by decide))

theorem readRounds_nil (file : String) (opening : List Char → Opening) :
    p.readRounds file m opening [] = .ok p :=
  p.readRounds_of_allBlank file m opening rfl

/-- A header outside of bodies opens one, in its own line or in the next one. -/
theorem readLines_header (w : Written) (houtside : p.phase = .outside) (file : String)
    (before : List Line) (m : Nat) (raws : List (List Char)) :
    ∃ before', p.readLines file before (Open.nothing.scan m (w.headerLines ++ raws)) =
      (p.openBody (Opening.below before m w.name.text)).readLines file before'
        (Open.nothing.scan (m + w.headerLines.length) raws) := by
  have hplain := isPlainCode_header w
  unfold Written.headerLines
  split
  · -- The header awaits the brace below it.
    have hentry : p.enter (Opening.below before m) w.header =
        .ok (.lineEnd { p with phase := .awaiting (Opening.below before m w.name.text) }) := by
      have hread := Header.read?_header w (t := []) (Or.inl rfl)
      rw [List.append_nil] at hread
      rw [Progress.enter, houtside, hread]
      rfl
    have hheader : p.readLine file before ⟨m, w.header, w.header, none⟩ =
        .ok { p with phase := .awaiting (Opening.below before m w.name.text) } := by
      rw [Progress.readLine, houtside]
      show p.readRounds file m (Opening.below before m) w.header = _
      rw [Progress.readRounds_eq, hentry]
    have hbrace : ({ p with phase := .awaiting (Opening.below before m w.name.text) } :
        Progress).readLine file (⟨m, w.header, w.header, none⟩ :: before)
          ⟨m + 1, ['{'], ['{'], none⟩ = .ok (p.openBody (Opening.below before m w.name.text)) :=
      readRounds_nil file _
    have hfirst := Progress.readLines_scan_cons (read_of_isPlainCode hplain) hheader (['{'] :: raws)
    have hsecond := Progress.readLines_scan_cons read_openBrace hbrace raws
    exact ⟨_, hfirst.trans hsecond⟩
  · have hentry : p.enter (Opening.below before m) (w.header ++ [' ', '{']) =
        .ok (.text (p.openBody (Opening.below before m w.name.text)) []) := by
      rw [Progress.enter, houtside, Header.read?_header w (Or.inr rfl)]
      rfl
    have hheader : p.readLine file before
        ⟨m, w.header ++ [' ', '{'], w.header ++ [' ', '{'], none⟩ =
        .ok (p.openBody (Opening.below before m w.name.text)) := by
      rw [Progress.readLine, houtside]
      exact Progress.readRounds_of_scan_none hentry rfl
    have hbrace : ∀ c ∈ [' ', '{'], isPlainCode c = true := List.all_eq_true.mp (by decide)
    have hcode : ∀ c ∈ w.header ++ [' ', '{'], isPlainCode c = true := by
      intro c hc
      rcases List.mem_append.mp hc with hc | hc
      · exact hplain c hc
      · exact hbrace c hc
    exact ⟨_, Progress.readLines_scan_cons (read_of_isPlainCode hcode) hheader raws⟩

/-! ## The body -/

/-- In balanced text no brace closes the body. -/
theorem scan_of_balance (outer : Nat) {k k' : Nat} {afterDollar : Bool} {s : List Char}
    (hs : ∀ c ∈ s, c ≠ '$') (hdollar : afterDollar = false) (h : balance '{' '}' k s = some k') :
    (Braces.mk (outer + 1 + k) 0).scan (some outer) afterDollar s =
      (⟨outer + 1 + k', 0⟩, none) := by
  induction s generalizing k afterDollar with
  | nil =>
      obtain rfl := Option.some.inj h
      rfl
  | cons c s ih =>
      have hnext : (c == '$') = false := by simpa using hs c (by simp)
      have hrest := fun d hd => hs d (List.mem_cons_of_mem c hd)
      rw [balance] at h
      rw [Braces.scan]
      by_cases hopen : c = '{'
      · subst hopen
        rw [if_pos rfl] at h
        have hstays : (Braces.mk (outer + 1 + k) 0).closesBody (some outer) '{' = false := rfl
        have hstep : (Braces.mk (outer + 1 + k) 0).step afterDollar '{' =
            ⟨outer + 1 + (k + 1), 0⟩ := by
          subst hdollar
          rfl
        rw [if_neg (by simp [hstays]), hstep]
        exact ih hrest hnext h
      rw [if_neg hopen] at h
      by_cases hclose : c = '}'
      · subst hclose
        rw [if_pos rfl] at h
        by_cases hk : k = 0
        · rw [if_pos hk] at h
          cases h
        · rw [if_neg hk] at h
          -- A brace of the body is open, so that this one does not close the body.
          have hstays : (Braces.mk (outer + 1 + k) 0).closesBody (some outer) '}' = false := by
            have hdeeper : outer + 1 + k ≠ outer + 1 := by omega
            simpa [Braces.closesBody] using hdeeper
          have hstep : (Braces.mk (outer + 1 + k) 0).step afterDollar '}' =
              ⟨outer + 1 + (k - 1), 0⟩ := by
            show (⟨outer + 1 + k - 1, 0⟩ : Braces) = _
            congr 1
            omega
          rw [if_neg (by simp [hstays]), hstep]
          exact ih hrest hnext h
      · rw [if_neg hclose] at h
        have hstays : (Braces.mk (outer + 1 + k) 0).closesBody (some outer) c = false := by
          simp [Braces.closesBody, hclose]
        rw [if_neg (by simp [hstays]), Braces.step_of_ne _ _ hopen hclose]
        exact ih hrest hnext h

theorem isPlainCode_of_isBodyChar {c : Char} (h : isBodyChar c = true) :
    isPlainCode c = true ∧ c ≠ '$' ∧ c ≠ '\n' := by
  simp only [isBodyChar, Bool.and_eq_true, bne_iff_ne, ne_eq] at h
  obtain ⟨⟨⟨⟨⟨⟨⟨h₁, h₂⟩, h₃⟩, h₄⟩, h₅⟩, h₆⟩, h₇⟩, h₈⟩ := h
  exact ⟨by simp [isPlainCode, h₂, h₃, h₄, h₅, h₆, h₇], h₈, h₁⟩

/-- In a body a round starts with the text as it is. -/
theorem enter_inside (found : List Definition) (o : Opening) (outer : Nat) (braces : Braces)
    (opening : List Char → Opening) (code : List Char) :
    (Progress.mk found (.inside o outer) braces).enter opening code =
      .ok (.text (Progress.mk found (.inside o outer) braces) code) := rfl

/-- In a body of lines that lead from balance `k` to `k'` only the depth changes. -/
theorem readLines_body (found : List Definition) (o : Opening) (outer : Nat) {k k' : Nat}
    {body : List (List Char)} (file : String) (before : List Line) (m : Nat)
    (hplain : ∀ line ∈ body, ∀ c ∈ line, isBodyChar c = true)
    (hbalance : balance '{' '}' k body.flatten = some k') (raws : List (List Char)) :
    ∃ before', (Progress.mk found (.inside o outer) ⟨outer + 1 + k, 0⟩).readLines file before
        (Open.nothing.scan m (body.map withoutReturn ++ raws)) =
      (Progress.mk found (.inside o outer) ⟨outer + 1 + k', 0⟩).readLines file before'
        (Open.nothing.scan (m + body.length) raws) := by
  induction body generalizing before m k with
  | nil =>
      obtain rfl := Option.some.inj hbalance
      exact ⟨before, rfl⟩
  | cons line body ih =>
      have hline := hplain line (by simp)
      rw [List.flatten_cons, balance_append] at hbalance
      obtain ⟨k₁, hk₁, hrest⟩ := Option.bind_eq_some_iff.mp hbalance
      -- The depth is counted on the line as it is read.
      rw [← balance_withoutReturn (by decide) (by decide)] at hk₁
      have hcode : ∀ c ∈ withoutReturn line, isPlainCode c = true ∧ c ≠ '$' := fun c hc =>
        have h := isPlainCode_of_isBodyChar (hline c (mem_of_mem_withoutReturn hc))
        ⟨h.1, h.2.1⟩
      have hscan := scan_of_balance outer (fun c hc => (hcode c hc).2) rfl hk₁
      have hread : (Progress.mk found (.inside o outer) ⟨outer + 1 + k, 0⟩).readLine file before
          ⟨m, withoutReturn line, withoutReturn line, none⟩ =
          .ok (Progress.mk found (.inside o outer) ⟨outer + 1 + k₁, 0⟩) :=
        Progress.readRounds_of_scan_none
          (enter_inside found o outer _ _ _) hscan
      have hstep := Progress.readLines_scan_cons
        (read_of_isPlainCode fun c hc => (hcode c hc).1) hread
        (body.map withoutReturn ++ raws)
      obtain ⟨before', hbody⟩ := ih
        (⟨m, withoutReturn line, withoutReturn line, none⟩ :: before) (m + 1)
        (fun l hl => hplain l (List.mem_cons_of_mem line hl)) hrest
      have hlength : m + 1 + body.length = m + (line :: body).length := by
        simp only [List.length_cons]
        omega
      rw [hlength] at hbody
      exact ⟨before', hstep.trans hbody⟩

/-- The brace behind a balanced body closes it. -/
theorem readLine_brace (found : List Definition) (o : Opening) (outer : Nat) (file : String)
    (before : List Line) (m : Nat) :
    (Progress.mk found (.inside o outer) ⟨outer + 1, 0⟩).readLine file before
      ⟨m, ['}'], ['}'], none⟩ = .ok ⟨o.close file m :: found, .outside, ⟨outer, 0⟩⟩ := by
  have hscan : (Braces.mk (outer + 1) 0).scan (some outer) false ['}'] =
      (⟨outer, 0⟩, some []) := by
    simp [Braces.scan, Braces.closesBody, Braces.step]
  exact (Progress.readRounds_of_scan_some (enter_inside found o outer _ _ _) hscan).trans
    (readRounds_nil file _)

/-! ## One definition after another -/

/-- No line end stands in the header. -/
theorem no_lineEnd_headerLines (w : Written) :
    ∀ line ∈ w.headerLines, '\n' ∉ line ∧ '\r' ∉ line := by
  have hheader : ∀ c ∈ w.header, c ≠ '\n' ∧ c ≠ '\r' := by
    intro c hc
    refine w.header_cases (P := fun c => c ≠ '\n' ∧ c ≠ '\r') (fun d hd => ?_) (by simp) hc
    exact ⟨ne_of_isAlphanumeric hd (by decide), ne_of_isAlphanumeric hd (by decide)⟩
  have hfree : '\n' ∉ w.header ∧ '\r' ∉ w.header :=
    ⟨fun h => (hheader _ h).1 rfl, fun h => (hheader _ h).2 rfl⟩
  intro line hline
  unfold Written.headerLines at hline
  split at hline
  · rcases List.mem_cons.mp hline with rfl | hline
    · exact hfree
    · obtain rfl := List.mem_singleton.mp hline
      exact ⟨by decide, by decide⟩
  · obtain rfl := List.mem_singleton.mp hline
    simp [hfree.1, hfree.2]

theorem no_lineFeed_lines (w : Written) : ∀ line ∈ w.lines, '\n' ∉ line := by
  intro line hline
  rcases List.mem_cons.mp hline with rfl | hline
  · simp
  rcases List.mem_append.mp hline with hline | hline
  · obtain ⟨text, ht, rfl⟩ := List.mem_map.mp hline
    simpa using (w.of_mem_commentTexts ht).2
  rcases List.mem_append.mp hline with hline | hline
  · exact (no_lineEnd_headerLines w line hline).1
  rcases List.mem_append.mp hline with hline | hline
  · exact fun h => (isPlainCode_of_isBodyChar (w.body_plain line hline _ h)).2.2 rfl
  · obtain rfl := List.mem_singleton.mp hline
    decide

/-- The lines of a written definition as they are read: only in the body a carriage return may
end a line. -/
theorem map_withoutReturn_lines (w : Written) : w.lines.map withoutReturn =
    [] :: (w.commentTexts.map ("# ".toList ++ ·) ++ (w.headerLines ++
      (w.body.map withoutReturn ++ [['}']]))) := by
  have hcomment : ∀ text ∈ w.commentTexts,
      withoutReturn ("# ".toList ++ text) = "# ".toList ++ text := by
    intro text ht
    have htrimmed := (w.of_mem_commentTexts ht).1
    refine withoutReturn_of_getLast? fun hlast => ?_
    have hend : text.getLast? = some '\r' := by
      have htext := List.getLast?_eq_some_getLast htrimmed.ne_nil
      rw [List.getLast?_append, htext] at hlast
      exact htext.trans (by simpa using hlast)
    exact absurd (htrimmed.end_eq _ hend) (by decide)
  have hheader : ∀ line ∈ w.headerLines, withoutReturn line = line := by
    intro line hline
    exact withoutReturn_of_no_return (no_lineEnd_headerLines w line hline).2
  have hcomments :
      (w.commentTexts.map ("# ".toList ++ ·)).map withoutReturn =
        w.commentTexts.map ("# ".toList ++ ·) := by
    rw [List.map_map]
    exact List.map_congr_left hcomment
  have hheaders : w.headerLines.map withoutReturn = w.headerLines :=
    (List.map_congr_left (g := id) hheader).trans (List.map_id w.headerLines)
  rw [Written.lines, List.map_cons, List.map_append, List.map_append, List.map_append, hcomments,
    hheaders]
  rfl

/-- **The lines of one definition give its record.** -/
theorem readLines_lines (w : Written) (found : List Definition) (depth n : Nat) (file : String)
    (before : List Line) (raws : List (List Char)) :
    ∃ before', (Progress.mk found .outside ⟨depth, 0⟩).readLines file before
        (Open.nothing.scan (n + 1) (w.lines.map withoutReturn ++ raws)) =
      (Progress.mk (w.record file n :: found) .outside ⟨depth, 0⟩).readLines file before'
        (Open.nothing.scan (n + w.lines.length + 1) raws) := by
  rw [map_withoutReturn_lines, List.cons_append, List.append_assoc, List.append_assoc,
    List.append_assoc]
  have hblank : (Progress.mk found .outside ⟨depth, 0⟩).readLine file before
      ⟨n + 1, [], [], none⟩ = .ok (Progress.mk found .outside ⟨depth, 0⟩) :=
    Progress.readLine_of_allBlank _ file before rfl
  have hempty : Open.nothing.read [] = ⟨[], none, Open.nothing⟩ := read_of_isPlainCode (by simp)
  rw [Progress.readLines_scan_cons hempty hblank, readLines_comment]
  obtain ⟨before₁, hheader⟩ := readLines_header (p := Progress.mk found .outside ⟨depth, 0⟩) w rfl
    file ((commentLines (n + 2) w.commentTexts).reverse ++ ⟨n + 1, [], [], none⟩ :: before)
    (n + 2 + w.commentTexts.length)
    (w.body.map withoutReturn ++ ([['}']] ++ raws))
  rw [below_commentLines] at hheader
  obtain ⟨before₂, hbody⟩ := readLines_body found (w.opening n) depth file before₁
    (n + 2 + w.commentTexts.length + w.headerLines.length) w.body_plain w.body_balanced
    ([['}']] ++ raws)
  have hend := Progress.readLines_scan_cons read_closeBrace (readLine_brace found (w.opening n)
    depth file before₂
    (n + 2 + w.commentTexts.length + w.headerLines.length + w.body.length)) raws
  have hlength : n + w.lines.length =
      n + 2 + w.commentTexts.length + w.headerLines.length + w.body.length := by
    simp only [Written.lines, List.length_cons, List.length_append, List.length_map,
      List.length_nil]
    omega
  have hrecord : (w.opening n).close file (n + w.lines.length) = w.record file n := rfl
  rw [← hrecord, hlength]
  exact ⟨_, hheader.trans (hbody.trans hend)⟩

/-- The lines of some definitions give their records. -/
theorem readLines_flatMap (ws : List Written) (found : List Definition) (depth n : Nat)
    (file : String) (before : List Line) :
    (Progress.mk found .outside ⟨depth, 0⟩).readLines file before (Open.nothing.scan (n + 1)
        ((ws.flatMap Written.lines).map withoutReturn)) =
      .ok ⟨(recordsOf file n ws).reverse ++ found, .outside, ⟨depth, 0⟩⟩ := by
  induction ws generalizing found n before with
  | nil => rfl
  | cons w ws ih =>
      obtain ⟨before', hfirst⟩ := readLines_lines w found depth n file before
        ((ws.flatMap Written.lines).map withoutReturn)
      rw [List.flatMap_cons, List.map_append, hfirst, ih, recordsOf, List.reverse_cons,
        List.append_assoc, List.singleton_append]

/-- **Extraction undoes printing.** Every list of written definitions is extracted from its text,
with the lines that each definition takes up. -/
theorem extract_textOf (file : String) (ws : List Written) :
    extract file (String.ofList (textOf ws)) = .ok (recordsOf file 0 ws) := by
  have hlines : Text.lines (textOf ws) =
      (ws.flatMap Written.lines).map withoutReturn := by
    refine lines_flatMap fun line hline => ?_
    obtain ⟨w, _, hw⟩ := List.mem_flatMap.mp hline
    exact no_lineFeed_lines w line hw
  have hread := readLines_flatMap ws [] 0 0 file []
  rw [List.append_nil] at hread
  have hstart : Progress.start.readLines file [] (scan (String.ofList (textOf ws))) =
      .ok ⟨(recordsOf file 0 ws).reverse, .outside, ⟨0, 0⟩⟩ := by
    rw [scan, String.toList_ofList, hlines]
    exact hread
  rw [extract, ofLines, hstart]
  show Except.ok (recordsOf file 0 ws).reverse.reverse = _
  rw [List.reverse_reverse]

/-- A definition with both kinds of comment and a brace on its own line. -/
def greeting : Written where
  name := ⟨"hi".toList, by decide, by decide, List.all_eq_true.mp (by decide)⟩
  description :=
    [⟨⟨"Greets.".toList, ⟨by decide, by simp; decide, by simp; decide⟩, by decide⟩, by decide⟩]
  arguments :=
    some (⟨"a name".toList, ⟨by decide, by simp; decide, by simp; decide⟩, by decide⟩, [])
  form := .keywordParens
  braceBelow := true
  body := ["echo \x7ba".toList, "\x7d".toList]
  body_plain := by simp [isBodyChar]
  body_balanced := by decide

example : textOf [greeting] = ("\n# Greets.\n# Arguments: a name\nfunction hi()\n\x7b\n" ++
      "echo \x7ba\n\x7d\n\x7d\n").toList ∧
    recordsOf "a.sh" 0 [greeting] =
      [⟨"hi", some "a name", some "Greets.", "a.sh", 2, 4, 8⟩] := by decide +kernel

end ShellIndex.Definition
