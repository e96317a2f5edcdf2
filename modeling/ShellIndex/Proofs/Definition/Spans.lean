import Mathlib.Data.List.Chain
import ShellIndex.Proofs.Definition.Rounds

set_option autoImplicit false

/-! # The spans of definitions

The definitions of a script are listed in the order of the script: each ends before the next one
starts, in the same line at the latest, and the comment of a definition lies behind the end of
the definition before it. This holds of every script that is read without an error, whatever its
braces, quotes and here-documents.

The invariant is `Progress.Ordered`: the definitions closed so far are in order, and the open
definition starts behind the last of them. One round preserves it, and so do one line and a whole
script. That a comment block stops at the last closed body takes one more fact, which is about
the lines read before (`Reached`): the line of a closing brace is no comment line.
-/

namespace ShellIndex.Definition

open Text Source

/-! ## Definitions in order -/

/-- A definition with these lines may come behind one that ends in line `stop`. -/
def Follows (stop startBlock start : Nat) : Prop :=
  stop < startBlock ∨ (start = stop ∧ startBlock = stop)

/-- The line in which the last of some definitions ends; they are given nearest first. -/
def lastStop : List Definition → Nat
  | [] => 0
  | d :: _ => d.stop

/-- Definitions of `file` that follow one another, nearest first. -/
def InOrder (file : String) : List Definition → Prop
  | [] => True
  | d :: found =>
      d.file = file ∧ (0 < d.startBlock ∧ d.startBlock ≤ d.start ∧ d.start ≤ d.stop) ∧
        Follows (lastStop found) d.startBlock d.start ∧ InOrder file found

theorem Follows.le {stop startBlock start : Nat} (h : Follows stop startBlock start) :
    stop ≤ startBlock := by
  rcases h with h | ⟨_, h⟩ <;> omega

/-- The last of some definitions in order ends behind all of them. -/
theorem InOrder.bounds {file : String} {found : List Definition} (h : InOrder file found) :
    ∀ d ∈ found, d.file = file ∧ (0 < d.startBlock ∧ d.startBlock ≤ d.start ∧ d.start ≤ d.stop) ∧
      d.stop ≤ lastStop found := by
  induction found with
  | nil => simp
  | cons d found ih =>
      obtain ⟨hfile, hlines, hfollows, hfound⟩ := h
      intro e he
      rcases List.mem_cons.mp he with rfl | he
      · exact ⟨hfile, hlines, Nat.le_refl _⟩
      · obtain ⟨hfile', hlines', hstop⟩ := ih hfound e he
        have hle := hfollows.le
        refine ⟨hfile', hlines', ?_⟩
        show e.stop ≤ d.stop
        omega

theorem InOrder.pairwise {file : String} {found : List Definition} (h : InOrder file found) :
    found.Pairwise fun g f => f.stop ≤ g.startBlock := by
  induction found with
  | nil => exact List.Pairwise.nil
  | cons d found ih =>
      obtain ⟨_, _, hfollows, hfound⟩ := h
      refine List.Pairwise.cons (fun f hf => ?_) (ih hfound)
      exact Nat.le_trans (hfound.bounds f hf).2.2 hfollows.le

theorem InOrder.isChain {file : String} {found : List Definition} (h : InOrder file found) :
    found.IsChain fun g f => Follows f.stop g.startBlock g.start := by
  induction found with
  | nil => exact List.IsChain.nil
  | cons d found ih =>
      obtain ⟨_, _, hfollows, hfound⟩ := h
      cases found with
      | nil => exact List.IsChain.singleton d
      | cons e found => exact List.IsChain.cons_cons hfollows (ih hfound)

/-! ## Progress in order -/

/-- An open definition follows the definitions found so far, in line `n` at the latest. -/
structure Opening.Fits (o : Opening) (found : List Definition) (n : Nat) : Prop where
  startBlock_pos : 0 < o.startBlock
  startBlock_le : o.startBlock ≤ o.start
  start_le : o.start ≤ n
  follows : Follows (lastStop found) o.startBlock o.start

/-- What holds of the progress made in the first `n` lines. -/
structure Progress.Ordered (file : String) (n : Nat) (p : Progress) : Prop where
  inOrder : InOrder file p.found
  lastStop_le : lastStop p.found ≤ n
  fits : ∀ o, p.opening? = some o → o.Fits p.found n

section
variable {file : String} {n m : Nat} {p p' : Progress} {opening : List Char → Opening}
variable {code : List Char}

theorem Opening.Fits.mono {o : Opening} {found : List Definition} (h : o.Fits found n)
    (hnm : n ≤ m) : o.Fits found m :=
  ⟨h.startBlock_pos, h.startBlock_le, Nat.le_trans h.start_le hnm, h.follows⟩

theorem Progress.Ordered.mono (h : p.Ordered file n) (hnm : n ≤ m) : p.Ordered file m :=
  ⟨h.inOrder, Nat.le_trans h.lastStop_le hnm, fun o ho => (h.fits o ho).mono hnm⟩

theorem Progress.ordered_start (file : String) : start.Ordered file 0 := by
  refine ⟨trivial, Nat.le_refl 0, fun o ho => ?_⟩
  cases ho

/-! ## One round -/

theorem Progress.Ordered.openBody (h : p.Ordered file n) {o : Opening} (ho : o.Fits p.found n) :
    (p.openBody o).Ordered file n := by
  refine ⟨h.inOrder, h.lastStop_le, fun o' ho' => ?_⟩
  obtain rfl : o = o' := by simpa [Progress.opening?, Progress.openBody] using ho'
  exact ho

theorem Progress.Ordered.await (h : p.Ordered file n) {o : Opening} (ho : o.Fits p.found n) :
    ({ p with phase := .awaiting o } : Progress).Ordered file n := by
  refine ⟨h.inOrder, h.lastStop_le, fun o' ho' => ?_⟩
  obtain rfl : o = o' := by simpa [Progress.opening?] using ho'
  exact ho

theorem Progress.Ordered.with_braces (h : p.Ordered file n) (braces : Braces) :
    ({ p with braces } : Progress).Ordered file n :=
  ⟨h.inOrder, h.lastStop_le, h.fits⟩

/-- The definition that is closed in line `n` becomes the last of those in order. -/
theorem Progress.Ordered.closeBody (h : p.Ordered file n) (hopen : p.outer? ≠ none) :
    (p.closeBody file n).Ordered file n ∧ lastStop (p.closeBody file n).found = n := by
  obtain ⟨found, phase, braces⟩ := p
  cases phase with
  | outside => exact absurd rfl hopen
  | awaiting o => exact absurd rfl hopen
  | inside o outer =>
      have ho := h.fits o rfl
      refine ⟨⟨?_, Nat.le_refl n, ?_⟩, rfl⟩
      · exact ⟨rfl, ⟨ho.startBlock_pos, ho.startBlock_le, ho.start_le⟩, ho.follows, h.inOrder⟩
      · intro o' ho'
        cases ho'

/-- In the line of the last closed body a definition without a comment may follow. -/
theorem Opening.fits_bare {found : List Definition} (hpos : 0 < n) (h : lastStop found ≤ n)
    (name : List Char) : (Opening.bare n name).Fits found n := by
  refine ⟨hpos, Nat.le_refl n, Nat.le_refl n, ?_⟩
  show lastStop found < n ∨ (n = lastStop found ∧ n = lastStop found)
  omega

/-- The progress with which a round goes on. -/
def Entry.progress : Entry → Progress
  | .text p _ => p
  | .lineEnd p => p

theorem Progress.Ordered.enter {entry : Entry} (h : p.Ordered file n)
    (hopening : ∀ name, (opening name).Fits p.found n)
    (hentry : p.enter opening code = .ok entry) :
    entry.progress.Ordered file n ∧ entry.progress.found = p.found := by
  rcases Progress.enter_cases hentry with rfl | ⟨_, name, rest, _, rfl⟩ | ⟨_, name, _, rfl⟩
  · exact ⟨h, rfl⟩
  · exact ⟨h.openBody (hopening name), rfl⟩
  · exact ⟨h.await (hopening name), rfl⟩

/-- The rounds of line `n` preserve the order, and what they close ends in that line. -/
theorem Progress.Ordered.readRounds (hpos : 0 < n) (h : p.Ordered file n)
    (hopening : ∀ name, (opening name).Fits p.found n)
    (hread : p.readRounds file n opening code = .ok p') :
    p'.Ordered file n ∧ (lastStop p'.found = lastStop p.found ∨ lastStop p'.found = n) := by
  fun_induction Progress.readRounds p file n opening code with
  | case1 p opening code fault hentry => cases hread
  | case2 p opening code q hentry =>
      obtain rfl := Except.ok.inj hread
      obtain ⟨hq, hfound⟩ := h.enter hopening hentry
      exact ⟨hq, Or.inl (congrArg lastStop hfound)⟩
  | case3 p opening code q rest hentry braces hscan =>
      obtain rfl := Except.ok.inj hread
      obtain ⟨hq, hfound⟩ := h.enter hopening hentry
      exact ⟨hq.with_braces braces, Or.inl (congrArg lastStop hfound)⟩
  | case4 p opening code q rest hentry braces after hscan ih =>
      obtain ⟨hq, -⟩ := h.enter hopening hentry
      -- Only an open body is closed by a brace.
      have hopen : q.outer? ≠ none := fun e => by
        have hnone := q.braces.scan_none false rest
        rw [← e, hscan] at hnone
        cases hnone
      obtain ⟨hclosed, hlast⟩ := Progress.Ordered.closeBody hq hopen
      obtain ⟨hp', hlast'⟩ := ih (hclosed.with_braces braces)
        (fun name => Opening.fits_bare hpos (Nat.le_of_eq hlast) name) hread
      refine ⟨hp', Or.inr ?_⟩
      rcases hlast' with e | e
      · exact e.trans hlast
      · exact e

/-! ## Lines -/

/-- What holds after the first `n` lines, of which `before` holds the last ones, nearest first:
unless no body has been closed, the line in which the last one was closed is among them, and it is
no comment line. -/
structure Progress.Reached (file : String) (n : Nat) (before : List Line) (p : Progress) : Prop
    extends p.Ordered file n where
  descending : before.Pairwise fun l l' => l'.number < l.number
  number_bounds : ∀ l ∈ before, 0 < l.number ∧ l.number ≤ n
  closed : lastStop p.found = 0 ∨
    ∃ l ∈ before, l.number = lastStop p.found ∧ isDocLine l = false

variable {before : List Line} {l : Line}

/-- The comment above a line lies behind the last closed body. -/
theorem Progress.Reached.lt_of_mem_block (h : p.Reached file n before)
    (hl : l ∈ before.takeWhile isDocLine) : lastStop p.found < l.number := by
  rcases h.closed with hzero | ⟨last, hlast, hnumber, hdoc⟩
  · have hpos := (h.number_bounds l ((List.takeWhile_sublist _).mem hl)).1
    omega
  · have hsplit : before.takeWhile isDocLine ++ before.dropWhile isDocLine = before :=
      List.takeWhile_append_dropWhile
    -- The line of the last closed body stops the block, so that it lies above all of it.
    have hbelow : last ∈ before.dropWhile isDocLine := by
      rw [← hsplit, List.mem_append] at hlast
      rcases hlast with hlast | hlast
      · have hall : (before.takeWhile isDocLine).all isDocLine = true := List.all_takeWhile
        have hlastDoc := List.all_eq_true.mp hall last hlast
        rw [hdoc] at hlastDoc
        cases hlastDoc
      · exact hlast
    have hdescending := h.descending
    rw [← hsplit] at hdescending
    have hlt := (List.pairwise_append.mp hdescending).2.2 l hl last hbelow
    omega

/-- A definition that starts in the next line may take the comment above it. -/
theorem Progress.Reached.fits_below (h : p.Reached file n before) (name : List Char) :
    (Opening.below before (n + 1) name).Fits p.found (n + 1) := by
  have hle := h.lastStop_le
  have hstart : lastStop p.found < (Opening.below before (n + 1) name).startBlock ∧
      (Opening.below before (n + 1) name).startBlock ≤ n + 1 := by
    show lastStop p.found < ((blockAbove before).head?.map Line.number).getD (n + 1) ∧
      ((blockAbove before).head?.map Line.number).getD (n + 1) ≤ n + 1
    cases hblock : (blockAbove before).head? with
    | none =>
        show lastStop p.found < n + 1 ∧ n + 1 ≤ n + 1
        omega
    | some l =>
        have hl : l ∈ before.takeWhile isDocLine := by
          have hmem := List.mem_of_head? hblock
          simpa [blockAbove] using hmem
        have hlt := h.lt_of_mem_block hl
        have hbounds := h.number_bounds l ((List.takeWhile_sublist _).mem hl)
        show lastStop p.found < l.number ∧ l.number ≤ n + 1
        omega
  exact ⟨by omega, hstart.2, Nat.le_refl _, Or.inl hstart.1⟩

/-- One line more leaves the last closed body among the lines before. -/
theorem Progress.Reached.closed_cons (h : p.Reached file n before) (l : Line) :
    lastStop p.found = 0 ∨
      ∃ l' ∈ l :: before, l'.number = lastStop p.found ∧ isDocLine l' = false := by
  rcases h.closed with hzero | ⟨last, hlast, hnumber, hdoc⟩
  · exact Or.inl hzero
  · exact Or.inr ⟨last, List.mem_cons_of_mem l hlast, hnumber, hdoc⟩

theorem Progress.Reached.descending_cons (h : p.Reached file n before) (hl : l.number = n + 1) :
    (l :: before).Pairwise fun l l' => l'.number < l.number := by
  refine List.Pairwise.cons (fun l' hl' => ?_) h.descending
  have hle := (h.number_bounds l' hl').2
  omega

theorem Progress.Reached.number_bounds_cons (h : p.Reached file n before)
    (hl : l.number = n + 1) : ∀ l' ∈ l :: before, 0 < l'.number ∧ l'.number ≤ n + 1 := by
  intro l' hl'
  rcases List.mem_cons.mp hl' with rfl | hl'
  · omega
  · have hbounds := h.number_bounds l' hl'
    omega

/-- What the next line closes ends in it. -/
theorem Progress.Reached.ordered_readLine (h : p.Reached file n before) (hl : l.number = n + 1)
    (hread : p.readLine file before l = .ok p') :
    p'.Ordered file (n + 1) ∧
      (lastStop p'.found = lastStop p.found ∨ lastStop p'.found = n + 1) := by
  have hmono := h.toOrdered.mono (Nat.le_succ n)
  unfold Progress.readLine at hread
  rw [hl] at hread
  split at hread
  · next o hphase =>
      have ho : p.opening? = some o := by rw [Progress.opening?, hphase]
      split at hread
      · obtain rfl := Except.ok.inj hread
        exact ⟨hmono, Or.inl rfl⟩
      · split at hread
        · -- The awaited brace opens the body, which may be closed in the same line.
          have hopened := hmono.openBody (hmono.fits o ho)
          have hbare := Opening.fits_bare (Nat.succ_pos n) hopened.lastStop_le
          have hclosed := Progress.Ordered.readRounds (Nat.succ_pos n) hopened hbare hread
          exact hclosed
        · cases hread
  · exact Progress.Ordered.readRounds (Nat.succ_pos n) hmono h.fits_below hread

/-- **One line preserves the order.** -/
theorem Progress.Reached.readLine (h : p.Reached file n before) (hl : l.number = n + 1)
    (hread : p.readLine file before l = .ok p') : p'.Reached file (n + 1) (l :: before) := by
  obtain ⟨hordered, hlast⟩ := h.ordered_readLine hl hread
  refine ⟨hordered, h.descending_cons hl, h.number_bounds_cons hl, ?_⟩
  by_cases hblank : allBlank l.code = true
  · -- A comment line closes nothing.
    rw [p.readLine_of_allBlank file before hblank] at hread
    obtain rfl := Except.ok.inj hread
    exact h.closed_cons l
  · have hdoc : isDocLine l = false := by simp [isDocLine, Line.isComment, hblank]
    rcases hlast with e | e
    · rw [e]
      exact h.closed_cons l
    · exact Or.inr ⟨l, List.mem_cons_self, hl.trans e.symm, hdoc⟩

/-- **Some lines preserve the order.** -/
theorem Progress.Reached.readLines (h : p.Reached file n before) (o : Open)
    (raws : List (List Char))
    (hread : p.readLines file before (o.scan (n + 1) raws) = .ok p') :
    p'.Ordered file (n + raws.length) := by
  induction raws generalizing p n before o with
  | nil =>
      obtain rfl := Except.ok.inj hread
      exact h.toOrdered
  | cons raw raws ih =>
      rw [Open.scan, Progress.readLines] at hread
      split at hread
      · cases hread
      · next q hq =>
          have hreached := h.readLine rfl hq
          have hordered := ih hreached _ hread
          rwa [Nat.add_right_comm, Nat.add_assoc] at hordered

end

/-! ## Scripts -/

/-- The definitions of a script are those of some progress in order. -/
theorem ordered_of_extract {file text : String} {found : List Definition}
    (h : extract file text = .ok found) :
    ∃ p : Progress, p.Ordered file (lines text.toList).length ∧ found = p.found.reverse := by
  obtain ⟨p, hread, -, hfound⟩ := exists_readLines_of_extract h
  have hstart : Progress.start.Reached file 0 [] :=
    ⟨Progress.ordered_start file, List.Pairwise.nil, by simp, Or.inl rfl⟩
  have hend := hstart.readLines Open.nothing (lines text.toList) hread
  rw [Nat.zero_add] at hend
  exact ⟨p, hend, hfound⟩

/-- **The definitions of a script are in order.** Each lies within the script; each ends before
the next one starts, whose comment lies behind that end unless both meet in one line. -/
theorem spans_of_extract {file text : String} {found : List Definition}
    (h : extract file text = .ok found) :
    (∀ d ∈ found, d.file = file ∧
      1 ≤ d.startBlock ∧ d.startBlock ≤ d.start ∧ d.start ≤ d.stop ∧
      d.stop ≤ (lines text.toList).length ∧ d.startBlock + d.lineCount = d.stop + 1) ∧
    (found.IsChain fun f g => f.stop ≤ g.start ∧ (g.start ≠ f.stop → f.stop < g.startBlock) ∧
      (g.start = f.stop → g.startBlock = f.stop)) ∧
    found.Pairwise fun f g => f.start ≤ g.start ∧ f.stop ≤ g.start ∧
      ∀ line, ¬ ((f.startBlock ≤ line ∧ line < f.start) ∧
        (g.startBlock ≤ line ∧ line < g.start)) := by
  obtain ⟨p, hp, rfl⟩ := ordered_of_extract h
  have hbounds := hp.inOrder.bounds
  have hstop := hp.lastStop_le
  refine ⟨?_, ?_, ?_⟩
  · intro d hd
    obtain ⟨hfile, ⟨hpos, hblock, hbody⟩, hlast⟩ := hbounds d (List.mem_reverse.mp hd)
    have hcount : d.lineCount = d.stop - d.startBlock + 1 := rfl
    exact ⟨hfile, hpos, hblock, hbody, by omega, by omega⟩
  · rw [List.isChain_reverse]
    refine List.IsChain.imp_of_mem_imp (fun g f hg hf hfollows => ?_) hp.inOrder.isChain
    obtain ⟨-, ⟨_, hgblock, _⟩, -⟩ := hbounds g hg
    rcases hfollows with hbehind | ⟨hstart, hblock⟩
    · exact ⟨by omega, fun _ => hbehind, fun e => by omega⟩
    · exact ⟨by omega, fun e => absurd hstart e, fun _ => hblock⟩
  · rw [List.pairwise_reverse]
    refine List.Pairwise.imp_of_mem ?_ hp.inOrder.pairwise
    intro g f hg hf hle
    obtain ⟨-, ⟨_, hgblock, _⟩, -⟩ := hbounds g hg
    obtain ⟨-, ⟨_, hfblock, hfbody⟩, -⟩ := hbounds f hf
    refine ⟨by omega, by omega, fun line hline => ?_⟩
    omega

/-- Two definitions in one line, of which the first has a comment. -/
theorem spans_of_neighbours :
    extract "a.sh" "# One.\nf() \x7b :; \x7d; g() \x7b :; \x7d\n" =
        .ok [⟨"f", none, some "One.", "a.sh", 1, 2, 2⟩, ⟨"g", none, none, "a.sh", 2, 2, 2⟩] ∧
      List.IsChain (fun f g : Definition => f.stop ≤ g.start ∧
          (g.start ≠ f.stop → f.stop < g.startBlock) ∧ (g.start = f.stop → g.startBlock = f.stop))
        [⟨"f", none, some "One.", "a.sh", 1, 2, 2⟩, ⟨"g", none, none, "a.sh", 2, 2, 2⟩] := by
  have hextract : extract "a.sh" "# One.\nf() \x7b :; \x7d; g() \x7b :; \x7d\n" =
      .ok [⟨"f", none, some "One.", "a.sh", 1, 2, 2⟩, ⟨"g", none, none, "a.sh", 2, 2, 2⟩] := by
    decide +kernel
  exact ⟨hextract, (spans_of_extract hextract).2.1⟩

end ShellIndex.Definition
