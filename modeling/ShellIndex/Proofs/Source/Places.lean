import ShellIndex.Proofs.Source.Substitution

set_option autoImplicit false

/-! # Places in a script

A place in a script is given by the lines above, by what stands before it in its line, and by the
reader that has come to it (`Place.At`). What the line shows, and what is open behind it, follows from
the reader at any of its places.
-/

namespace ShellIndex.Source

open Text

theorem Open.after_append (o : Open) (raws raws' : List (List Char)) :
    o.after (raws ++ raws') = (o.after raws).after raws' := List.foldl_append

/-- A script is scanned down to a line, then the line, then what is below. -/
theorem scan_of_lines {text : String} {above below : List (List Char)} {line : List Char}
    (h : lines text.toList = above ++ line :: below) :
    scan text = Open.nothing.scan 1 above ++
      (⟨above.length + 1, line, ((Open.nothing.after above).read line).code,
        ((Open.nothing.after above).read line).comment⟩ ::
          ((Open.nothing.after above).read line).next.scan (above.length + 2) below) := by
  rw [scan, h, Open.scan_append, Open.scan, Nat.add_comm 1]

/-- Every scanned line is what one line of the script comes to. -/
theorem Open.exists_line_of_mem_scan {o : Open} {number : Nat} {raws : List (List Char)} {l : Line}
    (h : l ∈ o.scan number raws) : ∃ above line below, raws = above ++ line :: below ∧
      l = ⟨number + above.length, line, ((o.after above).read line).code,
        ((o.after above).read line).comment⟩ := by
  induction raws generalizing o number with
  | nil => simp [scan] at h
  | cons raw raws ih =>
      rw [scan] at h
      rcases List.mem_cons.mp h with rfl | h
      · exact ⟨[], raw, raws, rfl, rfl⟩
      · obtain ⟨above, line, below, rfl, rfl⟩ := ih h
        refine ⟨raw :: above, line, below, rfl, ?_⟩
        rw [List.length_cons, Nat.add_assoc, Nat.add_comm 1]
        rfl

namespace Reader
variable {r r' : Reader} {s t rest : List Char}

/-- Reading on by one character. -/
theorem readTo_cons_iff {c : Char} : r.readTo rest (c :: s) = some r' ↔
    r.opensComment c = false ∧ (r.step c (s ++ rest)).readTo rest s = some r' := by
  rw [readTo]
  cases r.opensComment c <;> simp

theorem readTo_append (r : Reader) (rest s t : List Char) :
    r.readTo rest (s ++ t) = (r.readTo (t ++ rest) s).bind fun r' => r'.readTo rest t := by
  induction s generalizing r with
  | nil => rfl
  | cons c s ih =>
      rw [List.cons_append, readTo, readTo]
      split
      · rfl
      · rw [ih, List.append_assoc]

theorem before_readTo (h : r.readTo rest s = some r') : r'.before = s.reverse ++ r.before := by
  induction s generalizing r with
  | nil =>
      obtain rfl := Option.some.inj h
      rfl
  | cons c s ih =>
      obtain ⟨-, h⟩ := readTo_cons_iff.mp h
      rw [ih h, before_step, List.reverse_cons, List.append_assoc, List.singleton_append]

/-- What a text adds to the view are its characters and the blanks of masked ones. -/
theorem exists_code_readTo (h : r.readTo rest s = some r') :
    ∃ shown, r'.code = shown ++ r.code ∧ ∀ d ∈ shown, d ∈ s ∨ d = ' ' := by
  induction s generalizing r with
  | nil =>
      obtain rfl := Option.some.inj h
      exact ⟨[], rfl, by simp⟩
  | cons c s ih =>
      obtain ⟨-, h⟩ := readTo_cons_iff.mp h
      obtain ⟨shown, hstep, hmem⟩ := r.exists_code_step c (s ++ rest)
      obtain ⟨more, hrest, hmore⟩ := ih h
      refine ⟨more ++ shown, by rw [hrest, hstep, List.append_assoc], fun d hd => ?_⟩
      rcases List.mem_append.mp hd with hd | hd
      · exact (hmore d hd).imp_left (List.mem_cons_of_mem c)
      · exact (hmem d hd).imp_left fun e => List.mem_cons.mpr (Or.inl e)

end Reader

/-! ## Places -/

/-- A place in a script. -/
structure Place where
  /-- The lines above. -/
  above : List (List Char)
  /-- What stands before the place in its line. -/
  front : List Char
  /-- The line from the place on. -/
  onward : List Char
  /-- The lines below. -/
  below : List (List Char)

namespace Place
variable {p : Place} {text : String} {r : Reader}

def line (p : Place) : List Char := p.front ++ p.onward

/-- What is open before the line. -/
def openBefore (p : Place) : Open := Open.nothing.after p.above

/-- What is open behind the line. -/
def openAfter (p : Place) : Open := (p.openBefore.read p.line).next

/-- The line as it is scanned. -/
def scanned (p : Place) : Line :=
  ⟨p.above.length + 1, p.line, (p.openBefore.read p.line).code, (p.openBefore.read p.line).comment⟩

/-- The place is in `text`, neither in a here-document nor in a comment, and `r` is the reader that
has come to it. -/
structure At (p : Place) (text : String) (r : Reader) : Prop where
  lines_eq : lines text.toList = p.above ++ p.line :: p.below
  no_heredoc : p.openBefore.heredocs = []
  readTo_eq : (Reader.start p.openBefore.contexts).readTo p.onward p.front = some r

instance (p : Place) (text : String) (r : Reader) : Decidable (p.At text r) :=
  decidable_of_iff (lines text.toList = p.above ++ p.line :: p.below ∧ p.openBefore.heredocs = [] ∧
      (Reader.start p.openBefore.contexts).readTo p.onward p.front = some r)
    ⟨fun ⟨hlines, hdocs, hreach⟩ => ⟨hlines, hdocs, hreach⟩,
      fun h => ⟨h.lines_eq, h.no_heredoc, h.readTo_eq⟩⟩

theorem At.mem_scan (h : p.At text r) : p.scanned ∈ scan text := by
  rw [scan_of_lines h.lines_eq]
  exact List.mem_append_right _ List.mem_cons_self

theorem At.read_eq (h : p.At text r) : p.openBefore.read p.line =
    ⟨(r.run p.onward).1.code.reverse, (r.run p.onward).2,
      ⟨(r.run p.onward).1.contexts, (r.run p.onward).1.heredocs⟩⟩ := by
  rw [Open.read, h.no_heredoc]
  dsimp only
  rw [line, Reader.run_append h.readTo_eq]

/-- What the line shows. -/
theorem At.scanned_eq (h : p.At text r) :
    p.scanned.code = (r.run p.onward).1.code.reverse ∧ p.scanned.comment = (r.run p.onward).2 := by
  rw [scanned, h.read_eq]
  exact ⟨rfl, rfl⟩

/-- The documents that are open behind the line. -/
theorem At.heredocs_openAfter (h : p.At text r) :
    p.openAfter.heredocs = (r.run p.onward).1.heredocs := by
  rw [openAfter, h.read_eq]

/-- The next line belongs to a document if one is open behind the line, and is code if none is. -/
theorem At.exists_next (h : p.At text r) {next : List Char} {below : List (List Char)}
    (hbelow : p.below = next :: below) : ∃ l ∈ scan text, l.number = p.above.length + 2 ∧
      l.raw = next ∧
      (p.openAfter.heredocs ≠ [] → l.code = mask next ∧ l.comment = none) ∧
      (p.openAfter.heredocs = [] → l.comment = ((Reader.start p.openAfter.contexts).run next).2 ∧
        l.code = ((Reader.start p.openAfter.contexts).run next).1.code.reverse) := by
  have hlines := h.lines_eq
  rw [hbelow] at hlines
  refine ⟨⟨p.above.length + 2, next, (p.openAfter.read next).code, (p.openAfter.read next).comment⟩,
    ?_, rfl, rfl, fun hdocs => ?_, fun hdocs => ?_⟩
  · rw [scan_of_lines hlines, Open.scan]
    exact List.mem_append_right _ (List.mem_cons_of_mem _ List.mem_cons_self)
  · obtain ⟨doc, docs, hdocs⟩ := List.exists_cons_of_ne_nil hdocs
    show (p.openAfter.read next).code = mask next ∧ (p.openAfter.read next).comment = none
    rw [Open.read, hdocs]
    exact ⟨rfl, rfl⟩
  · show (p.openAfter.read next).comment = _ ∧ (p.openAfter.read next).code = _
    rw [Open.read, hdocs]
    exact ⟨rfl, rfl⟩

end Place

end ShellIndex.Source
