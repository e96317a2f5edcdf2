import Mathlib.Data.List.Forall2
import ShellIndex.Proofs.Source.Announcements

set_option autoImplicit false

/-! # The lines of here-documents

The lines below a line that announces here-documents belong to these documents, one after another:
each document takes the lines up to and including the first that ends it (`Takes`). Such lines show
nothing and leave everything else as it is (`Takes.scan_eq`), so that other lines may stand in their
place (`Replaced.scan`).
-/

namespace ShellIndex.Source

open Text

/-! ## One document and those that wait -/

/-- What is open between two lines, where the document that the next line belongs to is kept apart
from those that wait for it. -/
structure Queue where
  /-- What encloses the next character, innermost first. -/
  contexts : List Context
  /-- The document that the next line belongs to. -/
  active : Option Heredoc
  /-- The documents that come after it, in order. -/
  waiting : List Heredoc

namespace Queue

/-- Nothing is open at the start of a script. -/
def nothing : Queue := ⟨[], none, []⟩

/-- The first document that waits becomes active. -/
def promote (q : Queue) : Queue :=
  match q.waiting with
  | [] => q
  | doc :: waiting => { q with active := some doc, waiting }

/-- Reads one line. -/
def read (q : Queue) (raw : List Char) : Queue :=
  match q.active with
  | some doc => if doc.endsAt raw then { q with active := none }.promote else q
  | none =>
      let r := ((Reader.start q.contexts).run raw).1
      { q with contexts := r.contexts, waiting := q.waiting ++ r.heredocs }.promote

/-- What is open after some lines. -/
def after (q : Queue) (raws : List (List Char)) : Queue := raws.foldl read q

/-- The queue as one list of documents. -/
def toOpen (q : Queue) : Open := ⟨q.contexts, q.active.toList ++ q.waiting⟩

/-- Documents wait only for an active one. -/
def Settled (q : Queue) : Prop := q.active = none → q.waiting = []

variable {q : Queue}

theorem settled_promote (q : Queue) : q.promote.Settled := by
  unfold promote
  split
  · next hwaiting => exact fun _ => hwaiting
  · exact fun hactive => nomatch hactive

theorem toOpen_promote (hactive : q.active = none) : q.promote.toOpen = ⟨q.contexts, q.waiting⟩ := by
  unfold promote
  split
  · next hwaiting => simp [toOpen, hactive]
  · next hwaiting => simp [toOpen, hwaiting]

theorem settled_read (h : q.Settled) (raw : List Char) : (q.read raw).Settled := by
  unfold read
  split
  · split
    · exact settled_promote _
    · exact h
  · exact settled_promote _

theorem toOpen_read (h : q.Settled) (raw : List Char) :
    (q.read raw).toOpen = (q.toOpen.read raw).next := by
  unfold read
  cases hactive : q.active with
  | some doc =>
      have hopen : q.toOpen.heredocs = doc :: q.waiting := by rw [toOpen, hactive]; rfl
      rw [Open.read, hopen]
      dsimp only
      split
      · exact toOpen_promote rfl
      · rfl
  | none =>
      have hwaiting := h hactive
      have hopen : q.toOpen = ⟨q.contexts, []⟩ := by rw [toOpen, hactive, hwaiting]; rfl
      rw [hopen, hwaiting]
      dsimp only
      rw [toOpen_promote rfl, List.nil_append]
      rfl

/-- Keeping the active document apart changes nothing, and at no boundary between lines a document
waits without an active one. -/
theorem after_eq (h : q.Settled) (raws : List (List Char)) :
    (q.after raws).toOpen = q.toOpen.after raws ∧ (q.after raws).Settled := by
  induction raws generalizing q with
  | nil => exact ⟨rfl, h⟩
  | cons raw raws ih =>
      obtain ⟨hopen, hsettled⟩ := ih (settled_read h raw)
      refine ⟨?_, hsettled⟩
      rw [toOpen_read h raw] at hopen
      exact hopen

end Queue

/-! ## Which lines belong to documents -/

/-- The lines `taken` at the start of `below` belong to the documents `docs`, in order: each takes
the lines up to and including the first that ends it. Behind them stand the lines `rest`, unless the
text ends within a document; then that document and those after it are `left`. -/
inductive Takes : (docs : List Heredoc) → (below taken : List (List Char)) →
    (left : List Heredoc) → (rest : List (List Char)) → Prop
  | done (below : List (List Char)) : Takes [] below [] [] below
  | closed {doc : Heredoc} {docs left : List Heredoc} {body below taken rest : List (List Char)}
      {last : List Char} (hbody : ∀ line ∈ body, doc.endsAt line = false)
      (hlast : doc.endsAt last = true) (h : Takes docs below taken left rest) :
      Takes (doc :: docs) (body ++ last :: below) (body ++ last :: taken) left rest
  | unclosed {doc : Heredoc} {docs : List Heredoc} {body : List (List Char)}
      (hbody : ∀ line ∈ body, doc.endsAt line = false) :
      Takes (doc :: docs) body body (doc :: docs) []

/-- Lines that show nothing, the first of them numbered `number`. -/
def blankLines (number : Nat) : List (List Char) → List Line
  | [] => []
  | raw :: raws =>
      ⟨number, raw, List.replicate (byteLength raw) ' ', none⟩ :: blankLines (number + 1) raws

theorem mask_eq_replicate (s : List Char) : mask s = List.replicate (byteLength s) ' ' := by
  induction s with
  | nil => rfl
  | cons c s ih =>
      show maskChar c ++ mask s = _
      rw [ih, maskChar, byteLength_cons, List.replicate_append_replicate]

theorem blankLines_append (number : Nat) (raws raws' : List (List Char)) :
    blankLines number (raws ++ raws') =
      blankLines number raws ++ blankLines (number + raws.length) raws' := by
  induction raws generalizing number with
  | nil => rfl
  | cons raw raws ih =>
      rw [List.cons_append, blankLines, blankLines, ih, List.length_cons, List.cons_append,
        Nat.add_right_comm, Nat.add_assoc]

section
variable {o : Open} {doc : Heredoc} {docs left : List Heredoc}
  {below below' taken rest : List (List Char)} {raw : List Char}

/-- For all lines below there are those that belong to the documents. -/
theorem exists_takes (docs : List Heredoc) (below : List (List Char)) :
    ∃ taken left rest, Takes docs below taken left rest := by
  induction docs generalizing below with
  | nil => exact ⟨[], [], below, .done below⟩
  | cons doc docs ih =>
      have hbody : ∀ line ∈ below.takeWhile (!doc.endsAt ·), doc.endsAt line = false := by
        intro line hline
        simpa using List.all_eq_true.mp List.all_takeWhile line hline
      have hsplit := List.takeWhile_append_dropWhile (p := (!doc.endsAt ·)) (l := below)
      cases hbehind : below.dropWhile (!doc.endsAt ·) with
      | nil =>
          rw [hbehind, List.append_nil] at hsplit
          rw [← hsplit]
          exact ⟨_, _, _, .unclosed hbody⟩
      | cons last behind =>
          have hlast : doc.endsAt last = true := by
            have hhead := List.head?_dropWhile_not (!doc.endsAt ·) below
            rw [hbehind] at hhead
            simpa using hhead
          rw [hbehind] at hsplit
          obtain ⟨taken, left, rest, htakes⟩ := ih behind
          rw [← hsplit]
          exact ⟨_, _, _, .closed hbody hlast htakes⟩

theorem Takes.eq_append (h : Takes docs below taken left rest) : below = taken ++ rest := by
  induction h with
  | done below => rfl
  | closed hbody hlast h ih => rw [ih, List.append_assoc, List.cons_append]
  | unclosed hbody => exact (List.append_nil _).symm

/-! ## What lines of documents come to -/

theorem Open.read_body (ho : o.heredocs = doc :: docs) (h : doc.endsAt raw = false) :
    o.read raw = ⟨List.replicate (byteLength raw) ' ', none, o⟩ := by
  rw [Open.read, ho, ← mask_eq_replicate]
  dsimp only
  rw [h, if_neg (by simp)]

theorem Open.read_last (ho : o.heredocs = doc :: docs) (h : doc.endsAt raw = true) :
    o.read raw = ⟨List.replicate (byteLength raw) ' ', none, { o with heredocs := docs }⟩ := by
  rw [Open.read, ho, ← mask_eq_replicate]
  dsimp only
  rw [if_pos h]

theorem Open.body_eq (ho : o.heredocs = doc :: docs) {body : List (List Char)}
    (hbody : ∀ line ∈ body, doc.endsAt line = false) (number : Nat) :
    o.scan number body = blankLines number body ∧ o.after body = o := by
  induction body generalizing number with
  | nil => exact ⟨rfl, rfl⟩
  | cons line body ih =>
      have hread := Open.read_body ho (hbody line List.mem_cons_self)
      obtain ⟨hscan, hafter⟩ := ih (fun l hl => hbody l (List.mem_cons_of_mem line hl)) (number + 1)
      constructor
      · rw [Open.scan, hread, blankLines, hscan]
      · rw [Open.after, List.foldl_cons, hread]
        exact hafter

/-- **Lines that belong to documents** show nothing, and only the documents they end are no longer
open behind them. -/
theorem Takes.scan_eq (h : Takes docs below taken left rest) (ho : o.heredocs = docs)
    (number : Nat) :
    o.scan number taken = blankLines number taken ∧
      o.after taken = { o with heredocs := left } := by
  induction h generalizing o number with
  | done below =>
      refine ⟨rfl, ?_⟩
      rw [← ho]
      rfl
  | unclosed hbody =>
      obtain ⟨hscan, hafter⟩ := Open.body_eq ho hbody number
      refine ⟨hscan, hafter.trans ?_⟩
      rw [← ho]
  | @closed doc docs left body below taken rest last hbody hlast h ih =>
      obtain ⟨hscan, hafter⟩ := Open.body_eq ho hbody number
      have hread := Open.read_last ho hlast
      obtain ⟨hscan', hafter'⟩ :=
        ih (o := { o with heredocs := docs }) rfl (number + body.length + 1)
      constructor
      · rw [Open.scan_append, hscan, hafter, Open.scan, hread, hscan', blankLines_append,
          blankLines]
      · show (body ++ last :: taken).foldl _ o = _
        rw [List.foldl_append]
        show ((o.after body).read last).next.after taken = _
        rw [hafter, hread]
        exact hafter'

/-! ## Other lines in documents -/

/-- The lines `below'` are those of `below`, except that in the documents `docs` lines that do not
end a document may be replaced by other such lines. -/
inductive Replaced : (docs : List Heredoc) → (below below' : List (List Char)) → Prop
  | behind (below : List (List Char)) : Replaced [] below below
  | body {doc : Heredoc} {docs : List Heredoc} {below below' : List (List Char)}
      {line line' : List Char} (hline : doc.endsAt line = false)
      (hline' : doc.endsAt line' = false) (h : Replaced (doc :: docs) below below') :
      Replaced (doc :: docs) (line :: below) (line' :: below')
  | last {doc : Heredoc} {docs : List Heredoc} {below below' : List (List Char)}
      {line : List Char} (hline : doc.endsAt line = true) (h : Replaced docs below below') :
      Replaced (doc :: docs) (line :: below) (line :: below')
  | ended (docs : List Heredoc) : Replaced docs [] []

/-- Two lines of the same number that show the same unless they are different lines. -/
def Line.Parallel (l l' : Line) : Prop := l.number = l'.number ∧ (l.raw = l'.raw → l = l')

theorem parallel_refl (ls : List Line) : List.Forall₂ Line.Parallel ls ls :=
  List.forall₂_same.mpr fun _ _ => ⟨rfl, fun _ => rfl⟩

/-- **Lines of documents do not matter.** Every line that is not itself replaced shows the same. -/
theorem Replaced.scan (h : Replaced docs below below') (ho : o.heredocs = docs) (number : Nat) :
    List.Forall₂ Line.Parallel (o.scan number below) (o.scan number below') := by
  induction h generalizing o number with
  | behind below => exact parallel_refl _
  | body hline hline' h ih =>
      rw [Open.scan, Open.scan, Open.read_body ho hline, Open.read_body ho hline']
      refine .cons ⟨rfl, fun hraw => ?_⟩ (ih ho (number + 1))
      cases hraw
      rfl
  | last hline h ih =>
      rw [Open.scan, Open.scan, Open.read_last ho hline]
      exact .cons ⟨rfl, fun _ => rfl⟩ (ih rfl (number + 1))
  | ended docs => exact .nil

end

/-! ## Main statement -/

/-- The documents that are announced by a line with the lines `above` it. -/
def announcedBelow (above : List (List Char)) (line : List Char) : List Heredoc :=
  (Reader.start (Open.nothing.after above).contexts).announced line

/-- **Here-documents take the lines below in order.** At no boundary between lines a document waits
without an active one. Behind a line that belongs to no document the documents that it announces are
open; the lines below belong to them one after another, show nothing and leave the contexts as they
are; and in their place other lines that do not end the document could stand, without a change in any
other line. -/
theorem heredocs_in_order :
    (∀ raws : List (List Char), (Queue.nothing.after raws).toOpen = Open.nothing.after raws ∧
      ((Queue.nothing.after raws).active = none → (Queue.nothing.after raws).waiting = [])) ∧
    ∀ (text : String) (above : List (List Char)) (line : List Char) (below : List (List Char)),
      lines text.toList = above ++ line :: below → (Open.nothing.after above).heredocs = [] →
      ∃ contexts, Open.nothing.after (above ++ [line]) = ⟨contexts, announcedBelow above line⟩ ∧
        (∃ taken left rest, Takes (announcedBelow above line) below taken left rest ∧
          Open.nothing.after (above ++ line :: taken) = ⟨contexts, left⟩ ∧
          scan text = Open.nothing.scan 1 (above ++ [line]) ++
            (blankLines (above.length + 2) taken ++
              Open.scan ⟨contexts, left⟩ (above.length + 2 + taken.length) rest)) ∧
        ∀ (text' : String) (below' : List (List Char)),
          lines text'.toList = above ++ line :: below' →
          Replaced (announcedBelow above line) below below' →
          List.Forall₂ Line.Parallel (scan text) (scan text') := by
  refine ⟨fun raws => Queue.after_eq (fun _ => rfl) raws,
    fun text above line below hlines habove => ?_⟩
  have hscan : ∀ (text : String) (below : List (List Char)),
      lines text.toList = above ++ line :: below →
      scan text = Open.nothing.scan 1 (above ++ [line]) ++
        (Open.nothing.after (above ++ [line])).scan (above.length + 2) below := by
    intro text below hlines
    rw [scan_of_lines hlines, Open.scan_append, Open.after_append, List.append_assoc,
      Nat.add_comm 1]
    rfl
  have hnext : Open.nothing.after (above ++ [line]) =
      ⟨((Reader.start (Open.nothing.after above).contexts).run line).1.contexts,
        announcedBelow above line⟩ := by
    rw [Open.after_append]
    exact Open.next_of_code habove line
  generalize ((Reader.start (Open.nothing.after above).contexts).run line).1.contexts =
    contexts at hnext
  refine ⟨contexts, hnext, ?_, fun text' below' hlines' hreplaced => ?_⟩
  · obtain ⟨taken, left, rest, htakes⟩ := exists_takes (announcedBelow above line) below
    obtain ⟨hblank, hafter⟩ := htakes.scan_eq (o := ⟨contexts, announcedBelow above line⟩) rfl
      (above.length + 2)
    have hbelow : Open.scan ⟨contexts, announcedBelow above line⟩ (above.length + 2) below =
        blankLines (above.length + 2) taken ++
          Open.scan ⟨contexts, left⟩ (above.length + 2 + taken.length) rest := by
      rw [htakes.eq_append, Open.scan_append, hblank, hafter]
    refine ⟨taken, left, rest, htakes, ?_, ?_⟩
    · rw [List.append_cons, Open.after_append, hnext, hafter]
    · rw [hscan text below hlines, hnext, hbelow]
  · rw [hscan text below hlines, hscan text' below' hlines']
    exact List.rel_append (parallel_refl _)
      (hreplaced.scan (congrArg Open.heredocs hnext) (above.length + 2))

/-- A line that announces two documents, of which the second ignores the tabs before its end. -/
theorem heredocs_in_order_two :
    lines "cat <<A <<-B\nx\nA\n\ty\n\tB\nrun\n".toList =
        [] ++ "cat <<A <<-B".toList ::
          ["x".toList, "A".toList, "\ty".toList, "\tB".toList, "run".toList] ∧
      (Open.nothing.after []).heredocs = [] ∧
      announcedBelow [] "cat <<A <<-B".toList = [⟨['A'], false⟩, ⟨['B'], true⟩] ∧
      List.Forall₂ Line.Parallel (scan "cat <<A <<-B\nx\nA\n\ty\n\tB\nrun\n")
        (scan "cat <<A <<-B\n\"$(\nA\n<<C\n\tB\nrun\n") := by
  have hlines : lines "cat <<A <<-B\nx\nA\n\ty\n\tB\nrun\n".toList =
      [] ++ "cat <<A <<-B".toList ::
        ["x".toList, "A".toList, "\ty".toList, "\tB".toList, "run".toList] := by decide +kernel
  have hlines' : lines "cat <<A <<-B\n\"$(\nA\n<<C\n\tB\nrun\n".toList =
      [] ++ "cat <<A <<-B".toList ::
        ["\"$(".toList, "A".toList, "<<C".toList, "\tB".toList, "run".toList] := by decide +kernel
  have hannounced : announcedBelow [] "cat <<A <<-B".toList =
      [⟨['A'], false⟩, ⟨['B'], true⟩] := by decide +kernel
  have hreplaced : Replaced (announcedBelow [] "cat <<A <<-B".toList)
      ["x".toList, "A".toList, "\ty".toList, "\tB".toList, "run".toList]
      ["\"$(".toList, "A".toList, "<<C".toList, "\tB".toList, "run".toList] := by
    rw [hannounced]
    exact .body (by decide) (by decide) (.last (by decide)
      (.body (by decide) (by decide) (.last (by decide) (.behind _))))
  obtain ⟨_, -, -, hparallel⟩ := heredocs_in_order.2 _ _ _ _ hlines rfl
  exact ⟨hlines, rfl, hannounced, hparallel _ _ hlines' hreplaced⟩

end ShellIndex.Source
