import ShellIndex.Definition.Braces
import ShellIndex.Proofs.Source.Heredocs
import ShellIndex.Proofs.Source.LineEnd

set_option autoImplicit false

/-! # Where a comment starts

A `#` in code starts a comment at the start of its line and behind a character that separates words.
The reader looks at that one character only. So a `#` behind an escaped blank starts a comment, and
so does one inside a parameter expansion, although both belong to a word: there, and only there, the
rest of the line is lost (`HashSign.In.misread_iff`).
-/

namespace ShellIndex.Source

open Text

namespace Reader
variable {r : Reader} {s comment : List Char}

/-- A `#` in code that starts no comment leaves the contexts as they are, and it is visible unless a
backslash escapes it. -/
theorem step_hash (hcode : readsCode r.contexts = true) (rest : List Char) :
    (r.step '#' rest).contexts = r.contexts ∧
      (r.step '#' rest).code = (if r.owed = .escaped then ' ' else '#') :: r.code := by
  cases howed : r.owed with
  | nothing =>
      have hcoding : r.Coding := ⟨hcode, howed⟩
      rw [hcoding.step_eq]
      exact ⟨rfl, rfl⟩
  | escaped =>
      have hhide : r.step '#' rest = r.hide '#' := by
        have hplain : (isAlphanumeric '#' || '#' == '_') = false := by decide +kernel
        rw [step, howed]
        show r.stepEscaped '#' = r.hide '#'
        rw [stepEscaped, hplain, Bool.and_false]
        rfl
      rw [hhide]
      exact ⟨rfl, rfl⟩
  | verbatim more =>
      rw [step, howed]
      cases more <;> exact ⟨rfl, rfl⟩

/-- **Every comment starts at a `#`** at which the reader lets it start. -/
theorem run_comment_iff : (r.run s).2 = some comment ↔
    ∃ front r', s = front ++ '#' :: comment ∧ r.readTo ('#' :: comment) front = some r' ∧
      r'.opensComment '#' = true := by
  induction s generalizing r with
  | nil => simp [run]
  | cons c s ih =>
      rw [run]
      constructor
      · intro hcomment
        split at hcomment
        · next hopens =>
            obtain ⟨rfl, -⟩ := opensComment_iff.mp hopens
            obtain rfl := Option.some.inj hcomment
            exact ⟨[], r, rfl, rfl, hopens⟩
        · next hopens =>
            obtain ⟨front, r', rfl, hreach, hstarts⟩ := ih.mp hcomment
            exact ⟨c :: front, r', rfl,
              readTo_cons_iff.mpr ⟨Bool.eq_false_iff.mpr hopens, hreach⟩, hstarts⟩
      · rintro ⟨front, r', hs, hreach, hstarts⟩
        rcases front with _ | ⟨d, front⟩
        · obtain ⟨rfl, rfl⟩ := List.cons.inj hs
          obtain rfl := Option.some.inj hreach
          rw [if_pos hstarts]
        · obtain ⟨rfl, rfl⟩ := List.cons.inj hs
          obtain ⟨hopens, hreach⟩ := readTo_cons_iff.mp hreach
          rw [if_neg (by simp [hopens])]
          exact ih.mpr ⟨front, r', rfl, hreach, hstarts⟩

theorem length_comment_lt (h : (r.run s).2 = some comment) : comment.length < s.length := by
  obtain ⟨front, -, rfl, -⟩ := run_comment_iff.mp h
  simp only [List.length_append, List.length_cons]
  omega

end Reader

/-! ## A `#` in a script -/

/-- A `#` in a script, with what stands around it. -/
structure HashSign where
  /-- The lines above. -/
  above : List (List Char)
  /-- What stands before the sign in its line. -/
  front : List Char
  /-- What stands behind the sign in its line. -/
  behind : List Char
  /-- The lines below. -/
  below : List (List Char)

namespace HashSign
variable {p : HashSign} {text : String} {r : Reader}

def place (p : HashSign) : Place := ⟨p.above, p.front, '#' :: p.behind, p.below⟩

/-- The line as it is scanned. -/
def scanned (p : HashSign) : Line := p.place.scanned

/-- The sign stands in the code of `text`, where `r` is the reader: neither in a quotation nor in a
comment or a here-document. -/
structure In (p : HashSign) (text : String) (r : Reader) : Prop extends p.place.At text r where
  reads_code : readsCode r.contexts = true

/-- Whether the sign stands at the start of its line or behind a character that separates words. -/
def FollowsBreak (p : HashSign) : Prop :=
  ∀ b, p.front.getLast? = some b → separatesWords b = true

/-- Whether a backslash escapes the character before the sign. -/
def FollowsEscape (p : HashSign) : Prop :=
  ∃ before b, p.front = before ++ [b] ∧ backslashes before.reverse % 2 = 1

/-- The number of parameter expansions that are open at the sign. -/
def expansions (p : HashSign) (r : Reader) : Nat :=
  let above := ((Open.nothing.scan 1 p.above).map Line.code).foldl
    (fun (b : Definition.Braces) code => (b.scan none false code).1) .none
  (above.scan none false r.code.reverse).1.expansions

/-- Whether a word ends before the sign. -/
def EndsWord (p : HashSign) (r : Reader) : Prop :=
  p.FollowsBreak ∧ ¬ p.FollowsEscape ∧ p.expansions r = 0

theorem In.scanned_eq (h : p.In text r) :
    p.scanned.code = (r.run ('#' :: p.behind)).1.code.reverse ∧
      p.scanned.comment = (r.run ('#' :: p.behind)).2 := Place.At.scanned_eq h.toAt

theorem In.opensComment_iff (h : p.In text r) :
    r.opensComment '#' = true ↔ r.owed = .nothing ∧ p.FollowsBreak := by
  rw [Reader.opensComment_iff, Reader.before_readTo h.readTo_eq, Reader.start, List.append_nil,
    List.head?_reverse]
  simp [h.reads_code, FollowsBreak, place]

/-- Where the reader lets a comment start, the rest of the line is masked. -/
theorem In.comment_of_opensComment (h : p.In text r) (hopens : r.opensComment '#' = true) :
    p.scanned.comment = some p.behind ∧
      p.scanned.code =
        r.code.reverse ++ List.replicate (byteLength ('#' :: p.behind)) ' ' := by
  obtain ⟨hcode, hcomment⟩ := h.scanned_eq
  rw [Reader.run, if_pos hopens] at hcode hcomment
  refine ⟨hcomment, ?_⟩
  rw [hcode, List.reverse_append, mask_eq_replicate, List.reverse_replicate]

/-- Anywhere else the rest of the line is read on in the same contexts. -/
theorem In.code_of_not_opensComment (h : p.In text r) (hopens : r.opensComment '#' = false) :
    (r.step '#' p.behind).contexts = r.contexts ∧
      p.scanned.code = ((r.step '#' p.behind).run p.behind).1.code.reverse ∧
      p.scanned.comment = ((r.step '#' p.behind).run p.behind).2 ∧
      ∃ view, p.scanned.code =
        r.code.reverse ++ (if r.owed = .escaped then ' ' else '#') :: view := by
  obtain ⟨hcontexts, hshows⟩ := Reader.step_hash h.reads_code p.behind
  obtain ⟨hcode, hcomment⟩ := h.scanned_eq
  rw [Reader.run, if_neg (by simp [hopens])] at hcode hcomment
  obtain ⟨shown, hshown, -⟩ := (r.step '#' p.behind).exists_code_run p.behind
  refine ⟨hcontexts, hcode, hcomment, shown.reverse, ?_⟩
  rw [hcode, hshown, hshows]
  simp

theorem In.comment_iff (h : p.In text r) :
    p.scanned.comment = some p.behind ↔ r.owed = .nothing ∧ p.FollowsBreak := by
  rw [← h.opensComment_iff]
  constructor
  · intro hcomment
    cases hopens : r.opensComment '#' with
    | true => rfl
    | false =>
        obtain ⟨-, -, hrun, -⟩ := h.code_of_not_opensComment hopens
        have hlt := Reader.length_comment_lt (hrun.symm.trans hcomment)
        omega
  · exact fun hopens => (h.comment_of_opensComment hopens).1

/-- A comment starts within a word exactly behind an escaped break and at a break inside a parameter
expansion. -/
theorem In.misread_iff (h : p.In text r) :
    (p.scanned.comment = some p.behind ∧ ¬ p.EndsWord r) ↔
      r.owed = .nothing ∧ p.FollowsBreak ∧ (p.FollowsEscape ∨ 0 < p.expansions r) := by
  rw [h.comment_iff, EndsWord, Nat.pos_iff_ne_zero]
  tauto

/-- Every comment of a script starts at a sign in its code. -/
theorem exists_of_comment {l : Line} (hl : l ∈ scan text) {comment : List Char}
    (hcomment : l.comment = some comment) : ∃ (p : HashSign) (r : Reader), p.In text r ∧
      r.opensComment '#' = true ∧ p.scanned = l ∧ p.behind = comment := by
  obtain ⟨above, line, below, hlines, rfl⟩ := Open.exists_line_of_mem_scan hl
  dsimp only at hcomment
  cases hdocs : (Open.nothing.after above).heredocs with
  | cons doc docs =>
      -- A line of a here-document has no comment.
      rw [Open.read, hdocs] at hcomment
      cases hcomment
  | nil =>
      have hrun : ((Reader.start (Open.nothing.after above).contexts).run line).2 =
          some comment := by
        rw [Open.read, hdocs] at hcomment
        exact hcomment
      obtain ⟨front, r, rfl, hreach, hopens⟩ := Reader.run_comment_iff.mp hrun
      have hcode := (Reader.opensComment_iff.mp hopens).2.2.1
      refine ⟨⟨above, front, comment, below⟩, r, ⟨⟨hlines, hdocs, hreach⟩, hcode⟩, hopens, ?_,
        rfl⟩
      rw [scanned, Place.scanned, Nat.add_comm]
      rfl

end HashSign

/-- **A comment starts at a `#` that follows a break**, and nowhere else; every other `#` in code is
read like any other character, and the line goes on as code behind it. The character before the `#`
is all that counts, so that a comment starts in the middle of a word if that character is escaped or
if a parameter expansion is open. -/
theorem comments_follow_breaks (text : String) :
    (∀ l ∈ scan text, ∀ comment, l.comment = some comment → ∃ (p : HashSign) (r : Reader),
      p.In text r ∧ p.FollowsBreak ∧ p.scanned = l ∧ p.behind = comment) ∧
    ∀ (p : HashSign) (r : Reader), p.In text r → p.scanned ∈ scan text ∧
      (p.scanned.comment = some p.behind ↔ r.owed = .nothing ∧ p.FollowsBreak) ∧
      (p.scanned.comment = some p.behind →
        p.scanned.code = r.code.reverse ++ List.replicate (byteLength ('#' :: p.behind)) ' ') ∧
      (p.scanned.comment ≠ some p.behind →
        (r.step '#' p.behind).contexts = r.contexts ∧
          p.scanned.code = ((r.step '#' p.behind).run p.behind).1.code.reverse ∧
          p.scanned.comment = ((r.step '#' p.behind).run p.behind).2 ∧
          ∃ view, p.scanned.code =
            r.code.reverse ++ (if r.owed = .escaped then ' ' else '#') :: view) ∧
      (p.scanned.comment = some p.behind ∧ ¬ p.EndsWord r ↔
        r.owed = .nothing ∧ p.FollowsBreak ∧ (p.FollowsEscape ∨ 0 < p.expansions r)) := by
  refine ⟨fun l hl comment hcomment => ?_, fun p r h => ⟨h.mem_scan, h.comment_iff,
    fun hcomment => ?_, fun hcomment => ?_, h.misread_iff⟩⟩
  · obtain ⟨p, r, hin, hopens, hscanned, hbehind⟩ := HashSign.exists_of_comment hl hcomment
    exact ⟨p, r, hin, (hin.opensComment_iff.mp hopens).2, hscanned, hbehind⟩
  · have hopens := h.opensComment_iff.mpr (h.comment_iff.mp hcomment)
    exact (h.comment_of_opensComment hopens).2
  · refine h.code_of_not_opensComment (Bool.eq_false_iff.mpr fun hopens => hcomment ?_)
    exact (h.comment_of_opensComment hopens).1

/-! ## Signs within words

In `x=a#b # c` the first sign belongs to a word and the second starts a comment. -/

theorem comments_follow_breaks_two :
    ∃ (p p' : HashSign) (r r' : Reader), p.In "x=a#b # c\n" r ∧ p'.In "x=a#b # c\n" r' ∧
      p.scanned = p'.scanned ∧ p.scanned.comment ≠ some p.behind ∧
      p'.scanned.comment = some " c".toList ∧ p'.scanned.code = "x=a#b    ".toList := by
  let inWord : HashSign := ⟨[], "x=a".toList, "b # c".toList, []⟩
  let atBreak : HashSign := ⟨[], "x=a#b ".toList, " c".toList, []⟩
  let r : Reader := ⟨[], [], "x=a".toList.reverse, "x=a".toList.reverse, .nothing⟩
  let r' : Reader := ⟨[], [], "x=a#b ".toList.reverse, "x=a#b ".toList.reverse, .nothing⟩
  have hword : inWord.In "x=a#b # c\n" r := by
    constructor <;> decide +kernel
  have hbreak : atBreak.In "x=a#b # c\n" r' := by
    constructor <;> decide +kernel
  obtain ⟨-, hin⟩ := comments_follow_breaks "x=a#b # c\n"
  obtain ⟨-, hstarts, hmasked, -⟩ := hin atBreak r' hbreak
  obtain ⟨-, hstays, -⟩ := hin inWord r hword
  have hcomment : atBreak.scanned.comment = some " c".toList :=
    hstarts.mpr ⟨rfl, fun b hb => by
      obtain rfl : ' ' = b := Option.some.inj hb
      decide⟩
  refine ⟨inWord, atBreak, r, r', hword, hbreak, rfl, fun h => ?_, hcomment, hmasked hcomment⟩
  exact absurd ((hstays.mp h).2 'a' rfl) (by decide +kernel)

/-- Behind an escaped blank and inside a parameter expansion a word is taken for a comment. -/
theorem words_taken_for_comments :
    (∃ (p : HashSign) (r : Reader), p.In "echo a\\ #b; warn x\n" r ∧
      p.scanned.comment = some "b; warn x".toList ∧ p.FollowsEscape) ∧
    ∃ (p : HashSign) (r : Reader), p.In "echo $\x7ba:- #b\x7d; warn x\n" r ∧
      p.scanned.comment = some "b\x7d; warn x".toList ∧ p.expansions r = 1 := by
  let escaped : HashSign := ⟨[], "echo a\\ ".toList, "b; warn x".toList, []⟩
  let expanding : HashSign := ⟨[], "echo $\x7ba:- ".toList, "b\x7d; warn x".toList, []⟩
  let r : Reader :=
    ⟨[], [], "echo a\\ ".toList.reverse, "echo a\\ ".toList.reverse, .nothing⟩
  let r' : Reader :=
    ⟨[], [], "echo $\x7ba:- ".toList.reverse, "echo $\x7ba:- ".toList.reverse, .nothing⟩
  have hescaped : escaped.In "echo a\\ #b; warn x\n" r := by
    constructor <;> decide +kernel
  have hexpanding : expanding.In "echo $\x7ba:- #b\x7d; warn x\n" r' := by
    constructor <;> decide +kernel
  exact ⟨⟨escaped, r, hescaped, by decide +kernel, "echo a\\".toList, ' ', rfl, by decide⟩,
    ⟨expanding, r', hexpanding, by decide +kernel, by decide +kernel⟩⟩

end ShellIndex.Source
