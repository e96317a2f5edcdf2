import Mathlib.Data.List.Chain
import ShellIndex.Proofs.Bytes.Octets
import ShellIndex.Proofs.Call.Resume

set_option autoImplicit false

/-! # The lexemes of a line by byte positions

The words and marks of a line, with positions in its bytes in place of what is left of it: each
byte is compared with blanks and marks, a word goes on to the next byte that is one of them, and
its text is what lies between two positions. No piece is empty, which is why the pieces come to an
end (`Piece.lt_stop_of_at?`, `Cursor.runAt?`).

Nothing in this says that a word is cut only where it can be cut. But it is, since all bytes of a
character outside of ASCII belong to a word: every piece starts and ends between two characters,
and is what the tracker reads there (`Piece.exists_at?`). Hence the pieces have the result of the
tracker (`Cursor.exists_runAt?`).
-/

namespace ShellIndex.Call

open Text

/-! ## Pieces -/

/-- What is read of a line in one step. -/
structure Piece where
  /-- The byte at which it starts. -/
  start : Nat
  /-- The byte behind it. -/
  stop : Nat
  /-- The lexeme that it is. A blank is none. -/
  lexeme : Option Lexeme

/-- The piece at byte `pos` of a line, whose octet is `c`. There is none if a word is cut where it
cannot be. -/
def Piece.at? (code : List Char) (pos : Nat) (c : Char) : Option Piece :=
  let os := octets code
  if isWordBreak c then some ⟨pos, pos + 1, none⟩
  else
    match Lexeme.punctuation? c (os.drop (pos + 1)) with
    | some .armEnd => some ⟨pos, pos + 2, some .armEnd⟩
    | some mark => some ⟨pos, pos + 1, some mark⟩
    | none => do
        let stop := pos + ((os.drop pos).takeWhile Lexeme.isWordChar).length
        let text ← slice? code pos stop
        let rest ← sliceFrom? code stop
        return ⟨pos, stop, some (.word (String.ofList text) (Lexeme.startsWithParens rest))⟩

namespace Lexeme

/-! ## Words and marks among octets -/

/-- A character outside of ASCII belongs to a word. -/
theorem isWordChar_of_not_isAscii {c : Char} (h : isAscii c = false) : isWordChar c = true := by
  have hbreak : isWordBreak c = false := by
    refine Bool.eq_false_iff.mpr fun hbreak => ?_
    simp only [isWordBreak, Bool.or_eq_true, beq_iff_eq] at hbreak
    rcases hbreak with (((rfl | rfl) | rfl) | rfl) | rfl <;> exact absurd h (by decide)
  have hmark : punctuation? c [] = none := by
    unfold punctuation?
    split <;> first | rfl | exact absurd h (by decide)
  rw [isWordChar, hbreak, hmark]
  rfl

/-- A character that is no blank, no mark and of no word does not exist. -/
theorem isWordChar_of_none {c : Char} {rest : List Char} (hbreak : isWordBreak c = false)
    (h : punctuation? c rest = none) : isWordChar c = true := by
  rw [isWordChar, hbreak, ← punctuation?_isNone c rest, h]
  rfl

theorem isAscii_of_punctuation?_some {c : Char} {rest : List Char} {mark : Lexeme}
    (h : punctuation? c rest = some mark) : isAscii c = true := by
  cases hc : isAscii c with
  | true => rfl
  | false =>
      rw [punctuation?_of_isWordChar (isWordChar_of_not_isAscii hc)] at h
      cases h

/-- The octets behind a character decide in the same way which mark it is. -/
theorem punctuation?_octets (c : Char) (s : List Char) :
    punctuation? c (octets s) = punctuation? c s := by
  refine punctuation?_congr c fun d hd => head?_octets ?_ s
  simp only [List.mem_cons, List.not_mem_nil, or_false] at hd
  rcases hd with rfl | rfl | rfl <;> decide

theorem exists_of_armEnd {c : Char} {s : List Char} (h : punctuation? c s = some .armEnd) :
    c = ';' ∧ ∃ d s', (d = ';' ∨ d = '&') ∧ s = d :: s' := by
  unfold punctuation? at h
  split at h <;> try cases h
  split at h
  · next hhead =>
      refine ⟨rfl, ?_⟩
      cases s with
      | nil => simp at hhead
      | cons d s => exact ⟨d, s, by simpa using hhead, rfl⟩
  · cases h

end Lexeme

/-! ## Pieces are not empty -/

namespace Piece

theorem lt_stop_of_at? {code : List Char} {pos : Nat} {c : Char} {piece : Piece}
    (hc : (octets code)[pos]? = some c) (h : at? code pos c = some piece) : pos < piece.stop := by
  unfold at? at h
  dsimp only at h
  split at h
  · cases h
    exact Nat.lt_succ_self pos
  · next hbreak =>
      split at h
      · cases h
        exact Nat.lt_add_of_pos_right (by decide)
      · cases h
        exact Nat.lt_succ_self pos
      · next hmark =>
          obtain ⟨text, -, h⟩ := Option.bind_eq_some_iff.mp h
          obtain ⟨rest, -, h⟩ := Option.bind_eq_some_iff.mp h
          cases h
          -- The octet at the position is the first of the word.
          obtain ⟨hlt, rfl⟩ := List.getElem?_eq_some_iff.mp hc
          have hword := Lexeme.isWordChar_of_none (by simpa using hbreak) hmark
          rw [List.drop_eq_getElem_cons hlt, List.takeWhile_cons_of_pos hword]
          exact Nat.lt_add_of_pos_right (Nat.succ_pos _)

end Piece

/-- Reads a line from byte `pos` on, and lists its pieces. There is no result if a word is cut where
it cannot be. -/
def Cursor.runAt? (k : Cursor) (code : List Char) (pos : Nat) :
    Option (List Piece × Cursor × List String) :=
  match _read : (octets code)[pos]? with
  | none => some ([], k, [])
  | some c =>
      match _cut : Piece.at? code pos c with
      | none => none
      | some piece =>
          let (next, found) := k.run piece.lexeme.toList
          (next.runAt? code piece.stop).map fun (pieces, k, calls) =>
            (piece :: pieces, k, found ++ calls)
termination_by byteLength code - pos
decreasing_by
  have hstop := Piece.lt_stop_of_at? _read _cut
  have hpos := (List.getElem?_eq_some_iff.mp _read).1
  rw [length_octets] at hpos
  omega

/-! ## The pieces of the tracker -/

namespace Piece

/-- A piece that is the start of what follows `front` on a line, and whose lexeme is the next one
there. -/
inductive Fits (front rest : List Char) : Piece → Prop
  | intro {read onward : List Char} {lexeme : Option Lexeme} (hne : read ≠ [])
      (hsplit : rest = read ++ onward)
      (hlexemes : Lexeme.ofCode rest = lexeme.toList ++ Lexeme.ofCode onward) :
      Fits front rest ⟨byteLength front, byteLength (front ++ read), lexeme⟩

variable {front rest : List Char} {c : Char} {s : List Char}

/-- A character of ASCII is one byte. -/
theorem stop_eq_of_isAscii (hc : isAscii c = true) (front : List Char) :
    byteLength (front ++ [c]) = byteLength front + 1 := by
  rw [byteLength_append, ← length_octets [c], octets_cons_of_isAscii hc]
  rfl

theorem isAscii_of_isWordBreak (h : isWordBreak c = true) : isAscii c = true := by
  cases hc : isAscii c with
  | true => rfl
  | false =>
      rw [Lexeme.not_isWordBreak_of_isWordChar (Lexeme.isWordChar_of_not_isAscii hc)] at h
      cases h

/-- A blank is one byte. -/
theorem exists_at?_of_blank (h : isWordBreak c = true) (front s : List Char) :
    ∃ piece, at? (front ++ c :: s) (byteLength front) c = some piece ∧
      piece.Fits front (c :: s) := by
  have hstop := stop_eq_of_isAscii (isAscii_of_isWordBreak h) front
  refine ⟨⟨byteLength front, byteLength (front ++ [c]), none⟩, ?_, ?_⟩
  · rw [at?, if_pos h, hstop]
  · have hsplit : c :: s = [c] ++ s := rfl
    exact .intro (List.cons_ne_nil c []) hsplit (Lexeme.ofCode_blank h s)

/-- A mark is one byte, or two if it is the end of a `case` arm. -/
theorem exists_at?_of_mark {mark : Lexeme} (hbreak : isWordBreak c = false)
    (h : Lexeme.punctuation? c s = some mark) (front : List Char) :
    ∃ piece, at? (front ++ c :: s) (byteLength front) c = some piece ∧
      piece.Fits front (c :: s) := by
  have hstop := stop_eq_of_isAscii (Lexeme.isAscii_of_punctuation?_some h) front
  have hbehind : (octets (front ++ c :: s)).drop (byteLength front + 1) = octets s := by
    rw [← hstop, List.append_cons front c s, drop_octets]
  by_cases hmark : mark = .armEnd
  · subst hmark
    obtain ⟨rfl, d, s, hd, rfl⟩ := Lexeme.exists_of_armEnd h
    have hascii : isAscii d = true := by rcases hd with rfl | rfl <;> decide
    have hstop₂ : byteLength (front ++ [';', d]) = byteLength front + 2 := by
      rw [List.append_cons front, stop_eq_of_isAscii hascii, hstop]
    refine ⟨⟨byteLength front, byteLength (front ++ [';', d]), some .armEnd⟩, ?_, ?_⟩
    · simp only [at?, hbreak, hbehind, Lexeme.punctuation?_octets, h, hstop₂]
      rfl
    · have hsplit : ';' :: d :: s = [';', d] ++ s := rfl
      exact .intro (List.cons_ne_nil ';' [d]) hsplit (Lexeme.ofCode_armEnd hd s)
  · refine ⟨⟨byteLength front, byteLength (front ++ [c]), some mark⟩, ?_, ?_⟩
    · simp only [at?, hbreak, hbehind, Lexeme.punctuation?_octets, h, hstop]
      rfl
    · have hsplit : c :: s = [c] ++ s := rfl
      exact .intro (List.cons_ne_nil c []) hsplit (Lexeme.ofCode_mark hbreak h hmark)

/-- A word is cut at its first byte and behind its last one, whatever octet `d` it starts with. -/
theorem exists_at?_of_word {d : Char} (hc : Lexeme.isWordChar c = true)
    (hd : Lexeme.isWordChar d = true) (front s : List Char) :
    ∃ piece, at? (front ++ c :: s) (byteLength front) d = some piece ∧
      piece.Fits front (c :: s) := by
  let word := (c :: s).takeWhile Lexeme.isWordChar
  let onward := (c :: s).dropWhile Lexeme.isWordChar
  have hsplit : c :: s = word ++ onward := List.takeWhile_append_dropWhile.symm
  have hne : word ≠ [] := by simp [word, hc]
  have hrun : ((octets (front ++ c :: s)).drop (byteLength front)).takeWhile Lexeme.isWordChar =
      octets word := by
    rw [drop_octets, takeWhile_octets fun _ => Lexeme.isWordChar_of_not_isAscii]
  have hstop : byteLength front + (octets word).length = byteLength (front ++ word) := by
    rw [length_octets, byteLength_append]
  have htext : slice? (front ++ c :: s) (byteLength front) (byteLength (front ++ word)) =
      some word := by
    rw [hsplit, slice?_append]
  have honward : sliceFrom? (front ++ c :: s) (byteLength (front ++ word)) = some onward := by
    rw [hsplit, ← List.append_assoc, sliceFrom?_append]
  refine ⟨⟨byteLength front, byteLength (front ++ word),
    some (.word (String.ofList word) (Lexeme.startsWithParens onward))⟩, ?_, ?_⟩
  · simp only [at?, Lexeme.not_isWordBreak_of_isWordChar hd, Lexeme.punctuation?_of_isWordChar hd,
      hrun, hstop, htext, honward]
    rfl
  · refine .intro hne hsplit ?_
    rw [hsplit]
    refine Lexeme.ofCode_word hne (List.all_eq_true.mp List.all_takeWhile) fun e he => ?_
    have hhead := List.head?_dropWhile_not Lexeme.isWordChar (c :: s)
    rwa [he] at hhead

/-- **At every place of a line there is a piece**, and it is the next that the tracker reads. -/
theorem exists_at? (front s : List Char) (c : Char) :
    ∃ d piece, (octets (front ++ c :: s))[byteLength front]? = some d ∧
      at? (front ++ c :: s) (byteLength front) d = some piece ∧ piece.Fits front (c :: s) := by
  rw [getElem?_octets]
  cases hc : isAscii c with
  | true =>
      have hpiece : ∃ piece, at? (front ++ c :: s) (byteLength front) c = some piece ∧
          piece.Fits front (c :: s) := by
        cases hbreak : isWordBreak c with
        | true => exact exists_at?_of_blank hbreak front s
        | false =>
            cases hmark : Lexeme.punctuation? c s with
            | some mark => exact exists_at?_of_mark hbreak hmark front
            | none =>
                have hword := Lexeme.isWordChar_of_none hbreak hmark
                exact exists_at?_of_word hword hword front s
      obtain ⟨piece, hpiece, hfits⟩ := hpiece
      exact ⟨c, piece, by rw [octets_cons_of_isAscii hc, List.head?_cons], hpiece, hfits⟩
  | false =>
      -- The first octet is another character, but it belongs to a word as well.
      obtain ⟨d, ds, hds⟩ := List.exists_cons_of_ne_nil (octets_singleton_ne_nil c)
      have hd : isAscii d = false := not_isAscii_of_mem_octets hc (by simp [hds])
      obtain ⟨piece, hpiece, hfits⟩ := exists_at?_of_word (Lexeme.isWordChar_of_not_isAscii hc)
        (Lexeme.isWordChar_of_not_isAscii hd) front s
      refine ⟨d, piece, ?_, hpiece, hfits⟩
      rw [octets_cons, hds]
      rfl

/-- What a step does with its position. -/
structure Advances (code : List Char) (piece : Piece) : Prop where
  start_boundary : IsBoundary code piece.start
  start_lt_stop : piece.start < piece.stop
  stop_boundary : IsBoundary code piece.stop

/-- A piece that is the start of what follows `front` goes on further right. -/
theorem Fits.advances {piece : Piece} (h : piece.Fits front rest) :
    piece.Advances (front ++ rest) := by
  cases h with
  | @intro read onward lexeme hne hsplit hlexemes =>
      refine ⟨isBoundary_append front rest, ?_, ?_⟩
      · have hpos : byteLength read ≠ 0 := fun hzero => hne (byteLength_eq_zero_iff.mp hzero)
        show byteLength front < byteLength (front ++ read)
        rw [byteLength_append]
        omega
      · rw [hsplit, ← List.append_assoc]
        exact isBoundary_append (front ++ read) onward

/-- The pieces from byte `pos` to the end of a line: each starts where the one before ends. -/
def Tile (code : List Char) : Nat → List Piece → Prop
  | pos, [] => pos = byteLength code
  | pos, piece :: pieces => piece.start = pos ∧ piece.Advances code ∧ Tile code piece.stop pieces

namespace Tile
variable {code : List Char} {pos : Nat} {pieces : List Piece}

theorem advances (h : Tile code pos pieces) : ∀ piece ∈ pieces, piece.Advances code := by
  induction pieces generalizing pos with
  | nil => simp
  | cons piece pieces ih =>
      obtain ⟨-, hadvances, hpieces⟩ := h
      exact List.forall_mem_cons.mpr ⟨hadvances, ih hpieces⟩

/-- Each piece starts where the one before ends. -/
theorem isChain (h : Tile code pos pieces) :
    pieces.IsChain fun piece piece' => piece.stop = piece'.start := by
  induction pieces generalizing pos with
  | nil => exact .nil
  | cons piece pieces ih =>
      obtain ⟨-, -, hpieces⟩ := h
      refine List.isChain_cons.mpr ⟨fun piece' hpiece' => ?_, ih hpieces⟩
      cases pieces with
      | nil => cases hpiece'
      | cons piece'' pieces =>
          cases hpiece'
          exact hpieces.1.symm

end Tile

end Piece

/-! ## All pieces of a line -/

namespace Cursor
variable {k k' : Cursor} {code : List Char} {pos : Nat} {piece : Piece} {pieces : List Piece}

theorem runAt?_of_piece {c : Char} {calls : List String} (hc : (octets code)[pos]? = some c)
    (hpiece : Piece.at? code pos c = some piece)
    (hpieces : (k.run piece.lexeme.toList).1.runAt? code piece.stop = some (pieces, k', calls)) :
    k.runAt? code pos = some (piece :: pieces, k', (k.run piece.lexeme.toList).2 ++ calls) := by
  rw [runAt?]
  split
  · next hnone =>
      rw [hc] at hnone
      cases hnone
  · next d hd =>
      obtain rfl := Option.some.inj (hc.symm.trans hd)
      split
      · next hnone =>
          rw [hpiece] at hnone
          cases hnone
      · next piece' hpiece' =>
          obtain rfl := Option.some.inj (hpiece.symm.trans hpiece')
          exact congrArg (Option.map _) hpieces

/-- **The pieces of a line have the result of the tracker**, and they stand side by side. -/
theorem exists_runAt? (k : Cursor) (front rest : List Char) :
    ∃ pieces, k.runAt? (front ++ rest) (byteLength front) =
        some (pieces, k.run (Lexeme.ofCode rest)) ∧
      Piece.Tile (front ++ rest) (byteLength front) pieces := by
  induction hlength : rest.length using Nat.strongRecOn generalizing k front rest with
  | _ n ih =>
  cases rest with
  | nil =>
      refine ⟨[], ?_, by simp [Piece.Tile]⟩
      rw [runAt?, getElem?_octets]
      rfl
  | cons c s =>
      obtain ⟨d, piece, hd, hpiece, hfits⟩ := Piece.exists_at? front s c
      have hadvances := hfits.advances
      cases hfits with
      | @intro read onward lexeme hne hsplit hlexemes =>
          have hshorter : onward.length < n := by
            have hpos := List.length_pos_of_ne_nil hne
            rw [← hlength, hsplit, List.length_append]
            omega
          obtain ⟨pieces, hpieces, htile⟩ :=
            ih onward.length hshorter (k.run lexeme.toList).1 (front ++ read) onward rfl
          rw [List.append_assoc, ← hsplit] at hpieces htile
          refine ⟨_ :: pieces, ?_, rfl, hadvances, htile⟩
          rw [runAt?_of_piece hd hpiece hpieces, hlexemes, run_append]

end Cursor

end ShellIndex.Call
