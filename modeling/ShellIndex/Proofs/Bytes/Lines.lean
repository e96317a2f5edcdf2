import ShellIndex.Proofs.Bytes.Lexemes
import ShellIndex.Proofs.Bytes.Rounds

set_option autoImplicit false

/-! # Lines by byte positions

A line is read twice: for definitions in rounds, and for calls lexeme by lexeme. Both readers can
work on positions in the bytes of the line (`Progress.readBytes?`, `Tracker.readBytes?`). They never
cut a line within a character or behind its end, every round and every piece goes on further right,
and the results are those of `Progress.readLine` and `Tracker.readLine`.
-/

namespace ShellIndex

open Text Source Definition Call

/-! ## Definitions -/

namespace Definition.Progress

/-- The rounds of a line and its result. Where the brace of a body is expected the rounds start
behind it, and there is none if the line holds nothing or something else. -/
def readBytes? (p : Progress) (file : String) (above : List Line) (l : Line) :
    Option (List Round × Except Fault Progress) :=
  match p.phase with
  | .awaiting o =>
      let trimmed := trimStart l.code
      match trimmed.head? with
      | none => some ([], .ok p)
      | some '{' =>
          (p.openBody o).roundsAt? file above l (byteLength l.code - byteLength trimmed + 1)
      | some _ => some ([], .error (.missingBrace o.name))
  | _ => p.roundsAt? file above l 0

variable {p : Progress} {l : Line}

theorem readBytes?_of_ne_awaiting (hphase : ∀ o, p.phase ≠ .awaiting o) (file : String)
    (above : List Line) : p.readBytes? file above l = p.roundsAt? file above l 0 := by
  unfold readBytes?
  split
  · next o ho => exact absurd ho (hphase o)
  · rfl

/-- Behind the brace of a body the line is read in rounds. -/
theorem readBytes?_of_brace {o : Opening} {blanks onward : List Char}
    (hphase : p.phase = .awaiting o) (hblank : allBlank blanks = true)
    (hcode : l.code = blanks ++ '{' :: onward) (file : String) (above : List Line) :
    p.readBytes? file above l =
      (p.openBody o).roundsAt? file above l (byteLength (blanks ++ ['{'])) := by
  have htrim : trimStart l.code = '{' :: onward := by
    rw [hcode, trimStart, List.dropWhile_append_of_pos (List.all_eq_true.mp hblank)]
    rfl
  have hpos : byteLength l.code - byteLength ('{' :: onward) + 1 =
      byteLength (blanks ++ ['{']) := by
    have hone : byteLength ['{'] = 1 := by decide
    rw [hcode, byteLength_append, byteLength_append, hone, Nat.add_sub_cancel]
  simp only [readBytes?, hphase, htrim, List.head?_cons, hpos]

/-- A line is read in rounds from a place on, or it has no round. -/
theorem readBytes?_cases (p : Progress) (file : String) (above : List Line) (l : Line) :
    (p.readBytes? file above l = some ([], p.readLine file above l) ∧
      ∀ q, p.readLine file above l = .ok q → q.found = p.found) ∨
    ∃ (p' : Progress) (front onward : List Char), p'.found = p.found ∧ l.code = front ++ onward ∧
      afterDollar front = false ∧
      p.readBytes? file above l = p'.roundsAt? file above l (byteLength front) ∧
      p.readLine file above l =
        p'.readRounds file l.number (Point.opening ⟨above, l, front, onward⟩) onward := by
  by_cases hphase : ∃ o, p.phase = .awaiting o
  · obtain ⟨o, hphase⟩ := hphase
    obtain ⟨blanks, hblank, hcode⟩ := exists_blank_append_trimStart l.code
    cases htrim : trimStart l.code with
    | nil =>
        refine .inl ⟨by simp [readBytes?, readLine, hphase, htrim], fun q hq => ?_⟩
        simp only [readLine, hphase, htrim] at hq
        cases hq
        rfl
    | cons c onward =>
        rw [htrim] at hcode
        by_cases hbrace : c = '{'
        · subst hbrace
          refine .inr ⟨p.openBody o, blanks ++ ['{'], onward, rfl, ?_, ?_, ?_, ?_⟩
          · rw [hcode, List.append_cons]
          · rw [afterDollar_append_singleton]
            rfl
          · exact readBytes?_of_brace hphase hblank hcode file above
          · rw [readLine_of_brace hphase hblank hcode, Point.opening_of_front_ne_nil (by simp)]
        · refine .inl ⟨by simp [readBytes?, readLine, hphase, htrim, hbrace], fun q hq => ?_⟩
          simp [readLine, hphase, htrim, hbrace] at hq
  · have hphase : ∀ o, p.phase ≠ .awaiting o := fun o ho => hphase ⟨o, ho⟩
    refine .inr ⟨p, [], l.code, rfl, rfl, rfl, readBytes?_of_ne_awaiting hphase file above, ?_⟩
    exact readLine_of_ne_awaiting hphase file above l

end Definition.Progress

/-! ## Calls -/

namespace Call.Tracker

/-- The pieces of a line and its result. -/
def readBytes? (t : Tracker) (code : List Char) :
    Option (List Piece × Tracker × List String) := do
  let (pieces, k, calls) ← t.startLine.runAt? code 0
  return (pieces, endLine k code, calls)

/-- The pieces of a line have the result of the tracker. -/
theorem exists_readBytes? (t : Tracker) (code : List Char) :
    ∃ pieces, t.readBytes? code = some (pieces, t.readLine code) ∧ Piece.Tile code 0 pieces := by
  obtain ⟨pieces, hpieces, htile⟩ := t.startLine.exists_runAt? [] code
  refine ⟨pieces, ?_, htile⟩
  have hrun : t.startLine.runAt? code 0 =
      some (pieces, t.startLine.run (Lexeme.ofCode code)) := hpieces
  rw [readBytes?, hrun]
  rfl

end Call.Tracker

/-! ## Both -/

/-- **A line is read in finitely many steps, and cut only between two characters.** A round that
does not leave the line goes on behind a brace that has closed a body, and thus at most one header
more is recognised than bodies are closed. No piece is empty. -/
theorem every_line_read_in_bounds (p : Progress) (t : Tracker) (file : String) (above : List Line)
    (l : Line) :
    (∃ rounds, p.readBytes? file above l = some (rounds, p.readLine file above l) ∧
      (∀ round ∈ rounds, round.Advances l.code) ∧
      (rounds.IsChain fun round round' => ∃ q brace, round.turn = .again q brace round'.start) ∧
      (rounds.filterMap Round.brace?).Pairwise (· < ·) ∧
      (∀ q, p.readLine file above l = .ok q →
        q.found.length = p.found.length + (rounds.filterMap Round.brace?).length) ∧
      (rounds.filterMap Round.header).length ≤ (rounds.filterMap Round.brace?).length + 1) ∧
    ∃ pieces, t.readBytes? l.code = some (pieces, t.readLine l.code) ∧
      (∀ piece ∈ pieces, piece.Advances l.code) ∧
      pieces.IsChain fun piece piece' => piece.stop = piece'.start := by
  constructor
  · rcases p.readBytes?_cases file above l with
      ⟨hbytes, hfound⟩ | ⟨p', front, onward, hfound, hcode, hdollar, hbytes, hline⟩
    · exact ⟨[], hbytes, by simp, .nil, .nil, fun q hq => by simp [hfound q hq], by simp⟩
    · let pt : Point := ⟨above, l, front, onward⟩
      have hpt : pt.line.code = pt.front ++ pt.onward := hcode
      have hboundary : IsBoundary l.code (byteLength front) := by
        rw [hcode]
        exact isBoundary_append front onward
      obtain ⟨rounds, hrounds⟩ := p'.exists_roundsAt? file hpt hdollar
      have hsuccession := Progress.inSuccession_of_roundsAt? hrounds hboundary
      rw [hbytes, hline]
      refine ⟨rounds, hrounds, hsuccession.advances, hsuccession.isChain,
        hsuccession.sorted_braces.1, fun q hq => ?_, ?_⟩
      · rw [hq] at hrounds
        rw [← hfound]
        exact Progress.length_found_of_roundsAt? hrounds
      · rw [← hsuccession.length_eq]
        exact List.length_filterMap_le _ _
  · obtain ⟨pieces, hpieces, htile⟩ := t.exists_readBytes? l.code
    exact ⟨pieces, hpieces, htile.advances, htile.isChain⟩

end ShellIndex
