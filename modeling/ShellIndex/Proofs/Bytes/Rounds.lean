import Mathlib.Data.List.Chain
import ShellIndex.Proofs.Bytes.Octets
import ShellIndex.Proofs.Definition.Stages

set_option autoImplicit false

/-! # The rounds of a line by byte positions

The rounds in which a line is read, with positions in its bytes in place of what is left of it: a
header is looked for in the text from a byte on, braces are counted byte by byte, and the next
round starts at the byte behind the separators. A round that does not leave the line goes on
further right, which is why the rounds end (`Progress.lt_of_roundAt?`, `Progress.roundsAt?`).

Nothing in this says that a text is cut only where it can be cut. But it is: a round of the reader
starts between two characters and not behind a dollar sign, and from such a place a round by byte
positions comes to what the reader comes to, and goes on from such a place
(`Progress.exists_roundAt?`). Hence the rounds have the result of the reader
(`Progress.exists_roundsAt?`).
-/

namespace ShellIndex.Definition

open Text Source

/-! ## Rounds -/

/-- How a round ends. -/
inductive Turn where
  /-- The line is left with a result. -/
  | leave (result : Except Fault Progress)
  /-- The brace at byte `brace` closes the body, and the next round starts at byte `next`. -/
  | again (p : Progress) (brace next : Nat)

/-- One round of reading a line. -/
structure Round where
  /-- The byte at which it starts. -/
  start : Nat
  /-- The header that it recognises. -/
  header : Option Header
  /-- The byte from which on braces are counted: the one behind the header, if there is one. -/
  behind : Nat
  /-- Whether a body is open when braces are counted. -/
  inBody : Bool
  /-- How it ends. -/
  turn : Turn

/-- The byte of the brace that closes the body. -/
def Round.brace? (round : Round) : Option Nat :=
  match round.turn with
  | .leave _ => none
  | .again _ brace _ => some brace

theorem Round.brace?_of_leave {round : Round} {result : Except Fault Progress}
    (h : round.turn = .leave result) : round.brace? = none := by
  rw [brace?, h]

theorem Round.brace?_of_again {round : Round} {p : Progress} {brace next : Nat}
    (h : round.turn = .again p brace next) : round.brace? = some brace := by
  rw [brace?, h]

namespace Progress

/-- Counts the braces of a line byte by byte from `pos` on, and passes over the separators behind
the one that closes the body. -/
def countAt? (p : Progress) (file : String) (l : Line) (pos : Nat) : Option Turn :=
  let os := octets l.code
  match p.braces.scan p.outer? (afterDollar (os.take pos)) (os.drop pos) with
  | (braces, none) => some (.leave (.ok { p with braces }))
  | (braces, some behind) =>
      let stop := os.length - behind.length
      (sliceFrom? l.code stop).map fun rest =>
        .again { p.closeBody file l.number with braces } (stop - 1)
          (stop + byteLength rest - byteLength (skipSeparators rest))

/-- The round that starts at byte `pos` of a line. -/
def roundAt? (p : Progress) (file : String) (above : List Line) (l : Line) (pos : Nat) :
    Option Round :=
  match p.phase with
  | .outside =>
      (sliceFrom? l.code pos).bind fun text =>
        match Header.read? text with
        | none => (p.countAt? file l pos).map (Round.mk pos none pos p.outer?.isSome)
        | some header =>
            let o := if pos = 0 then Opening.below above l.number header.name
              else Opening.bare l.number header.name
            let stop := pos + byteLength text - byteLength header.rest
            if header.opensBody then
              ((p.openBody o).countAt? file l stop).map
                (Round.mk pos (some header) stop (p.openBody o).outer?.isSome)
            else
              (sliceFrom? l.code stop).map fun rest =>
                ⟨pos, some header, stop, p.outer?.isSome, .leave <|
                  if allBlank rest then .ok { p with phase := .awaiting o }
                  else .error (.missingBrace o.name)⟩
  | _ => (p.countAt? file l pos).map (Round.mk pos none pos p.outer?.isSome)

end Progress

/-! ## Counting byte by byte -/

theorem afterDollar_octets (s : List Char) : afterDollar (octets s) = afterDollar s := by
  rw [Bool.eq_iff_iff]
  simp [afterDollar, getLast?_octets (a := '$') (by decide)]

namespace Braces
variable (b : Braces) (outer : Option Nat)

/-- Characters outside of ASCII are passed over. -/
theorem scan_append_of_not_isAscii (dollar : Bool) {s : List Char}
    (hs : ∀ c ∈ s, isAscii c = false) (hne : s ≠ []) (t : List Char) :
    b.scan outer dollar (s ++ t) = b.scan outer false t := by
  induction s generalizing dollar with
  | nil => exact absurd rfl hne
  | cons c s ih =>
      have hc := hs c List.mem_cons_self
      have hbrace : c ≠ '}' := ne_of_isAscii hc (by decide)
      have hstays : b.closesBody outer c = false := by simp [closesBody, hbrace]
      have hstep := b.step_of_ne dollar (ne_of_isAscii hc (by decide)) hbrace
      have hdollar : (c == '$') = false := by simp [ne_of_isAscii hc (a := '$') (by decide)]
      rw [List.cons_append, scan, if_neg (by simp [hstays]), hstep, hdollar]
      cases s with
      | nil => rfl
      | cons d s =>
          have hs' : ∀ e ∈ d :: s, isAscii e = false := fun e he => hs e (List.mem_cons_of_mem c he)
          exact ih false hs' (List.cons_ne_nil d s)

/-- Braces are the same among the octets of a text as in the text. -/
theorem scan_octets (dollar : Bool) (s : List Char) :
    b.scan outer dollar (octets s) =
      ((b.scan outer dollar s).1, (b.scan outer dollar s).2.map octets) := by
  induction s generalizing b dollar with
  | nil => rfl
  | cons c s ih =>
      cases hc : isAscii c with
      | true =>
          rw [octets_cons_of_isAscii hc, scan, scan]
          split
          · rfl
          · exact ih _ _
      | false =>
          have hchar := b.scan_append_of_not_isAscii outer dollar (s := [c]) (by simp [hc])
            (List.cons_ne_nil c []) s
          rw [List.singleton_append] at hchar
          rw [hchar, octets_cons, b.scan_append_of_not_isAscii outer dollar
            (fun d hd => not_isAscii_of_mem_octets hc hd) (octets_singleton_ne_nil c), ih]

variable {b outer}

/-- A body is closed by a brace, and it was open. -/
theorem exists_of_scan_some {dollar : Bool} {s behind : List Char} {b' : Braces}
    (h : b.scan outer dollar s = (b', some behind)) :
    outer.isSome = true ∧ ∃ read, s = read ++ '}' :: behind := by
  induction s generalizing b dollar with
  | nil => cases h
  | cons c s ih =>
      rw [scan] at h
      split at h
      · next hcloses =>
          obtain ⟨-, rfl⟩ : _ ∧ s = behind := by simpa using h
          simp only [closesBody, Bool.and_eq_true, beq_iff_eq] at hcloses
          obtain ⟨⟨rfl, -⟩, houter⟩ := hcloses
          refine ⟨?_, [], rfl⟩
          cases outer with
          | none => cases houter
          | some n => rfl
      · obtain ⟨houter, read, rfl⟩ := ih h
        exact ⟨houter, c :: read, rfl⟩

end Braces

/-! ## What a round does -/

theorem stop_eq {front onward read rest : List Char} (h : onward = read ++ rest) :
    byteLength front + byteLength onward - byteLength rest = byteLength (front ++ read) := by
  rw [h, byteLength_append, byteLength_append]
  omega

/-- What a header leaves is the end of the text. -/
theorem Header.exists_append {code : List Char} {header : Header} (h : read? code = some header) :
    ∃ read, code = read ++ header.rest := by
  obtain ⟨name, blanks, text, gap, -, -, -, -, hsplit⟩ := exists_headerText h
  cases hopens : header.opensBody with
  | true => exact ⟨blanks ++ (text ++ (gap ++ ['{'])), by rw [hsplit, hopens]; simp⟩
  | false => exact ⟨blanks ++ (text ++ gap), by rw [hsplit, hopens]; simp⟩

/-- Between bytes `pos` and `next` of a line the brace at byte `brace` is passed. -/
structure PassesBrace (code : List Char) (pos brace next : Nat) : Prop where
  le_brace : pos ≤ brace
  brace_lt : brace < next
  boundary : IsBoundary code next
  octet : (octets code)[brace]? = some '}'

/-- What a round does with its position. -/
structure Round.Advances (code : List Char) (round : Round) : Prop where
  boundary : IsBoundary code round.start
  start_le : round.start ≤ round.behind
  behind_boundary : IsBoundary code round.behind
  /-- Where no body is open the line is left. -/
  leaves : round.inBody = false → ∃ result, round.turn = .leave result
  /-- The next round starts further right, behind a brace. -/
  again : ∀ q brace next, round.turn = .again q brace next →
    PassesBrace code round.behind brace next

namespace Progress
variable {p q : Progress} {file : String} {above : List Line} {l : Line} {pos brace next : Nat}
variable {turn : Turn} {round : Round}

/-- Braces are counted to the end of the line, or an open body is closed and the next round starts
further right. -/
theorem countAt?_cases (h : p.countAt? file l pos = some turn) :
    (∃ braces, turn = .leave (.ok { p with braces })) ∨
      p.outer?.isSome = true ∧ ∃ braces brace next,
        turn = .again { p.closeBody file l.number with braces } brace next ∧
          PassesBrace l.code pos brace next := by
  unfold countAt? at h
  dsimp only at h
  split at h
  · cases h
    exact .inl ⟨_, rfl⟩
  · next braces behind hscan =>
      obtain ⟨rest, hslice, rfl⟩ := Option.map_eq_some_iff.mp h
      obtain ⟨houter, read, hread⟩ := Braces.exists_of_scan_some hscan
      obtain ⟨front, hcode, hfront⟩ := exists_of_sliceFrom? hslice
      obtain ⟨separators, hseparators⟩ := exists_separators rest
      -- The brace is one byte, and it stands right before what is behind it.
      have hlength := congrArg List.length hread
      simp only [List.length_drop, List.length_append, List.length_cons] at hlength
      have hstop : (octets l.code).length - behind.length = pos + read.length + 1 := by omega
      have hoctet : (octets l.code)[pos + read.length]? = some '}' := by
        rw [← List.getElem?_drop, hread]
        simp
      have hnext : byteLength front + byteLength rest - byteLength (skipSeparators rest) =
          byteLength (front ++ separators) := stop_eq hseparators
      refine .inr ⟨houter, braces, _, _, rfl, ?_⟩
      rw [← hfront, hnext, hfront, hstop, Nat.add_sub_cancel]
      refine ⟨Nat.le_add_right _ _, ?_, ?_, hoctet⟩
      · rw [byteLength_append, hfront, hstop]
        omega
      · rw [hcode, hseparators, ← List.append_assoc]
        exact isBoundary_append _ _

/-- A round counts braces from behind its header on, or it leaves the line there. No body is closed
before. -/
theorem roundAt?_cases (h : p.roundAt? file above l pos = some round) :
    round.start = pos ∧ pos ≤ round.behind ∧
      (IsBoundary l.code pos → IsBoundary l.code round.behind) ∧
      ((∃ p' : Progress, p'.found = p.found ∧ round.inBody = p'.outer?.isSome ∧
          p'.countAt? file l round.behind = some round.turn) ∨
        ∃ result, round.turn = .leave result ∧ ∀ q, result = .ok q → q.found = p.found) := by
  unfold roundAt? at h
  split at h
  · obtain ⟨text, hslice, h⟩ := Option.bind_eq_some_iff.mp h
    split at h
    · obtain ⟨turn, hcount, rfl⟩ := Option.map_eq_some_iff.mp h
      exact ⟨rfl, Nat.le_refl _, id, .inl ⟨p, rfl, rfl, hcount⟩⟩
    · next header hread =>
        obtain ⟨front, hcode, rfl⟩ := exists_of_sliceFrom? hslice
        obtain ⟨read, hsplit⟩ := Header.exists_append hread
        have hstop : byteLength front + byteLength text - byteLength header.rest =
            byteLength (front ++ read) := stop_eq hsplit
        have hle : byteLength front ≤ byteLength (front ++ read) := by
          rw [byteLength_append]
          exact Nat.le_add_right _ _
        have hboundary : IsBoundary l.code (byteLength (front ++ read)) := by
          rw [hcode, hsplit, ← List.append_assoc]
          exact isBoundary_append _ _
        dsimp only at h
        rw [hstop] at h
        split at h
        · obtain ⟨turn, hcount, rfl⟩ := Option.map_eq_some_iff.mp h
          exact ⟨rfl, hle, fun _ => hboundary, .inl ⟨p.openBody _, rfl, rfl, hcount⟩⟩
        · obtain ⟨rest, -, rfl⟩ := Option.map_eq_some_iff.mp h
          refine ⟨rfl, hle, fun _ => hboundary, .inr ⟨_, rfl, fun q hq => ?_⟩⟩
          split at hq <;> cases hq
          rfl
  · obtain ⟨turn, hcount, rfl⟩ := Option.map_eq_some_iff.mp h
    exact ⟨rfl, Nat.le_refl _, id, .inl ⟨p, rfl, rfl, hcount⟩⟩

/-- A round that does not leave the line closes a body. -/
theorem exists_of_again (h : p.roundAt? file above l pos = some round)
    (hturn : round.turn = .again q brace next) :
    PassesBrace l.code round.behind brace next ∧ q.found.length = p.found.length + 1 := by
  obtain ⟨-, -, -, hcases⟩ := roundAt?_cases h
  rw [hturn] at hcases
  rcases hcases with ⟨p', hfound, -, hcount⟩ | ⟨result, hresult, -⟩
  · rcases countAt?_cases hcount with ⟨braces, hresult⟩ | ⟨houter, braces, _, _, hagain, hpasses⟩
    · cases hresult
    · obtain ⟨rfl, rfl, rfl⟩ := Turn.again.inj hagain
      refine ⟨hpasses, ?_⟩
      rw [← hfound]
      cases hphase : p'.phase with
      | inside o outer => simp [closeBody, hphase]
      | outside => simp [outer?, hphase] at houter
      | awaiting o => simp [outer?, hphase] at houter
  · cases hresult

theorem found_of_leave (h : p.roundAt? file above l pos = some round)
    (hturn : round.turn = .leave (.ok q)) : q.found = p.found := by
  obtain ⟨-, -, -, hcases⟩ := roundAt?_cases h
  rw [hturn] at hcases
  rcases hcases with ⟨p', hfound, -, hcount⟩ | ⟨result, hresult, hfound⟩
  · rcases countAt?_cases hcount with ⟨braces, hresult⟩ | ⟨-, braces, _, _, hagain, -⟩
    · cases hresult
      exact hfound
    · cases hagain
  · exact hfound q (Turn.leave.inj hresult).symm

/-- A round that does not leave the line is followed by one further right, within the line. -/
theorem lt_of_roundAt? (h : p.roundAt? file above l pos = some round)
    (hturn : round.turn = .again q brace next) : pos < next ∧ next ≤ byteLength l.code := by
  obtain ⟨-, hle, -⟩ := roundAt?_cases h
  obtain ⟨hpasses, -⟩ := exists_of_again h hturn
  have hbrace := hpasses.le_brace
  have hnext := hpasses.brace_lt
  exact ⟨by omega, hpasses.boundary.le⟩

/-- **A round advances.** -/
theorem advances_of_roundAt? (h : p.roundAt? file above l pos = some round)
    (hpos : IsBoundary l.code pos) : round.Advances l.code := by
  obtain ⟨rfl, hle, hbehind, hcases⟩ := roundAt?_cases h
  refine ⟨hpos, hle, hbehind hpos, fun hin => ?_, fun q brace next hturn => ?_⟩
  · rcases hcases with ⟨p', -, hbody, hcount⟩ | ⟨result, hturn, -⟩
    · rcases countAt?_cases hcount with ⟨braces, hturn⟩ | ⟨houter, -⟩
      · exact ⟨_, hturn⟩
      · rw [hbody, houter] at hin
        cases hin
    · exact ⟨result, hturn⟩
  · exact (exists_of_again h hturn).1

end Progress

/-! ## All rounds of a line -/

/-- The rounds from byte `pos` of a line on, and the result of the line. There is none if a text is
cut where it cannot be. -/
def Progress.roundsAt? (p : Progress) (file : String) (above : List Line) (l : Line) (pos : Nat) :
    Option (List Round × Except Fault Progress) :=
  match _started : p.roundAt? file above l pos with
  | none => none
  | some round =>
      match _turned : round.turn with
      | .leave result => some ([round], result)
      | .again q _ next =>
          (q.roundsAt? file above l next).map fun (rounds, result) => (round :: rounds, result)
termination_by byteLength l.code - pos
decreasing_by
  have hnext := Progress.lt_of_roundAt? _started _turned
  omega

/-- The rounds from byte `pos` on: each starts where the one before goes on, and the last one leaves
the line. -/
inductive InSuccession (code : List Char) : Nat → List Round → Prop
  | last {round : Round} {result : Except Fault Progress} (h : round.Advances code)
      (hturn : round.turn = .leave result) : InSuccession code round.start [round]
  | cons {round : Round} {rounds : List Round} {q : Progress} {brace next : Nat}
      (h : round.Advances code) (hturn : round.turn = .again q brace next)
      (hrounds : InSuccession code next rounds) : InSuccession code round.start (round :: rounds)

namespace Progress
variable {p q : Progress} {file : String} {above : List Line} {l : Line} {pos brace next : Nat}
variable {round : Round} {rounds : List Round} {result : Except Fault Progress}

theorem roundsAt?_eq (p : Progress) (file : String) (above : List Line) (l : Line) (pos : Nat) :
    p.roundsAt? file above l pos =
      (p.roundAt? file above l pos).bind fun round =>
        match round.turn with
        | .leave result => some ([round], result)
        | .again q _ next =>
            (q.roundsAt? file above l next).map fun (rounds, result) =>
              (round :: rounds, result) := by
  rw [roundsAt?]
  split
  · next hround => rw [hround, Option.bind_none]
  · next round hround =>
      rw [hround, Option.bind_some]
      split <;> simp_all

theorem roundsAt?_of_leave (hround : p.roundAt? file above l pos = some round)
    (hturn : round.turn = .leave result) :
    p.roundsAt? file above l pos = some ([round], result) := by
  rw [roundsAt?_eq, hround, Option.bind_some, hturn]

theorem roundsAt?_of_again (hround : p.roundAt? file above l pos = some round)
    (hturn : round.turn = .again q brace next)
    (hrounds : q.roundsAt? file above l next = some (rounds, result)) :
    p.roundsAt? file above l pos = some (round :: rounds, result) := by
  rw [roundsAt?_eq, hround, Option.bind_some, hturn]
  exact congrArg (Option.map _) hrounds

/-- The first round of a line leaves it, or the others follow. -/
theorem roundsAt?_cases (h : p.roundsAt? file above l pos = some (rounds, result)) :
    ∃ round, p.roundAt? file above l pos = some round ∧
      ((round.turn = .leave result ∧ rounds = [round]) ∨
        ∃ q brace next rounds', round.turn = .again q brace next ∧ rounds = round :: rounds' ∧
          q.roundsAt? file above l next = some (rounds', result)) := by
  rw [roundsAt?_eq] at h
  obtain ⟨round, hround, h⟩ := Option.bind_eq_some_iff.mp h
  refine ⟨round, hround, ?_⟩
  split at h
  · next hturn =>
      cases h
      exact .inl ⟨hturn, rfl⟩
  · next q brace next hturn =>
      obtain ⟨⟨rounds', result'⟩, hrounds, h⟩ := Option.map_eq_some_iff.mp h
      cases h
      exact .inr ⟨q, brace, next, rounds', hturn, rfl, hrounds⟩

theorem rounds_ne_nil (h : p.roundsAt? file above l pos = some (rounds, result)) :
    rounds ≠ [] := by
  obtain ⟨round, -, ⟨-, rfl⟩ | ⟨q, brace, next, rounds', -, rfl, -⟩⟩ := roundsAt?_cases h
  · exact List.cons_ne_nil round []
  · exact List.cons_ne_nil round rounds'

/-- **All rounds of a line advance**, one behind the other. -/
theorem inSuccession_of_roundsAt? (h : p.roundsAt? file above l pos = some (rounds, result))
    (hpos : IsBoundary l.code pos) : InSuccession l.code pos rounds := by
  induction rounds generalizing p pos with
  | nil => exact absurd rfl (rounds_ne_nil h)
  | cons round rounds ih =>
      obtain ⟨round', hround, hcases⟩ := roundsAt?_cases h
      have hadvances := advances_of_roundAt? hround hpos
      obtain ⟨hstart, -⟩ := roundAt?_cases hround
      rw [← hstart]
      rcases hcases with ⟨hturn, hrounds⟩ | ⟨q, brace, next, rounds', hturn, hrounds, hnext⟩
      · obtain ⟨rfl, rfl⟩ := List.cons.inj hrounds
        exact .last hadvances hturn
      · obtain ⟨rfl, rfl⟩ := List.cons.inj hrounds
        have hboundary := (hadvances.again q brace next hturn).boundary
        exact .cons hadvances hturn (ih hnext hboundary)

/-- Each brace that ends a round yields one definition. -/
theorem length_found_of_roundsAt? (h : p.roundsAt? file above l pos = some (rounds, .ok q)) :
    q.found.length = p.found.length + (rounds.filterMap Round.brace?).length := by
  induction rounds generalizing p pos with
  | nil => exact absurd rfl (rounds_ne_nil h)
  | cons round rounds ih =>
      obtain ⟨round', hround, hcases⟩ := roundsAt?_cases h
      rcases hcases with ⟨hturn, hrounds⟩ | ⟨q', brace, next, rounds', hturn, hrounds, hnext⟩
      · obtain ⟨rfl, rfl⟩ := List.cons.inj hrounds
        simp [Round.brace?_of_leave hturn, found_of_leave hround hturn]
      · obtain ⟨rfl, rfl⟩ := List.cons.inj hrounds
        rw [ih hnext, (exists_of_again hround hturn).2,
          List.filterMap_cons_some (Round.brace?_of_again hturn), List.length_cons]
        omega

end Progress

namespace InSuccession
variable {code : List Char} {pos : Nat} {rounds : List Round}

theorem advances (h : InSuccession code pos rounds) : ∀ round ∈ rounds, round.Advances code := by
  induction h with
  | last h hturn => simpa using h
  | cons h hturn hrounds ih => exact List.forall_mem_cons.mpr ⟨h, ih⟩

theorem head?_start (h : InSuccession code pos rounds) :
    rounds.head?.map Round.start = some pos := by
  cases h <;> rfl

/-- Each round starts where the one before goes on. -/
theorem isChain (h : InSuccession code pos rounds) :
    rounds.IsChain fun round round' => ∃ q brace, round.turn = .again q brace round'.start := by
  induction h with
  | last h hturn => exact .singleton _
  | @cons round rounds q brace next h hturn hrounds ih =>
      refine List.isChain_cons.mpr ⟨fun round' hround' => ⟨q, brace, ?_⟩, ih⟩
      have hstart := hrounds.head?_start
      rw [hround', Option.map_some, Option.some.injEq] at hstart
      rw [hturn, hstart]

/-- The braces that close bodies stand one behind the other. -/
theorem sorted_braces (h : InSuccession code pos rounds) :
    (rounds.filterMap Round.brace?).Pairwise (· < ·) ∧
      ∀ brace ∈ rounds.filterMap Round.brace?, pos ≤ brace := by
  induction h with
  | last h hturn => simp [Round.brace?_of_leave hturn]
  | @cons round rounds q brace next h hturn hrounds ih =>
      have hpasses := h.again q brace next hturn
      have hle := Nat.le_trans h.start_le hpasses.le_brace
      rw [List.filterMap_cons_some (Round.brace?_of_again hturn)]
      refine ⟨List.pairwise_cons.mpr ⟨fun brace' hmem => ?_, ih.1⟩, ?_⟩
      · exact Nat.lt_of_lt_of_le hpasses.brace_lt (ih.2 brace' hmem)
      · refine List.forall_mem_cons.mpr ⟨hle, fun brace' hmem => ?_⟩
        exact Nat.le_trans hle (Nat.le_trans hpasses.brace_lt.le (ih.2 brace' hmem))

/-- Every round but the last closes a body. -/
theorem length_eq (h : InSuccession code pos rounds) :
    rounds.length = (rounds.filterMap Round.brace?).length + 1 := by
  induction h with
  | last h hturn => simp [Round.brace?_of_leave hturn]
  | @cons round rounds q brace next h hturn hrounds ih =>
      rw [List.filterMap_cons_some (Round.brace?_of_again hturn), List.length_cons,
        List.length_cons, ih]

end InSuccession

/-! ## The rounds of the reader -/

/-- A turn by which the rest of a line comes to `result`: the line is left with it, or the next
round starts behind a brace and its separators, and the reader comes to it from there. -/
inductive Turn.Fits (file : String) (pt : Point) (result : Except Fault Progress) : Turn → Prop
  | leave : Turn.Fits file pt result (.leave result)
  | again {q : Progress} {read separators onward : List Char}
      (hcode : pt.onward = read ++ '}' :: (separators ++ onward))
      (hskip : skipSeparators (separators ++ onward) = onward)
      (hread : q.readRounds file pt.line.number (Opening.bare pt.line.number) onward = result) :
      Turn.Fits file pt result
        (.again q (byteLength (pt.front ++ read))
          (byteLength (pt.front ++ (read ++ '}' :: separators))))

/-- A turn from further right is a turn from before. -/
theorem Turn.Fits.of_moved {file : String} {pt : Point} {result : Except Fault Progress}
    {turn : Turn} {read rest : List Char} (h : turn.Fits file (pt.moved read rest) result)
    (hcode : pt.onward = read ++ rest) : turn.Fits file pt result := by
  cases h with
  | leave => exact .leave
  | @again q read' separators onward hrest hskip hread =>
      have hsplit : pt.onward = (read ++ read') ++ '}' :: (separators ++ onward) := by
        rw [hcode, List.append_assoc]
        exact congrArg (read ++ ·) hrest
      have h := Turn.Fits.again hsplit hskip hread
      rw [List.append_assoc] at h
      rw [Point.moved, List.append_assoc, List.append_assoc]
      exact h

/-- The opening for a header at a place tells by its position whether it takes the comment above. -/
theorem Point.opening_eq (pt : Point) (name : List Char) :
    pt.opening name = if byteLength pt.front = 0 then Opening.below pt.above pt.line.number name
      else Opening.bare pt.line.number name := by
  simp only [byteLength_eq_zero_iff, Point.opening]

namespace Progress
variable {p : Progress} {pt : Point}

/-- Behind a place that is not behind a dollar sign the braces among the octets are those of the
text. -/
theorem scan_onward (p : Progress) (hcode : pt.line.code = pt.front ++ pt.onward)
    (hdollar : afterDollar pt.front = false) :
    p.braces.scan p.outer? (afterDollar ((octets pt.line.code).take (byteLength pt.front)))
        ((octets pt.line.code).drop (byteLength pt.front)) =
      ((p.braces.scan p.outer? false pt.onward).1,
        (p.braces.scan p.outer? false pt.onward).2.map octets) := by
  rw [hcode, take_octets, drop_octets, afterDollar_octets, hdollar, Braces.scan_octets]

/-- Without a brace that closes the body the line is left. -/
theorem countAt?_of_open {braces : Braces} (hcode : pt.line.code = pt.front ++ pt.onward)
    (hdollar : afterDollar pt.front = false)
    (hscan : p.braces.scan p.outer? false pt.onward = (braces, none)) (file : String) :
    p.countAt? file pt.line (byteLength pt.front) = some (.leave (.ok { p with braces })) := by
  simp only [countAt?, p.scan_onward hcode hdollar, hscan, Option.map_none]

/-- Behind the brace that closes the body the next round starts after the separators. -/
theorem countAt?_of_closed {braces : Braces} {read separators behind : List Char}
    (hcode : pt.line.code = pt.front ++ pt.onward) (hdollar : afterDollar pt.front = false)
    (hscan : p.braces.scan p.outer? false pt.onward = (braces, some behind))
    (hread : pt.onward = read ++ '}' :: behind)
    (hseparators : behind = separators ++ skipSeparators behind) (file : String) :
    p.countAt? file pt.line (byteLength pt.front) =
      some (.again { p.closeBody file pt.line.number with braces }
        (byteLength (pt.front ++ read))
        (byteLength (pt.front ++ (read ++ '}' :: separators)))) := by
  have hstop : (octets pt.line.code).length - (octets behind).length =
      byteLength (pt.front ++ (read ++ ['}'])) := by
    rw [length_octets, length_octets, hcode, hread]
    simp only [byteLength_append, byteLength_cons, byteLength_nil]
    omega
  have hslice : sliceFrom? pt.line.code (byteLength (pt.front ++ (read ++ ['}']))) =
      some behind := by
    rw [hcode, hread, ← sliceFrom?_append (pt.front ++ (read ++ ['}'])) behind]
    simp
  have hbrace : byteLength (pt.front ++ (read ++ ['}'])) - 1 = byteLength (pt.front ++ read) := by
    have hone : byteLength ['}'] = 1 := by decide
    rw [← List.append_assoc, byteLength_append _ ['}'], hone, Nat.add_sub_cancel]
  have hnext : byteLength (pt.front ++ (read ++ ['}'])) + byteLength behind -
      byteLength (skipSeparators behind) =
        byteLength (pt.front ++ (read ++ '}' :: separators)) := by
    rw [stop_eq hseparators]
    simp
  simp only [countAt?, p.scan_onward hcode hdollar, hscan, Option.map_some, hstop, hslice, hbrace,
    hnext]

/-- Braces are counted to the end of the line or to the brace that closes the open body. -/
theorem exists_countAt? (p : Progress) (file : String)
    (hcode : pt.line.code = pt.front ++ pt.onward) (hdollar : afterDollar pt.front = false) :
    ∃ turn, p.countAt? file pt.line (byteLength pt.front) = some turn ∧
      turn.Fits file pt (p.countOn file pt.line.number false pt.onward) := by
  cases hscan : p.braces.scan p.outer? false pt.onward with
  | mk braces behind =>
  rw [countOn, hscan]
  cases behind with
  | none => exact ⟨_, countAt?_of_open hcode hdollar hscan file, .leave⟩
  | some behind =>
      obtain ⟨-, read, hread⟩ := Braces.exists_of_scan_some hscan
      obtain ⟨separators, hseparators⟩ := exists_separators behind
      refine ⟨_, countAt?_of_closed hcode hdollar hscan hread hseparators file, ?_⟩
      have hskip : skipSeparators (separators ++ skipSeparators behind) =
          skipSeparators behind := by
        rw [← hseparators]
      rw [hseparators] at hread
      exact .again hread hskip rfl

theorem readRounds_of_await {opening : List Char → Opening} {code : List Char} {header : Header}
    (hphase : p.phase = .outside) (hread : Header.read? code = some header)
    (hopens : header.opensBody = false) (file : String) (number : Nat) :
    p.readRounds file number opening code =
      if allBlank header.rest then
        .ok { p with phase := .awaiting (opening header.name) }
      else .error (.missingBrace (opening header.name).name) := by
  have hentry : p.enter opening code =
      if allBlank header.rest then
        .ok (.lineEnd { p with phase := .awaiting (opening header.name) })
      else .error (.missingBrace (opening header.name).name) := by
    rw [enter, hphase, hread]
    dsimp only
    rw [if_neg (by simp [hopens])]
  rw [readRounds_eq, hentry]
  cases allBlank header.rest <;> rfl

/-! The three ways in which a round can start. -/

theorem roundAt?_of_no_header (hcode : pt.line.code = pt.front ++ pt.onward)
    (h : p.phase = .outside → Header.read? pt.onward = none) (file : String) :
    p.roundAt? file pt.above pt.line (byteLength pt.front) =
      (p.countAt? file pt.line (byteLength pt.front)).map
        (Round.mk (byteLength pt.front) none (byteLength pt.front) p.outer?.isSome) := by
  unfold roundAt?
  split
  · next hphase => rw [hcode, sliceFrom?_append, Option.bind_some, h hphase]
  · rfl

theorem roundAt?_of_header {header : Header} {read : List Char}
    (hcode : pt.line.code = pt.front ++ pt.onward) (hphase : p.phase = .outside)
    (hread : Header.read? pt.onward = some header) (hopens : header.opensBody = true)
    (hsplit : pt.onward = read ++ header.rest) (file : String) :
    p.roundAt? file pt.above pt.line (byteLength pt.front) =
      ((p.openBody (pt.opening header.name)).countAt? file pt.line
        (byteLength (pt.front ++ read))).map (Round.mk (byteLength pt.front) (some header)
          (byteLength (pt.front ++ read)) (p.openBody (pt.opening header.name)).outer?.isSome) := by
  simp only [roundAt?, hphase, hcode, sliceFrom?_append, Option.bind_some, hread, hopens, if_true,
    ← pt.opening_eq, stop_eq hsplit]

theorem roundAt?_of_await {header : Header} {read : List Char}
    (hcode : pt.line.code = pt.front ++ pt.onward) (hphase : p.phase = .outside)
    (hread : Header.read? pt.onward = some header) (hopens : header.opensBody = false)
    (hsplit : pt.onward = read ++ header.rest) (file : String) :
    p.roundAt? file pt.above pt.line (byteLength pt.front) =
      some ⟨byteLength pt.front, some header, byteLength (pt.front ++ read), p.outer?.isSome,
        .leave (p.readRounds file pt.line.number pt.opening pt.onward)⟩ := by
  have hrest : sliceFrom? (pt.front ++ pt.onward) (byteLength (pt.front ++ read)) =
      some header.rest := by
    rw [hsplit, ← List.append_assoc, sliceFrom?_append]
  rw [readRounds_of_await hphase hread hopens]
  simp only [roundAt?, hphase, hcode, sliceFrom?_append, Option.bind_some, hread, hopens,
    ← pt.opening_eq, stop_eq hsplit, hrest, Option.map_some]
  rfl

/-- **There is a round at every place that is not behind a dollar sign**, and it comes to what the
reader comes to. -/
theorem exists_roundAt? (p : Progress) (file : String)
    (hcode : pt.line.code = pt.front ++ pt.onward) (hdollar : afterDollar pt.front = false) :
    ∃ round, p.roundAt? file pt.above pt.line (byteLength pt.front) = some round ∧
      round.turn.Fits file pt (p.readRounds file pt.line.number pt.opening pt.onward) := by
  by_cases hnone : p.phase = .outside → Header.read? pt.onward = none
  · obtain ⟨turn, hcount, hfits⟩ := p.exists_countAt? file hcode hdollar
    have hround := roundAt?_of_no_header hcode hnone file
    refine ⟨_, hround.trans (congrArg (Option.map _) hcount), ?_⟩
    rw [readRounds_of_text file _ (enter_of_no_header hnone pt.opening)]
    exact hfits
  obtain ⟨hphase, hsome⟩ := Classical.not_imp.mp hnone
  obtain ⟨header, hread⟩ := Option.ne_none_iff_exists'.mp hsome
  obtain ⟨read, hsplit⟩ := Header.exists_append hread
  cases hopens : header.opensBody with
  | true =>
      have hmoved : (pt.moved read header.rest).line.code = (pt.front ++ read) ++ header.rest := by
        rw [List.append_assoc, ← hsplit]
        exact hcode
      obtain ⟨turn, hcount, hfits⟩ := (p.openBody (pt.opening header.name)).exists_countAt? file
        hmoved (afterDollar_header hread hopens hsplit)
      have hround := roundAt?_of_header hcode hphase hread hopens hsplit file
      refine ⟨_, hround.trans (congrArg (Option.map _) hcount), ?_⟩
      rw [readRounds_of_text file _ (enter_of_header hphase hread hopens pt.opening)]
      exact hfits.of_moved hsplit
  | false => exact ⟨_, roundAt?_of_await hcode hphase hread hopens hsplit file, .leave⟩

/-- **The rounds of a line have the result of the reader.** -/
theorem exists_roundsAt? (p : Progress) (file : String)
    (hcode : pt.line.code = pt.front ++ pt.onward) (hdollar : afterDollar pt.front = false) :
    ∃ rounds, p.roundsAt? file pt.above pt.line (byteLength pt.front) =
      some (rounds, p.readRounds file pt.line.number pt.opening pt.onward) := by
  -- Each round goes on with less of the line, and never behind a dollar sign.
  induction hlength : pt.onward.length using Nat.strongRecOn generalizing p pt with
  | _ n ih =>
  obtain ⟨round, hround, hfits⟩ := p.exists_roundAt? file hcode hdollar
  generalize hturn : round.turn = turn at hfits
  cases hfits with
  | leave => exact ⟨[round], roundsAt?_of_leave hround hturn⟩
  | @again q read separators onward hsplit hskip hread =>
      let next := pt.moved (read ++ '}' :: separators) onward
      have hnext : next.line.code = next.front ++ next.onward := by
        show pt.line.code = (pt.front ++ (read ++ '}' :: separators)) ++ onward
        rw [hcode, hsplit]
        simp
      have hbehind : afterDollar next.front = false := by
        show afterDollar (pt.front ++ (read ++ '}' :: separators)) = false
        rw [← List.append_assoc]
        exact afterDollar_of_skipSeparators (by decide) hskip
      have hopening : next.opening = Opening.bare pt.line.number :=
        Point.opening_of_front_ne_nil (by simp [next, Point.moved])
      have hshorter : next.onward.length < n := by
        rw [← hlength, hsplit]
        simp only [next, Point.moved, List.length_append, List.length_cons]
        omega
      obtain ⟨rounds, hrounds⟩ := ih next.onward.length hshorter q hnext hbehind rfl
      rw [hopening] at hrounds
      refine ⟨round :: rounds, roundsAt?_of_again hround hturn ?_⟩
      rw [← hread]
      exact hrounds

end Progress

end ShellIndex.Definition
