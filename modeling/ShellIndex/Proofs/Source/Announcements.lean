import ShellIndex.Proofs.Source.Places

set_option autoImplicit false

/-! # The here-documents that a line announces

A here-document is announced where the reader stands in code before two signs `<<` that are neither
part of `<<<` nor a shift, and where a word follows them (`Reader.announces`). The documents that are
open behind a line are those announced along it, in order (`Reader.heredocs_run`).
-/

namespace ShellIndex.Source

open Text

namespace Reader
variable {r : Reader} {c : Char} {s rest : List Char}

/-- The document that is announced at a character, which `rest` follows. -/
def announces (r : Reader) (c : Char) (rest : List Char) : Option Heredoc :=
  if c = '<' ∧ r.owed = .nothing ∧ readsCode r.contexts = true ∧ r.opensHeredoc rest = true then
    (Heredoc.read? rest.tail).map Prod.fst
  else none

/-- The documents that are announced along the rest of a line, in order. -/
def announced (r : Reader) : List Char → List Heredoc
  | [] => []
  | c :: rest =>
      if r.opensComment c then []
      else (r.announces c rest).toList ++ (r.step c rest).announced rest

/-! ## One character -/

theorem heredocs_announce (r : Reader) (rest : List Char) :
    (r.announce rest).heredocs =
      r.heredocs ++ ((Heredoc.read? rest.tail).map Prod.fst).toList := by
  rw [announce]
  split
  · next hread =>
      rw [hread]
      rfl
  · next hread =>
      rw [hread]
      exact (List.append_nil _).symm

theorem heredocs_stepCode (r : Reader) (c : Char) (rest : List Char) :
    (r.stepCode c rest).heredocs =
      if c = '<' ∧ r.opensHeredoc rest = true then
        r.heredocs ++ ((Heredoc.read? rest.tail).map Prod.fst).toList
      else r.heredocs := by
  by_cases hc : c = '<'
  · subst hc
    show (if r.opensHeredoc rest then r.announce rest else r.keep '<').heredocs = _
    cases r.opensHeredoc rest with
    | true => exact heredocs_announce r rest
    | false => rfl
  · rw [if_neg fun h => hc h.1]
    unfold stepCode
    split
    all_goals first | rfl | exact absurd rfl hc

theorem Coding.announces_eq (h : r.Coding) (c : Char) (rest : List Char) :
    r.announces c rest =
      if c = '<' ∧ r.opensHeredoc rest = true then (Heredoc.read? rest.tail).map Prod.fst
      else none := by
  simp only [announces, h.owed_eq, h.reads_code, true_and]

theorem announces_of_not_coding (h : ¬ r.Coding) (c : Char) (rest : List Char) :
    r.announces c rest = none := by
  rw [announces, if_neg]
  rintro ⟨-, howed, hcode, -⟩
  exact h ⟨hcode, howed⟩

theorem heredocs_step_of_not_coding (h : ¬ r.Coding) (c : Char) (rest : List Char) :
    (r.step c rest).heredocs = r.heredocs := by
  unfold step
  cases howed : r.owed with
  | nothing =>
      dsimp only
      unfold stepFree
      rcases hcontexts : r.contexts with _ | ⟨top, outer⟩
      · exact absurd ⟨by rw [hcontexts]; rfl, howed⟩ h
      · cases top with
        | substitution | backquote => exact absurd ⟨by rw [hcontexts]; rfl, howed⟩ h
        | double =>
            show (r.stepDouble outer c rest).heredocs = r.heredocs
            unfold stepDouble
            repeat' split
            all_goals rfl
        | single =>
            show (r.stepSingle outer c).heredocs = r.heredocs
            unfold stepSingle
            split <;> rfl
        | ansi =>
            show (r.stepAnsi outer c).heredocs = r.heredocs
            unfold stepAnsi
            split <;> rfl
  | escaped =>
      show (r.stepEscaped c).heredocs = r.heredocs
      unfold stepEscaped
      split <;> rfl
  | verbatim more => cases more <;> rfl

theorem heredocs_step_eq (r : Reader) (c : Char) (rest : List Char) :
    (r.step c rest).heredocs = r.heredocs ++ (r.announces c rest).toList := by
  by_cases h : r.Coding
  · rw [h.step_eq, heredocs_stepCode, h.announces_eq]
    split
    · rfl
    · exact (List.append_nil _).symm
  · rw [heredocs_step_of_not_coding h, announces_of_not_coding h]
    exact (List.append_nil _).symm

/-! ## The whole line -/

theorem heredocs_run (r : Reader) (rest : List Char) :
    (r.run rest).1.heredocs = r.heredocs ++ r.announced rest := by
  induction rest generalizing r with
  | nil => exact (List.append_nil _).symm
  | cons c rest ih =>
      rw [run, announced]
      split
      · exact (List.append_nil _).symm
      · rw [ih, heredocs_step_eq, List.append_assoc]

theorem eq_sign_of_announces {doc : Heredoc} (h : r.announces c rest = some doc) : c = '<' := by
  rw [announces] at h
  split at h
  · next hsign => exact hsign.1
  · cases h

/-- A document is announced at some place that the reader comes to. -/
theorem mem_announced_iff {doc : Heredoc} : doc ∈ r.announced s ↔
    ∃ front rest r', s = front ++ '<' :: rest ∧ r.readTo ('<' :: rest) front = some r' ∧
      r'.announces '<' rest = some doc := by
  induction s generalizing r with
  | nil => simp [announced]
  | cons d s ih =>
      rw [announced]
      constructor
      · intro hdoc
        split at hdoc
        · cases hdoc
        · next hopens =>
            rcases List.mem_append.mp hdoc with hdoc | hdoc
            · have hannounces : r.announces d s = some doc := by simpa using hdoc
              obtain rfl := eq_sign_of_announces hannounces
              exact ⟨[], s, r, rfl, rfl, hannounces⟩
            · obtain ⟨front, rest, r', rfl, hreach, hannounces⟩ := ih.mp hdoc
              exact ⟨d :: front, rest, r', rfl,
                readTo_cons_iff.mpr ⟨Bool.eq_false_iff.mpr hopens, hreach⟩, hannounces⟩
      · rintro ⟨front, rest, r', hs, hreach, hannounces⟩
        rcases front with _ | ⟨d', front⟩
        · obtain ⟨rfl, rfl⟩ := List.cons.inj hs
          obtain rfl := Option.some.inj hreach
          rw [if_neg (by simp [opensComment]), hannounces]
          simp
        · obtain ⟨rfl, rfl⟩ := List.cons.inj hs
          obtain ⟨hopens, hreach⟩ := readTo_cons_iff.mp hreach
          rw [if_neg (by simp [hopens])]
          exact List.mem_append_right _ (ih.mpr ⟨front, rest, r', rfl, hreach, hannounces⟩)

/-- Along a text in which nothing is announced the documents stay as they are. -/
theorem heredocs_readTo {r' : Reader} (h : r.readTo rest s = some r')
    (hnone : ∀ front back r₁, s = front ++ '<' :: back →
      r.readTo ('<' :: (back ++ rest)) front = some r₁ → r₁.announces '<' (back ++ rest) = none) :
    r'.heredocs = r.heredocs := by
  induction s generalizing r with
  | nil =>
      obtain rfl := Option.some.inj h
      rfl
  | cons c s ih =>
      obtain ⟨hopens, hrest⟩ := readTo_cons_iff.mp h
      have hfirst : r.announces c (s ++ rest) = none := by
        rw [Option.eq_none_iff_forall_ne_some]
        intro doc hdoc
        obtain rfl := eq_sign_of_announces hdoc
        rw [hnone [] s r rfl rfl] at hdoc
        cases hdoc
      rw [ih hrest, heredocs_step_eq, hfirst]
      · exact List.append_nil _
      · rintro front back r₁ rfl hreach
        refine hnone (c :: front) back r₁ rfl (readTo_cons_iff.mpr ⟨hopens, ?_⟩)
        simpa using hreach

end Reader

/-- What is open behind a line of code. -/
theorem Open.next_of_code {o : Open} (ho : o.heredocs = []) (raw : List Char) :
    (o.read raw).next =
      ⟨((Reader.start o.contexts).run raw).1.contexts, (Reader.start o.contexts).announced raw⟩ := by
  have hdocs := (Reader.start o.contexts).heredocs_run raw
  rw [Open.read, ho]
  show Open.mk _ ((Reader.start o.contexts).run raw).1.heredocs = _
  rw [hdocs]
  rfl

end ShellIndex.Source
