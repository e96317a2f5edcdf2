import ShellIndex.Proofs.Source.Shows

set_option autoImplicit false

/-! # Lines that open nothing

Outside of quotations and here-documents, a line without quotes, comments and here-documents is
shown as it is, and a line that starts with `#` is a comment. Nothing is open after either.
-/

namespace ShellIndex.Source

open Text

/-- In plain code every character stays visible. -/
theorem Reader.run_of_isPlainCode {r : Reader} (hcontexts : r.contexts = [])
    (howed : r.owed = .nothing) {s : List Char} (hs : ∀ c ∈ s, isPlainCode c = true) :
    r.run s =
      ({ r with before := s.reverse ++ r.before, code := s.reverse ++ r.code }, none) := by
  induction s generalizing r with
  | nil => rfl
  | cons c s ih =>
      obtain ⟨⟨hc₁, hc₂, hc₃, hc₄⟩, hc₅, hc₆⟩ := ne_of_isPlainCode (hs c (by simp))
      have hcomment : r.opensComment c = false := by simp [opensComment, hc₅]
      have hstep : r.step c s = r.keep c := by
        rw [step, howed]
        show r.stepFree c s = r.keep c
        rw [stepFree, hcontexts]
        show r.stepCode c s = r.keep c
        unfold stepCode
        split
        · exact absurd rfl hc₃
        · exact absurd rfl hc₁
        · exact absurd rfl hc₂
        · exact absurd rfl hc₄
        · rw [hcontexts]
          simp [keep, openParen, hcontexts]
        · rw [hcontexts]
          simp [keep, closeParen, hcontexts]
        · exact absurd rfl hc₆
        · rfl
      have hrest := ih (r := r.keep c) hcontexts rfl fun d hd => hs d (List.mem_cons_of_mem c hd)
      rw [run, if_neg (by simp [hcomment]), hstep, hrest]
      simp [keep, howed]

theorem read_of_isPlainCode {raw : List Char} (h : ∀ c ∈ raw, isPlainCode c = true) :
    Open.nothing.read raw = ⟨raw, none, Open.nothing⟩ := by
  have hrun := Reader.run_of_isPlainCode (r := Reader.start []) rfl rfl h
  show Reading.mk ((Reader.start []).run raw).1.code.reverse ((Reader.start []).run raw).2
    ⟨((Reader.start []).run raw).1.contexts, ((Reader.start []).run raw).1.heredocs⟩ = _
  rw [hrun]
  simp [Reader.start, Open.nothing]

theorem read_comment (s : List Char) :
    Open.nothing.read ('#' :: s) = ⟨(mask ('#' :: s)).reverse, some s, Open.nothing⟩ := by
  have hrun : (Reader.start []).run ('#' :: s) =
      ({ Reader.start [] with code := mask ('#' :: s) }, some s) := by
    rw [Reader.run, if_pos (by rfl)]
    simp [Reader.start]
  show Reading.mk ((Reader.start []).run ('#' :: s)).1.code.reverse
    ((Reader.start []).run ('#' :: s)).2 ⟨((Reader.start []).run ('#' :: s)).1.contexts,
      ((Reader.start []).run ('#' :: s)).1.heredocs⟩ = _
  rw [hrun]
  rfl

/-- The code of a comment line is blank. -/
theorem allBlank_mask (s : List Char) : allBlank (mask s).reverse = true := by
  rw [allBlank, List.all_eq_true]
  intro c hc
  rw [mem_mask (List.mem_reverse.mp hc)]
  decide

end ShellIndex.Source
