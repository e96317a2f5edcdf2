import ShellIndex.Command.Sources

set_option autoImplicit false

/-! # What holds of a computation however it ends

A computation ends with a result or with a failure, and it may have collected warnings before. The
predicate `Ensures` says what holds of the result and what holds of the failure, whatever has been
collected. There is one rule for each way to build a computation.
-/

namespace ShellIndex.Command.Run

/-- Every result satisfies `post` and every failure satisfies `fails`. -/
def Ensures {α : Type} (x : Run α) (post : α → Prop) (fails : Failure → Prop) : Prop :=
  ∀ warnings, match (x.run.run warnings).1 with
    | .ok a => post a
    | .error failure => fails failure

section
variable {α β : Type} {fails : Failure → Prop}

/-- A computation goes on with the result of the first part, and ends where that fails. -/
theorem run_bind (x : Run α) (f : α → Run β) (warnings : List Warning) :
    (x >>= f).run.run warnings =
      match x.run.run warnings with
      | (.ok a, collected) => (f a).run.run collected
      | (.error failure, collected) => (.error failure, collected) := by
  rw [ExceptT.run_bind, StateT.run_bind]
  show (match (x.run.run warnings : Except Failure α × List Warning) with | (a, s) => _) = _
  rcases (x.run.run warnings : Except Failure α × List Warning) with ⟨_ | _, _⟩ <;> rfl

/-- A computation that succeeds has succeeded in both parts. -/
theorem exists_of_bind_ok {x : Run α} {f : α → Run β} {warnings after : List Warning} {b : β}
    (h : (x >>= f).run.run warnings = (.ok b, after)) :
    ∃ a between, x.run.run warnings = (.ok a, between) ∧
      (f a).run.run between = (.ok b, after) := by
  rw [run_bind] at h
  rcases hx : x.run.run warnings with ⟨failure | a, between⟩
  · rw [hx] at h
    cases h
  · rw [hx] at h
    exact ⟨a, between, rfl, h⟩

/-- A computation that fails has failed in the first part or in the second. -/
theorem exists_of_bind_error {x : Run α} {f : α → Run β} {warnings after : List Warning}
    {failure : Failure} (h : (x >>= f).run.run warnings = (.error failure, after)) :
    x.run.run warnings = (.error failure, after) ∨
      ∃ a between, x.run.run warnings = (.ok a, between) ∧
        (f a).run.run between = (.error failure, after) := by
  rw [run_bind] at h
  rcases hx : x.run.run warnings with ⟨failure' | a, between⟩
  · rw [hx] at h
    cases h
    exact Or.inl rfl
  · rw [hx] at h
    exact Or.inr ⟨a, between, rfl, h⟩

theorem ensures_trivial (x : Run α) : x.Ensures (fun _ => True) (fun _ => True) := by
  intro warnings
  split <;> trivial

theorem ensures_pure {post : α → Prop} {a : α} (h : post a) :
    (pure a : Run α).Ensures post fails := fun _ => h

theorem ensures_throw {post : α → Prop} {failure : Failure} (h : fails failure) :
    (throw failure : Run α).Ensures post fails := fun _ => h

theorem ensures_warn (warning : Warning) : (warn warning).Ensures (fun _ => True) fails :=
  fun _ => trivial

namespace Ensures

theorem of_ok {x : Run α} {post : α → Prop} (h : x.Ensures post fails) {warnings : List Warning}
    {a : α} (hx : (x.run.run warnings).1 = .ok a) : post a := by
  have hend := h warnings
  rw [hx] at hend
  exact hend

theorem of_error {x : Run α} {post : α → Prop} (h : x.Ensures post fails)
    {warnings : List Warning} {failure : Failure}
    (hx : (x.run.run warnings).1 = .error failure) : fails failure := by
  have hend := h warnings
  rw [hx] at hend
  exact hend

theorem imp {x : Run α} {post post' : α → Prop} (h : x.Ensures post fails)
    (hpost : ∀ a, post a → post' a) : x.Ensures post' fails := by
  intro warnings
  have hend := h warnings
  split at hend
  · exact hpost _ hend
  · exact hend

theorem weaken {x : Run α} {post : α → Prop} {fails' : Failure → Prop} (h : x.Ensures post fails)
    (hfails : ∀ failure, fails failure → fails' failure) : x.Ensures post fails' := by
  intro warnings
  have hend := h warnings
  split at hend
  · exact hend
  · exact hfails _ hend

theorem bind {x : Run α} {f : α → Run β} {post : α → Prop} {post' : β → Prop}
    (hx : x.Ensures post fails) (hf : ∀ a, post a → (f a).Ensures post' fails) :
    (x >>= f).Ensures post' fails := by
  intro warnings
  have hend := hx warnings
  rw [run_bind]
  rcases hrun : x.run.run warnings with ⟨failure | a, collected⟩
  · rw [hrun] at hend
    exact hend
  · rw [hrun] at hend
    exact hf a hend collected

theorem mapM {f : α → Run β} {post : β → Prop} {as : List α}
    (hf : ∀ a ∈ as, (f a).Ensures post fails) :
    (as.mapM f).Ensures (fun bs => ∀ b ∈ bs, post b) fails := by
  induction as with
  | nil => exact ensures_pure (by simp)
  | cons a as ih =>
      rw [List.mapM_cons]
      refine (hf a List.mem_cons_self).bind fun b hb => ?_
      refine (ih fun a' ha' => hf a' (List.mem_cons_of_mem a ha')).bind fun bs hbs => ?_
      exact ensures_pure (List.forall_mem_cons.mpr ⟨hb, hbs⟩)

/-- What each result comes to, all the results come to in order. -/
theorem mapM_map {γ : Type} {f : α → Run β} {g : β → γ} {h : α → γ} {as : List α}
    (hf : ∀ a ∈ as, (f a).Ensures (fun b => g b = h a) fails) :
    (as.mapM f).Ensures (fun bs => bs.map g = as.map h) fails := by
  induction as with
  | nil => exact ensures_pure rfl
  | cons a as ih =>
      rw [List.mapM_cons]
      refine (hf a List.mem_cons_self).bind fun b hb => ?_
      refine (ih fun a' ha' => hf a' (List.mem_cons_of_mem a ha')).bind fun bs hbs => ?_
      exact ensures_pure (by rw [List.map_cons, List.map_cons, hb, hbs])

end Ensures

end

end ShellIndex.Command.Run
