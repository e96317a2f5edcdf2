import ShellIndex.FileTree.Label
import ShellIndex.Proofs.FileTree.Resolve
import ShellIndex.Proofs.Path.Remainder

set_option autoImplicit false

/-! # Which paths are labelled alike

A path is labelled by what is left of it below a directory, as it is written or else as it leads, and
by the path itself where it leads elsewhere. The main statement says which paths have the name of an
entry as their label: those that lead to the entry of that name in the directory, unless they are
written with a step back up inside the directory, and the name itself where it leads elsewhere.
-/

namespace ShellIndex.FileTree

open ShellIndex.Path

/-- Whether a path is written as one below `dir` that steps back up again. -/
def Detours (path dir : String) : Prop :=
  ∃ rest, components path = components dir ++ rest ∧ Component.parent ∈ rest

/-- Whether a path leads to `dir` or below it. -/
def LeadsBelow (t : FileTree) (path dir : String) : Prop :=
  ∃ place above names, t.resolve path = .ok place ∧ t.resolve dir = .ok above ∧
    place = above ++ names

section
variable {t : FileTree} {path dir name : String} {place above : Location}

theorem leadsBelow_iff (hplace : t.resolve path = .ok place) (habove : t.resolve dir = .ok above) :
    t.LeadsBelow path dir ↔ above <+: place := by
  constructor
  · rintro ⟨place', above', names, hplace', habove', rfl⟩
    obtain rfl := Except.ok.inj (habove'.symm.trans habove)
    rw [← Except.ok.inj (hplace'.symm.trans hplace)]
    exact List.prefix_append _ _
  · rintro ⟨names, rfl⟩
    exact ⟨_, above, names, hplace, habove, rfl⟩

/-! ## The three ways to a label -/

theorem label_of_remainder? {rest : String} (h : remainder? path dir = some rest) :
    t.label path dir = rest := by
  rw [label, h]

theorem label_of_leadsBelow {names : Location} (h : remainder? path dir = none)
    (hplace : t.resolve path = .ok (above ++ names)) (habove : t.resolve dir = .ok above) :
    t.label path dir = String.intercalate "/" names := by
  have hbetween : between? above (above ++ names) = some names := by
    rw [between?, if_pos (List.isPrefixOf_iff_prefix.mpr (List.prefix_append _ _)),
      List.drop_left]
  simp only [label, h, hplace, habove, hbetween]

theorem label_of_not_leadsBelow (h : remainder? path dir = none)
    (hplace : t.resolve path = .ok place) (habove : t.resolve dir = .ok above)
    (hbelow : ¬ above <+: place) : t.label path dir = path := by
  have hbetween : between? above place = none := by
    rw [between?, if_neg (fun h => hbelow (List.isPrefixOf_iff_prefix.mp h))]
  simp only [label, h, hplace, habove, hbetween]

/-! ## Labels that are names -/

/-- Names joined by slashes are an entry name only if they are that one name. -/
theorem intercalate_eq_name_iff (hname : IsEntryName name) (names : Location) :
    String.intercalate "/" names = name ↔ names = [name] := by
  constructor
  · intro h
    have htext := hname.no_slash
    rcases names with _ | ⟨first, _ | ⟨second, more⟩⟩
    · subst h
      cases hname.component?_eq
    · rw [← h]
      rfl
    · rw [← h] at htext
      simp [String.intercalate_cons_cons] at htext
  · rintro rfl
    rfl

theorem detours_iff {rest : List Component} (h : components path = components dir ++ rest) :
    Detours path dir ↔ .parent ∈ rest := by
  constructor
  · rintro ⟨rest', hrest', hparent⟩
    rw [h] at hrest'
    rwa [List.append_cancel_left hrest']
  · intro hparent
    exact ⟨rest, h, hparent⟩

theorem not_detours (h : ¬ components dir <+: components path) : ¬ Detours path dir := by
  rintro ⟨rest, hrest, -⟩
  exact h ⟨rest, hrest.symm⟩

/-- A path goes on with one name behind a directory exactly if it leads to the entry of that name
without stepping back up. -/
theorem rest_eq_name_iff {rest : List Component} (h : components path = components dir ++ rest)
    (hplace : t.resolve path = .ok place) (habove : t.resolve dir = .ok above) :
    rest = [.name name] ↔ place = above ++ [name] ∧ .parent ∉ rest := by
  have hdir := components_ne_nil_of_resolve habove
  have hlocate := eq_of_resolve_below hdir h hplace habove
  constructor
  · rintro rfl
    exact ⟨hlocate, by simp⟩
  · rintro ⟨hsame, hparent⟩
    -- Behind the first component there are only names and steps back up.
    have hstart : ∀ c ∈ rest, c.isStart = false := fun c hc => by
      obtain ⟨d, ds, hds⟩ := List.exists_cons_of_ne_nil hdir
      have htail : c ∈ (components path).tail := by
        rw [h, hds]
        exact List.mem_append_right ds hc
      exact isStart_of_mem_tail_components htail
    obtain ⟨names, rfl⟩ := exists_names hparent hstart
    rw [hlocate, locate_names] at hsame
    rw [List.append_cancel_left hsame]
    rfl

/-- A path of one name that is written below a directory is that directory. -/
theorem isBelow_of_name (hname : IsEntryName name)
    (h : components dir <+: components name) (hplace : t.resolve name = .ok place)
    (habove : t.resolve dir = .ok above) : above <+: place := by
  obtain ⟨rest, hrest⟩ := h
  have hdir := components_ne_nil_of_resolve habove
  obtain ⟨d, ds, hds⟩ := List.exists_cons_of_ne_nil hdir
  have hlocate := eq_of_resolve_below hdir hrest.symm hplace habove
  rw [hname.components_eq, hds, List.cons_append] at hrest
  obtain ⟨-, hnil⟩ := List.cons.inj hrest
  rw [hlocate, (List.append_eq_nil_iff.mp hnil).2]
  exact List.prefix_rfl

/-- **The paths that are labelled by the name of an entry.** -/
theorem label_eq_name_iff (hname : IsEntryName name) (hplace : t.resolve path = .ok place)
    (habove : t.resolve dir = .ok above) :
    t.label path dir = name ↔
      (place = above ++ [name] ∧ ¬ Detours path dir) ∨ (path = name ∧ ¬ above <+: place) := by
  by_cases hwritten : components dir <+: components path
  · -- The label is the rest of the path as it is written.
    have hother : ¬ (path = name ∧ ¬ above <+: place) := by
      rintro ⟨rfl, hbelow⟩
      exact hbelow (isBelow_of_name hname hwritten hplace habove)
    obtain ⟨rest, hrest⟩ := hwritten
    have hdir := components_ne_nil_of_resolve habove
    have hlabel : t.label path dir = name ↔ rest = [.name name] := by
      rw [← remainder?_eq_name_iff hname hdir hrest.symm]
      obtain ⟨ps, hps, -, -⟩ := exists_remainder? hdir hrest.symm
      rw [label_of_remainder? hps, hps, Option.some_inj]
    rw [hlabel, rest_eq_name_iff hrest.symm hplace habove, detours_iff hrest.symm,
      or_iff_left hother]
  · have hnone := remainder?_eq_none_iff.mpr hwritten
    have hdetours := not_detours hwritten
    by_cases hbelow : above <+: place
    · -- The label is the rest of the location.
      obtain ⟨names, rfl⟩ := hbelow
      rw [label_of_leadsBelow hnone hplace habove, intercalate_eq_name_iff hname]
      simp [hdetours]
    · -- The label is the path itself, which leads elsewhere.
      have hother : place ≠ above ++ [name] := by
        rintro rfl
        exact hbelow (List.prefix_append _ _)
      rw [label_of_not_leadsBelow hnone hplace habove hbelow]
      simp [hother, hbelow]

end

end ShellIndex.FileTree
