import ShellIndex.FileTree.Basic

set_option autoImplicit false

/-! # The entries of a file tree

Names in a tree are found in the keys of its map. A tree that is built entry by entry has no names but
those of the entries, so that what holds of these holds of all its names.
-/

namespace ShellIndex.FileTree

variable {t : FileTree}

theorem mem_namesAt {place : Location} {name : String} :
    name ∈ t.namesAt place ↔ place ++ [name] ∈ t.nodes := by
  rw [namesAt, List.mem_filterMap]
  constructor
  · rintro ⟨other, hother, hname⟩
    split at hname
    · next hplace =>
        obtain ⟨front, rfl⟩ := List.getLast?_eq_some_iff.mp hname
        rw [List.dropLast_concat] at hplace
        rw [← hplace]
        exact Std.ExtTreeMap.mem_keys.mp hother
    · cases hname
  · intro hentry
    refine ⟨place ++ [name], Std.ExtTreeMap.mem_keys.mpr hentry, ?_⟩
    rw [List.dropLast_concat, if_pos rfl, List.getLast?_concat]

/-! ## All names -/

/-- Whether a predicate holds for all names of the tree. -/
def AllNames (t : FileTree) (P : String → Prop) : Prop := ∀ place ∈ t.nodes, ∀ name ∈ place, P name

theorem mem_of_mem_passed {place other : Location} (h : other ∈ passed place) {name : String}
    (hname : name ∈ other) : name ∈ place := by
  induction place generalizing other with
  | nil => cases h
  | cons first rest ih =>
      rw [passed, List.mem_cons, List.mem_map] at h
      rcases h with rfl | ⟨further, hfurther, rfl⟩
      · exact List.mem_singleton.mp hname ▸ List.mem_cons_self
      · rcases List.mem_cons.mp hname with rfl | hname
        · exact List.mem_cons_self
        · exact List.mem_cons_of_mem first (ih hfurther hname)

namespace AllNames
variable {P : String → Prop}

theorem insert (ht : t.AllNames P) {place : Location} (hplace : ∀ name ∈ place, P name)
    (node : Node) : AllNames { t with nodes := t.nodes.insert place node } P := by
  intro other hother
  rcases Std.ExtTreeMap.mem_insert.mp hother with hsame | hother
  · rw [← Std.LawfulEqCmp.eq_of_compare hsame]
    exact hplace
  · exact ht other hother

theorem addDirectory (ht : t.AllNames P) {place : Location} (hplace : ∀ name ∈ place, P name) :
    (t.addDirectory place).AllNames P := by
  intro other hother
  rcases Std.ExtTreeMap.mem_insertMany_list.mp hother with hother | hother
  · exact ht other hother
  · simp only [List.map_map, List.contains_iff_mem, List.mem_map, Function.comp_apply,
      exists_eq_right] at hother
    exact fun name hname => hplace name (mem_of_mem_passed hother hname)

theorem addFile (ht : t.AllNames P) {place : Location} (hplace : ∀ name ∈ place, P name)
    (content : ByteArray) : (t.addFile place content).AllNames P := by
  refine insert (ht.addDirectory fun name hname => ?_) hplace _
  exact hplace name ((List.dropLast_sublist place).mem hname)

theorem ofWork {work : Location} (hwork : ∀ name ∈ work, P name) : (ofWork work).AllNames P := by
  refine addDirectory (fun other hother => ?_) hwork
  exact absurd hother Std.ExtTreeMap.not_mem_empty

/-- The names below a directory. -/
theorem of_mem_below (ht : t.AllNames P) {place names : Location} (h : names ∈ t.below place) :
    ∀ name ∈ names, P name := by
  obtain ⟨other, hother, hnames⟩ := List.mem_filterMap.mp h
  split at hnames
  · obtain rfl := Option.some.inj hnames
    exact fun name hname =>
      ht other (Std.ExtTreeMap.mem_keys.mp hother) name (List.mem_of_mem_drop hname)
  · cases hnames

theorem of_mem_namesAt (ht : t.AllNames P) {place : Location} {name : String}
    (h : name ∈ t.namesAt place) : P name :=
  ht _ (mem_namesAt.mp h) name (by simp)

end AllNames

/-! ## Names without slashes -/

/-- Whether no name of the tree has a slash, as on a real disk. -/
def HasEntryNames (t : FileTree) : Prop :=
  ∀ place ∈ t.nodes, ∀ name ∈ place, '/' ∉ name.toList

namespace HasEntryNames

theorem addFile (ht : t.HasEntryNames) {place : Location}
    (hplace : ∀ name ∈ place, '/' ∉ name.toList) (content : ByteArray) :
    (t.addFile place content).HasEntryNames := AllNames.addFile ht hplace content

theorem ofWork {work : Location} (hwork : ∀ name ∈ work, '/' ∉ name.toList) :
    (ofWork work).HasEntryNames := AllNames.ofWork hwork

end HasEntryNames

end ShellIndex.FileTree
