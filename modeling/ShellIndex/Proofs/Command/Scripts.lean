import ShellIndex.Proofs.Command.Ensures
import ShellIndex.Proofs.FileTree.Entries
import ShellIndex.Proofs.FileTree.Label

set_option autoImplicit false

/-! # The scripts of a run

Every path that the inputs stand for leads to a file. The scripts directly in a directory are its
entries with the name of a script, and the name of the entry is the label of the script with regard
to the directory.
-/

namespace ShellIndex.Command

open ShellIndex.Path

/-! ## Inputs -/

section
variable {t : FileTree}

theorem mem_of_mem_dropRepeated {path : String} {paths : List String}
    (h : path ∈ dropRepeated paths) : path ∈ paths := by
  induction paths using dropRepeated.induct with
  | case1 =>
      rw [dropRepeated] at h
      cases h
  | case2 first paths ih =>
      rw [dropRepeated] at h
      rcases List.mem_cons.mp h with rfl | h
      · exact List.mem_cons_self
      · exact List.mem_cons_of_mem first ((List.dropWhile_sublist _).mem (ih h))

theorem mem_of_mem_canonical {path : String} {paths : List String} (h : path ∈ canonical paths) :
    path ∈ paths := List.mem_mergeSort.mp (mem_of_mem_dropRepeated h)

theorem mem_scriptsIn {dir path : String} : path ∈ scriptsIn t dir ↔
    ∃ above name, t.resolve dir = .ok above ∧ above ++ [name] ∈ t.nodes ∧
      isScriptName name = true ∧ path = join dir name ∧ t.isFile path = true := by
  unfold scriptsIn
  cases t.resolve dir with
  | error fault => simp
  | ok above =>
      simp only [List.mem_filter, List.mem_map, FileTree.mem_namesAt]
      constructor
      · rintro ⟨⟨name, ⟨hentry, hscript⟩, rfl⟩, hfile⟩
        exact ⟨above, name, rfl, hentry, hscript, rfl, hfile⟩
      · rintro ⟨_, name, habove, hentry, hscript, rfl, hfile⟩
        obtain rfl := Except.ok.inj habove
        exact ⟨⟨name, ⟨hentry, hscript⟩, rfl⟩, hfile⟩

/-- A failure that has nothing to do with what scripts define. -/
structure Failure.SparesDefinitions (failure : Failure) : Prop where
  ne_malformed : ∀ e, failure ≠ .malformed e
  ne_badCatalog : ∀ e, failure ≠ .badCatalog e

theorem ensures_pathsOf (t : FileTree) (pattern : String) :
    (pathsOf t pattern).Ensures (fun paths => ∀ path ∈ paths, t.isFile path = true)
      Failure.SparesDefinitions := by
  unfold pathsOf
  split
  · next hfile => exact Run.ensures_pure (by simpa using hfile)
  · split
    · refine Run.ensures_pure fun path hpath => ?_
      obtain ⟨_, _, _, _, _, _, hfile⟩ := mem_scriptsIn.mp hpath
      exact hfile
    · split
      · exact Run.ensures_throw ⟨nofun, nofun⟩
      · next parsed _ =>
          have hfound : ∀ path ∈ (parsed.paths t).filter t.isFile, t.isFile path = true :=
            fun path hpath => (List.mem_filter.mp hpath).2
          dsimp only
          split
          · exact (Run.ensures_warn _).bind fun _ _ => Run.ensures_pure hfound
          · exact Run.ensures_pure hfound

/-- What holds of the paths of each input holds of all of them. -/
theorem ensures_forall_expand {patterns : List String} {P : String → Prop} {fails : Failure → Prop}
    (h : ∀ pattern ∈ patterns,
      (pathsOf t pattern).Ensures (fun paths => ∀ path ∈ paths, P path) fails) :
    (expand t patterns).Ensures (fun paths => ∀ path ∈ paths, P path) fails := by
  unfold expand
  refine (Run.Ensures.mapM h).bind fun found hfound => ?_
  refine Run.ensures_pure fun path hpath => ?_
  obtain ⟨paths, hpaths, hpath⟩ := List.mem_flatten.mp (mem_of_mem_canonical hpath)
  exact hfound paths hpaths path hpath

/-- Every path that the inputs stand for leads to a file. -/
theorem ensures_expand (t : FileTree) (patterns : List String) :
    (expand t patterns).Ensures (fun paths => ∀ path ∈ paths, t.isFile path = true)
      Failure.SparesDefinitions :=
  ensures_forall_expand fun pattern _ => ensures_pathsOf t pattern

/-- Whether a path is among those that some inputs stand for. -/
def IsInput (t : FileTree) (patterns : List String) (path : String) : Prop :=
  ∃ paths, ((expand t patterns).run.run []).1 = .ok paths ∧ path ∈ paths

theorem IsInput.isFile {patterns : List String} {path : String} (h : IsInput t patterns path) :
    t.isFile path = true := by
  obtain ⟨paths, hpaths, hpath⟩ := h
  exact (ensures_expand t patterns).of_ok hpaths path hpath

/-- The paths of files stand for themselves. -/
theorem expand_of_isFile {patterns : List String} (h : ∀ path ∈ patterns, t.isFile path = true) :
    expand t patterns = pure (canonical patterns) := by
  have hpaths : patterns.mapM (pathsOf t) = pure (patterns.map fun path => [path]) := by
    induction patterns with
    | nil => rfl
    | cons path paths ih =>
        have hfirst : pathsOf t path = pure [path] := by
          rw [pathsOf, if_pos (h path List.mem_cons_self)]
        have hrest := ih fun other hother => h other (List.mem_cons_of_mem path hother)
        rw [List.mapM_cons, hfirst, hrest]
        rfl
  rw [expand, hpaths, pure_bind, ← List.flatMap_def, List.flatMap_singleton']

theorem isInput_of_isFile {path : String} (h : t.isFile path = true) : IsInput t [path] path := by
  have hpaths : expand t [path] = pure (canonical [path]) := expand_of_isFile (by simpa using h)
  refine ⟨[path], ?_, List.mem_singleton_self path⟩
  rw [hpaths]
  show Except.ok (canonical [path]) = Except.ok [path]
  simp [canonical, dropRepeated]

end

/-! ## Names of scripts -/

/-- The name of a script is neither empty nor a dot nor two dots. -/
theorem isEntryName_of_isScriptName {name : String} (hslash : '/' ∉ name.toList)
    (h : isScriptName name = true) : IsEntryName name := by
  have hidle : ∀ piece ∈ [[], ['.'], ['.', '.']], name.toList ≠ piece := by
    intro piece hpiece hname
    obtain rfl : name = String.ofList piece := by rw [← hname, String.ofList_toList]
    revert h
    revert piece
    decide
  refine ⟨hslash, ?_⟩
  rw [component?, if_neg, if_neg (hidle _ (by simp)), String.ofList_toList]
  rintro (hname | hname)
  · exact hidle _ (by simp) hname
  · exact hidle _ (by simp) hname

/-! ## Scripts of a directory -/

section
variable {t : FileTree} {dir path : String}

/-- A script directly in a directory is the entry that its label names. -/
theorem exists_entry (ht : t.HasEntryNames) (h : path ∈ scriptsIn t dir) :
    ∃ above, t.resolve dir = .ok above ∧ t.resolve path = .ok (above ++ [t.label path dir]) ∧
      IsEntryName (t.label path dir) ∧ path = join dir (t.label path dir) := by
  obtain ⟨above, name, habove, hentry, hscript, rfl, hfile⟩ := mem_scriptsIn.mp h
  have hname : IsEntryName name :=
    isEntryName_of_isScriptName (ht _ hentry name (by simp)) hscript
  obtain ⟨place, _, hplace, -⟩ := FileTree.isFile_iff.mp hfile
  have hdir := FileTree.components_ne_nil_of_resolve habove
  have hcomponents : components (join dir name) = components dir ++ [.name name] := by
    rw [components_join (FileTree.resolve_eq_ok_iff.mp habove).1, hname.innerComponents_eq]
  have hlocate : place = above ++ [name] :=
    FileTree.eq_of_resolve_below hdir hcomponents hplace habove
  have hlabel : t.label (join dir name) dir = name :=
    FileTree.label_of_remainder? ((remainder?_eq_name_iff hname hdir hcomponents).mpr rfl)
  rw [hlabel]
  rw [hlocate] at hplace
  exact ⟨above, habove, hplace, hname, rfl⟩

end

end ShellIndex.Command
