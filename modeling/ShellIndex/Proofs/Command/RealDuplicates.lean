import Mathlib.Data.List.Pairwise
import ShellIndex.Proofs.Command.Duplicates
import ShellIndex.Proofs.Command.Paths
import ShellIndex.Proofs.Definition.Names

set_option autoImplicit false

/-! # Duplicates of a repository and definitions on disk

A name that is reported for all files together stands twice among the names of the definitions that
have been read, path by path. If the paths lead to different files, or if it stands twice in one
file, then two definitions of it stand on disk. But a file can be read under two paths, whose
components differ, and then every definition in it counts twice.
-/

namespace ShellIndex.Command

open ShellIndex.Path

/-! ## Names that stand twice -/

section
variable {α : Type} {name : String}

/-- Whether a name stands at two positions. -/
def StandsTwice (name : String) (names : List String) : Prop :=
  ∃ i j : Nat, i < j ∧ names[i]? = some name ∧ names[j]? = some name

theorem not_standsTwice_iff {names : List String} : ¬ StandsTwice name names ↔
    names.Pairwise fun a b => ¬ (a = name ∧ b = name) := by
  rw [List.pairwise_iff_getElem]
  constructor
  · rintro h i j hi hj hij ⟨ha, hb⟩
    exact h ⟨i, j, hij, ha ▸ List.getElem?_eq_getElem hi, hb ▸ List.getElem?_eq_getElem hj⟩
  · rintro h ⟨i, j, hij, ha, hb⟩
    obtain ⟨hi, ha⟩ := List.getElem?_eq_some_iff.mp ha
    obtain ⟨hj, hb⟩ := List.getElem?_eq_some_iff.mp hb
    exact h i j hi hj hij ⟨ha, hb⟩

theorem mem_duplicateNames_repository_iff {found : List Definition} :
    name ∈ duplicateNames .repository found ↔ StandsTwice name (found.map Definition.name) := by
  rw [mem_duplicateNames_iff_positions]
  constructor
  · rintro ⟨i, j, d, d', hij, hd, hd', rfl, hname, -⟩
    exact ⟨i, j, hij, by simp [hd], by simp [hd', hname]⟩
  · rintro ⟨i, j, hij, hi, hj⟩
    rw [List.getElem?_map, Option.map_eq_some_iff] at hi hj
    obtain ⟨d, hd, hname⟩ := hi
    obtain ⟨d', hd', hname'⟩ := hj
    exact ⟨i, j, d, d', hij, hd, hd', hname, hname', nofun⟩

/-- Where no key comes twice, a name stands twice in one part or in the parts of two keys. -/
theorem standsTwice_flatMap_iff {β : Type} {key : α → β} {as : List α} {f : α → List String}
    (hkeys : as.Pairwise fun a b => key a ≠ key b) :
    StandsTwice name (as.flatMap f) ↔ (∃ a ∈ as, StandsTwice name (f a)) ∨
      ∃ a ∈ as, ∃ b ∈ as, key a ≠ key b ∧ name ∈ f a ∧ name ∈ f b := by
  rw [← not_iff_not, not_standsTwice_iff, List.pairwise_flatMap, not_or]
  refine and_congr ?_ ?_
  · simp only [← not_standsTwice_iff]
    simp
  · constructor
    · rintro h ⟨a, ha, b, hb, hne, hfa, hfb⟩
      have hsymm : Std.Symm fun a b : α => ∀ x ∈ f a, ∀ y ∈ f b, ¬ (x = name ∧ y = name) :=
        ⟨fun a b hab y hy x hx hxy => hab x hx y hy hxy.symm⟩
      have hab : a ≠ b := fun hab => hne (congrArg key hab)
      exact h.forall ha hb hab name hfa name hfb ⟨rfl, rfl⟩
    · intro h
      refine hkeys.imp_of_mem fun {a b} ha hb hne => ?_
      rintro x hx y hy ⟨rfl, rfl⟩
      exact h ⟨a, ha, b, hb, hne, hx, hy⟩

end

/-! ## Definitions on disk -/

/-- The names of the definitions in the file at a location, in order. -/
def definedNames (t : FileTree) (place : Location) : List String :=
  match t.node? place with
  | some (.file content) =>
      match String.fromUTF8? content with
      | some text => Definition.namesIn "" text
      | none => []
  | _ => []

/-- The names of the definitions in the file that a path leads to, in order. -/
def namesOf (t : FileTree) (path : String) : List String :=
  match t.resolve path with
  | .ok place => definedNames t place
  | .error _ => []

section
variable {t : FileTree} {path : String} {place : Location}

theorem namesOf_eq (h : t.resolve path = .ok place) : namesOf t path = definedNames t place := by
  rw [namesOf, h]

theorem namesOf_of_readText {text : String} (h : t.readText path = .ok text) (file : String) :
    namesOf t path = Definition.namesIn file text := by
  unfold FileTree.readText at h
  split at h
  · cases h
  · next place hplace =>
      rw [namesOf_eq hplace]
      split at h
      · next content hnode =>
          split at h
          · next text' htext =>
              obtain rfl := Except.ok.inj h
              rw [definedNames, hnode]
              simp only [htext]
              exact Definition.namesIn_relabel _ _ _
          · cases h
      · cases h
      · cases h

/-! ## What a run reads -/

theorem ensures_names_definitionsIn (strict : Bool) (source : Source) :
    (definitionsIn strict source).Ensures
      (fun found => found.map Definition.name = Definition.namesIn source.label source.text)
      (fun _ => True) := by
  unfold definitionsIn
  split
  · next found hfound => exact Run.ensures_pure (Definition.namesIn_of_extract hfound).symm
  · next e he =>
      split
      · exact Run.ensures_throw trivial
      · refine (Run.ensures_warn _).bind fun _ _ => Run.ensures_pure ?_
        rw [Definition.namesIn, he]
        rfl

theorem ensures_names_definitionsInAll (strict : Bool) (sources : List Source) :
    (definitionsInAll strict sources).Ensures
      (fun found => found.map Definition.name =
        sources.flatMap fun source => Definition.namesIn source.label source.text)
      (fun _ => True) := by
  refine (Run.Ensures.mapM_map fun source _ => ensures_names_definitionsIn strict source).bind
    fun found hfound => Run.ensures_pure ?_
  rw [List.map_flatten, hfound, List.flatMap_def]

theorem ensures_names_load (t : FileTree) (path : String) :
    (load t path path).Ensures
      (fun source => Definition.namesIn source.label source.text = namesOf t path)
      (fun _ => True) := by
  unfold load
  split
  · next text htext => exact Run.ensures_pure (namesOf_of_readText htext path).symm
  · exact Run.ensures_throw trivial

theorem listedDefinitions_eq {input : ByteArray} {inputs : Inputs} (hinputs : inputs.patterns ≠ []) :
    listedDefinitions t input inputs = expand t inputs.patterns >>= fun paths =>
      (paths.mapM fun path => load t path path) >>= definitionsInAll inputs.strict := by
  have hsome : inputs.patterns.isEmpty = false := by simpa using hinputs
  rw [listedDefinitions, listedSources, hsome]
  exact bind_assoc _ _ _

/-- The names of the definitions that are listed are those in the files of the inputs. -/
theorem exists_expand_of_listed {input : ByteArray} {inputs : Inputs} {found : List Definition}
    (hinputs : inputs.patterns ≠ [])
    (h : ((listedDefinitions t input inputs).run.run []).1 = .ok found) :
    ∃ paths, ((expand t inputs.patterns).run.run []).1 = .ok paths ∧
      found.map Definition.name = paths.flatMap (namesOf t) := by
  rw [listedDefinitions_eq hinputs, Run.run_bind] at h
  rcases hexpand : (expand t inputs.patterns).run.run [] with ⟨failure | paths, collected⟩
  · rw [hexpand] at h
    cases h
  · rw [hexpand] at h
    refine ⟨paths, rfl, ?_⟩
    have hnames : ((paths.mapM fun path => load t path path) >>=
        definitionsInAll inputs.strict).Ensures
          (fun found => found.map Definition.name = paths.flatMap (namesOf t)) (fun _ => True) := by
      refine (Run.Ensures.mapM_map fun path _ => ensures_names_load t path).bind
        fun sources hsources => ?_
      refine (ensures_names_definitionsInAll inputs.strict sources).imp fun found hfound => ?_
      rw [hfound, List.flatMap_def, hsources, List.flatMap_def]
    exact hnames.of_ok h

end

/-! ## Real duplicates -/

section
variable {t : FileTree} {patterns : List String} {name : String}

/-- Whether two definitions of a name stand in the files that are read: in two files or at two places
of one. -/
def IsDefinedTwice (t : FileTree) (patterns : List String) (name : String) : Prop :=
  ∃ (path path' : String) (place place' : Location) (k k' : Nat),
    IsInput t patterns path ∧ IsInput t patterns path' ∧
      t.resolve path = .ok place ∧ t.resolve path' = .ok place' ∧
      (definedNames t place)[k]? = some name ∧ (definedNames t place')[k']? = some name ∧
      (place, k) ≠ (place', k')

/-- Whether a file that defines a name is read under two paths. -/
def IsReadTwice (t : FileTree) (patterns : List String) (name : String) : Prop :=
  ∃ (path path' : String) (place : Location),
    IsInput t patterns path ∧ IsInput t patterns path' ∧ components path ≠ components path' ∧
      t.resolve path = .ok place ∧ t.resolve path' = .ok place ∧ name ∈ definedNames t place

theorem exists_place_of_mem_namesOf {path : String} (h : name ∈ namesOf t path) :
    ∃ (place : Location) (k : Nat), t.resolve path = .ok place ∧
      (definedNames t place)[k]? = some name := by
  unfold namesOf at h
  split at h
  · next place hplace =>
      obtain ⟨k, hk⟩ := List.mem_iff_getElem?.mp h
      exact ⟨place, k, hplace, hk⟩
  · cases h

theorem isInput_iff {paths : List String} (hpaths : ((expand t patterns).run.run []).1 = .ok paths)
    {path : String} : IsInput t patterns path ↔ path ∈ paths := by
  constructor
  · rintro ⟨paths', hpaths', hpath⟩
    rwa [← Except.ok.inj (hpaths'.symm.trans hpaths)]
  · exact fun hpath => ⟨paths, hpaths, hpath⟩

/-- Different paths that are read have different components. -/
theorem eq_of_isInput {path path' : String} (h : IsInput t patterns path)
    (h' : IsInput t patterns path') (hsame : components path = components path') : path = path' := by
  obtain ⟨paths, hpaths, hpath⟩ := h
  have hpath' := (isInput_iff hpaths).mp h'
  have hsymm : Std.Symm fun p q : String => components p ≠ components q := ⟨fun _ _ => Ne.symm⟩
  by_contra hne
  exact ((ensures_pairwise_expand t patterns).of_ok hpaths).forall hpath hpath' hne hsame

/-- Two definitions of a name under paths with the same components stand at two places of a file. -/
theorem standsTwice_of_components {path path' : String} {place place' : Location} {k k' : Nat}
    (hsame : components path = components path') (hplace : t.resolve path = .ok place)
    (hplace' : t.resolve path' = .ok place') (hk : (definedNames t place)[k]? = some name)
    (hk' : (definedNames t place')[k']? = some name) (hne : (place, k) ≠ (place', k')) :
    StandsTwice name (namesOf t path) := by
  obtain rfl := FileTree.eq_of_components hsame hplace hplace'
  rw [← namesOf_eq hplace] at hk hk'
  have hk_ne : k ≠ k' := fun h => hne (by rw [h])
  rcases Nat.lt_or_gt_of_ne hk_ne with hlt | hlt
  · exact ⟨k, k', hlt, hk, hk'⟩
  · exact ⟨k', k, hlt, hk', hk⟩

/-- A name that stands twice in one file is defined twice. -/
theorem isDefinedTwice_of_standsTwice {path : String} (h : IsInput t patterns path)
    (htwice : StandsTwice name (namesOf t path)) : IsDefinedTwice t patterns name := by
  obtain ⟨i, j, hij, hi, hj⟩ := htwice
  obtain ⟨place, -, hplace, -⟩ := exists_place_of_mem_namesOf (List.mem_of_getElem? hi)
  rw [namesOf_eq hplace] at hi hj
  refine ⟨path, path, place, place, i, j, h, h, hplace, hplace, hi, hj, fun hsame => ?_⟩
  exact Nat.ne_of_lt hij (Prod.mk.inj hsame).2

/-- A name in the files of two paths is defined twice, unless both lead to one file. -/
theorem isDefinedTwice_or_isReadTwice {path path' : String} (h : IsInput t patterns path)
    (h' : IsInput t patterns path') (hne : components path ≠ components path')
    (hname : name ∈ namesOf t path) (hname' : name ∈ namesOf t path') :
    IsDefinedTwice t patterns name ∨ IsReadTwice t patterns name := by
  obtain ⟨place, k, hplace, hk⟩ := exists_place_of_mem_namesOf hname
  obtain ⟨place', k', hplace', hk'⟩ := exists_place_of_mem_namesOf hname'
  by_cases hsame : place = place'
  · subst hsame
    exact Or.inr ⟨path, path', place, h, h', hne, hplace, hplace', List.mem_of_getElem? hk⟩
  · exact Or.inl ⟨path, path', place, place', k, k', h, h', hplace, hplace', hk, hk',
      fun hpair => hsame (Prod.mk.inj hpair).1⟩

/-- What stands twice among the names that are read is defined twice or read twice. -/
theorem standsTwice_iff {paths : List String}
    (hpaths : ((expand t patterns).run.run []).1 = .ok paths) :
    StandsTwice name (paths.flatMap (namesOf t)) ↔
      IsDefinedTwice t patterns name ∨ IsReadTwice t patterns name := by
  rw [standsTwice_flatMap_iff ((ensures_pairwise_expand t patterns).of_ok hpaths)]
  simp only [← isInput_iff hpaths]
  constructor
  · rintro (⟨path, hpath, htwice⟩ | ⟨path, hpath, path', hpath', hne, hname, hname'⟩)
    · exact Or.inl (isDefinedTwice_of_standsTwice hpath htwice)
    · exact isDefinedTwice_or_isReadTwice hpath hpath' hne hname hname'
  · rintro (⟨path, path', place, place', k, k', hpath, hpath', hplace, hplace', hk, hk', hne⟩ |
      ⟨path, path', place, hpath, hpath', hne, hplace, hplace', hname⟩)
    · by_cases hsame : components path = components path'
      · exact Or.inl ⟨path, hpath, standsTwice_of_components hsame hplace hplace' hk hk' hne⟩
      · rw [← namesOf_eq hplace] at hk
        rw [← namesOf_eq hplace'] at hk'
        exact Or.inr ⟨path, hpath, path', hpath', hsame, List.mem_of_getElem? hk,
          List.mem_of_getElem? hk'⟩
    · exact Or.inr ⟨path, hpath, path', hpath', hne, by rwa [namesOf_eq hplace],
        by rwa [namesOf_eq hplace']⟩

/-- Inputs that are spelled alike read no file under two paths. -/
theorem not_isReadTwice (ht : t.AllNames IsEntryName) (halike : SpelledAlike patterns) :
    ¬ IsReadTwice t patterns name := by
  rintro ⟨path, path', place, hpath, hpath', hne, hplace, hplace', -⟩
  exact hne (components_eq_of_isInput ht halike hpath hpath' hplace hplace')

end

/-! ## Main statement -/

/-- **A name is reported for all files together if it is defined twice on disk, or if a file that
defines it is read under two paths.** The first three parts say what is reported by each task, and the
last that no file is read twice if the inputs are spelled alike, so that every name reported then is
defined twice. -/
theorem repository_duplicates_on_disk {t : FileTree} {input : ByteArray} {inputs : Inputs}
    (hinputs : inputs.patterns ≠ []) {found : List Definition} {warnings : List Warning}
    (hfound : (listedDefinitions t input inputs).run.run [] = (.ok found, warnings)) :
    ((Task.duplicates inputs .repository).run t input).stdout =
        Report.ofLines ((duplicateGroups .repository found).map groupLine) ∧
    (∀ (output : Output) (format : Report.Format), Report.Format.parse output.format = .ok format →
      ((Task.functions inputs .repository output).result t input).run.run [] =
        (.ok ⟨0, format.summary ⟨found, duplicateNames .repository found⟩, output.path⟩, warnings)) ∧
    (∀ name, name ∈ duplicateNames .repository found ↔
      ∃ group ∈ duplicateGroups .repository found, group.name = name) ∧
    (∀ name, name ∈ duplicateNames .repository found ↔
      IsDefinedTwice t inputs.patterns name ∨ IsReadTwice t inputs.patterns name) ∧
    (t.AllNames IsEntryName → SpelledAlike inputs.patterns →
      (∀ (path path' : String) (place : Location), IsInput t inputs.patterns path →
        IsInput t inputs.patterns path' → t.resolve path = .ok place → t.resolve path' = .ok place →
        path = path') ∧
      ∀ name, name ∈ duplicateNames .repository found ↔ IsDefinedTwice t inputs.patterns name) := by
  have hreported : ∀ name, name ∈ duplicateNames .repository found ↔
      IsDefinedTwice t inputs.patterns name ∨ IsReadTwice t inputs.patterns name := by
    intro name
    obtain ⟨paths, hpaths, hnames⟩ := exists_expand_of_listed hinputs (congrArg Prod.fst hfound)
    rw [mem_duplicateNames_repository_iff, hnames, standsTwice_iff hpaths]
  refine ⟨stdout_duplicates hinputs hfound, fun output format hformat => ?_,
    fun name => mem_duplicateNames_iff, hreported, fun ht halike => ⟨?_, fun name => ?_⟩⟩
  · exact result_functions hformat hfound
  · intro path path' place hpath hpath' hplace hplace'
    exact eq_of_isInput hpath hpath'
      (components_eq_of_isInput ht halike hpath hpath' hplace hplace')
  · rw [hreported name, or_iff_left (not_isReadTwice ht halike)]

/-- A script that defines one function once. -/
def once : String := "f() \x7b :; \x7d\n"

/-- Two files that define the same function. -/
def sharedName : FileTree :=
  ((FileTree.ofWork ["home"]).addFile ["home", "lib", "a.sh"] once.toUTF8).addFile
    ["home", "lib", "b.sh"] once.toUTF8

theorem allNames_sharedName : sharedName.AllNames IsEntryName := by
  have hhome : IsEntryName "home" := ⟨by decide, by decide⟩
  have hlib : IsEntryName "lib" := ⟨by decide, by decide⟩
  have ha : IsEntryName "a.sh" := ⟨by decide, by decide⟩
  have hb : IsEntryName "b.sh" := ⟨by decide, by decide⟩
  refine .addFile (.addFile (.ofWork ?_) ?_ _) ?_ _ <;> simp [hhome, hlib, ha, hb]

/-- The function is a duplicate, and the file that is given twice counts once. -/
theorem repository_duplicates_sharedName :
    (["lib//a.sh", "lib/a.sh", "lib/b.sh"] : List String) ≠ [] ∧
    (listedDefinitions sharedName .empty ⟨["lib//a.sh", "lib/a.sh", "lib/b.sh"], false⟩).run.run [] =
      (.ok [⟨"f", none, none, "lib//a.sh", 1, 1, 1⟩, ⟨"f", none, none, "lib/b.sh", 1, 1, 1⟩], []) ∧
    ((Task.duplicates ⟨["lib//a.sh", "lib/a.sh", "lib/b.sh"], false⟩ .repository).run sharedName
      .empty).stdout = "f: lib//a.sh:1, lib/b.sh:1\n" ∧
    sharedName.AllNames IsEntryName ∧ SpelledAlike ["lib//a.sh", "lib/a.sh", "lib/b.sh"] ∧
    IsDefinedTwice sharedName ["lib//a.sh", "lib/a.sh", "lib/b.sh"] "f" := by
  have hinputs : (["lib//a.sh", "lib/a.sh", "lib/b.sh"] : List String) ≠ [] := by decide
  have hexpand : expand sharedName ["lib//a.sh", "lib/a.sh", "lib/b.sh"] =
      pure ["lib//a.sh", "lib/b.sh"] := by
    rw [expand_of_isFile (by decide +kernel), canonical_of_pairwise (by decide +kernel)]
    exact congrArg pure (by decide +kernel)
  have hfound : (listedDefinitions sharedName .empty
      ⟨["lib//a.sh", "lib/a.sh", "lib/b.sh"], false⟩).run.run [] =
      (.ok [⟨"f", none, none, "lib//a.sh", 1, 1, 1⟩, ⟨"f", none, none, "lib/b.sh", 1, 1, 1⟩],
        []) := by
    rw [listedDefinitions_eq hinputs, hexpand, pure_bind]
    show @Eq (Except Failure (List Definition) × List Warning) _ _
    decide +kernel
  have halike : SpelledAlike ["lib//a.sh", "lib/a.sh", "lib/b.sh"] := by
    refine ⟨false, ?_⟩
    unfold NoDots
    decide
  obtain ⟨hstdout, -, -, -, hreal⟩ := repository_duplicates_on_disk hinputs hfound
  refine ⟨hinputs, hfound, hstdout.trans (by decide +kernel), allNames_sharedName, halike, ?_⟩
  exact ((hreal allNames_sharedName halike).2 "f").mp (by decide +kernel)

/-! ## Two spellings of one file -/

/-- One file that defines one function. -/
def onlyOnce : FileTree := (FileTree.ofWork ["home"]).addFile ["home", "a.sh"] once.toUTF8

theorem definedNames_onlyOnce {place : Location} {k : Nat} {name : String}
    (h : (definedNames onlyOnce place)[k]? = some name) : place = ["home", "a.sh"] ∧ k = 0 := by
  have hnodes : ∀ place ∈ onlyOnce.nodes.keys,
      place = ["home", "a.sh"] ∨ onlyOnce.node? place = some .directory := by decide +kernel
  have hfile : definedNames onlyOnce ["home", "a.sh"] = ["f"] := by decide +kernel
  have hplace : place = ["home", "a.sh"] := by
    by_contra hother
    have hnone : definedNames onlyOnce place = [] := by
      unfold definedNames
      split
      · next content hnode =>
          have hne : place ≠ [] := by
            rintro rfl
            cases hnode
          have hmem : place ∈ onlyOnce.nodes := by
            rw [FileTree.node?, if_neg hne] at hnode
            exact Std.ExtTreeMap.mem_iff_isSome_getElem?.mpr (by rw [hnode]; rfl)
          rcases hnodes place (Std.ExtTreeMap.mem_keys.mpr hmem) with hsame | hdirectory
          · exact absurd hsame hother
          · cases hnode.symm.trans hdirectory
      · rfl
    rw [hnone] at h
    cases h
  subst hplace
  rw [hfile] at h
  cases k with
  | zero => exact ⟨rfl, rfl⟩
  | succ k => cases h

/-- The file is read twice and its function is reported, though it is defined once. -/
theorem onlyOnce_reported :
    ((Task.duplicates ⟨["./a.sh", "a.sh"], false⟩ .repository).run onlyOnce .empty).stdout =
      "f: ./a.sh:1, a.sh:1\n" ∧
    ¬ ∀ (t : FileTree) (input : ByteArray) (inputs : Inputs), t.AllNames IsEntryName →
      inputs.patterns ≠ [] → ∀ found warnings,
        (listedDefinitions t input inputs).run.run [] = (.ok found, warnings) →
        ∀ name ∈ duplicateNames .repository found,
          ∃ (place place' : Location) (k k' : Nat), (definedNames t place)[k]? = some name ∧
            (definedNames t place')[k']? = some name ∧ (place, k) ≠ (place', k') := by
  have hinputs : (["./a.sh", "a.sh"] : List String) ≠ [] := by decide
  have hnames : onlyOnce.AllNames IsEntryName := by
    have hhome : IsEntryName "home" := ⟨by decide, by decide⟩
    have ha : IsEntryName "a.sh" := ⟨by decide, by decide⟩
    refine .addFile (.ofWork ?_) ?_ _ <;> simp [hhome, ha]
  have hexpand : expand onlyOnce ["./a.sh", "a.sh"] = pure ["./a.sh", "a.sh"] := by
    rw [expand_of_isFile (by decide +kernel), canonical_of_pairwise (by decide +kernel)]
    exact congrArg pure (by decide +kernel)
  have hfound : (listedDefinitions onlyOnce .empty ⟨["./a.sh", "a.sh"], false⟩).run.run [] =
      (.ok [⟨"f", none, none, "./a.sh", 1, 1, 1⟩, ⟨"f", none, none, "a.sh", 1, 1, 1⟩], []) := by
    rw [listedDefinitions_eq hinputs, hexpand, pure_bind]
    show @Eq (Except Failure (List Definition) × List Warning) _ _
    decide +kernel
  refine ⟨(stdout_duplicates hinputs hfound).trans (by decide +kernel), fun h => ?_⟩
  obtain ⟨place, place', k, k', hk, hk', hne⟩ :=
    h onlyOnce .empty _ hnames hinputs _ _ hfound "f" (by decide +kernel)
  obtain ⟨rfl, rfl⟩ := definedNames_onlyOnce hk
  obtain ⟨rfl, rfl⟩ := definedNames_onlyOnce hk'
  exact hne rfl

end ShellIndex.Command
