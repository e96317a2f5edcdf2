import Mathlib.Data.List.Forall2
import ShellIndex.Proofs.Command.Paths

set_option autoImplicit false

/-! # The paths that some inputs stand for

Each input stands for some paths of its own (`Yields`): a file for itself, a directory for the scripts
directly in it, and a pattern for the files that match it. The inputs together stand for the union of
these, taken up to the spelling of the paths. So the order of the inputs and how often they are given
decides about nothing but the spellings, of which the first is kept.
-/

namespace ShellIndex.Command

open ShellIndex.Path

/-! ## One input -/

/-- `path` is one of those that an input stands for. -/
inductive Yields (t : FileTree) (pattern : String) : String → Prop where
  /-- A file stands for itself. -/
  | file (h : t.isFile pattern = true) : Yields t pattern pattern
  /-- A directory stands for its entries that are files and have the name of a script. -/
  | script {above : Location} {name : String} (hdir : t.isDirectory pattern = true)
      (habove : t.resolve pattern = .ok above) (hentry : above ++ [name] ∈ t.nodes)
      (hname : isScriptName name = true) (hscript : t.isFile (join pattern name) = true) :
      Yields t pattern (join pattern name)
  /-- A pattern that is neither stands for the files that match it. -/
  | matched {parsed : Glob.PathPattern} {path : String} (hfile : t.isFile pattern = false)
      (hdir : t.isDirectory pattern = false) (hparsed : Glob.PathPattern.parse pattern = .ok parsed)
      (hpath : path ∈ parsed.paths t) (hmatch : t.isFile path = true) : Yields t pattern path

/-- The paths that one input stands for, in order. -/
def standsFor (t : FileTree) (pattern : String) : Except Failure (List String) :=
  ((pathsOf t pattern).run.run []).1

section
variable {t : FileTree} {pattern path : String}

theorem not_isDirectory_of_isFile (h : t.isFile path = true) : t.isDirectory path = false := by
  rw [Bool.eq_false_iff]
  intro hdir
  obtain ⟨place, _, hplace, hcontent⟩ := FileTree.isFile_iff.mp h
  obtain ⟨place', hplace', hnode⟩ := FileTree.isDirectory_iff.mp hdir
  exact FileTree.ne_of_isFile hcontent hnode (Except.ok.inj (hplace.symm.trans hplace'))

theorem yields_iff_of_isFile (h : t.isFile pattern = true) :
    Yields t pattern path ↔ path = pattern := by
  constructor
  · intro hyields
    cases hyields with
    | file => rfl
    | script hdir => exact absurd (hdir.symm.trans (not_isDirectory_of_isFile h)) (by decide)
    | matched hfile => exact absurd (h.symm.trans hfile) (by decide)
  · rintro rfl
    exact .file h

theorem yields_iff_of_isDirectory (hfile : t.isFile pattern = false)
    (hdir : t.isDirectory pattern = true) :
    Yields t pattern path ↔ path ∈ scriptsIn t pattern := by
  rw [mem_scriptsIn]
  constructor
  · intro hyields
    cases hyields with
    | file h => exact absurd (h.symm.trans hfile) (by decide)
    | script _ habove hentry hname hscript => exact ⟨_, _, habove, hentry, hname, rfl, hscript⟩
    | matched _ hnone => exact absurd (hdir.symm.trans hnone) (by decide)
  · rintro ⟨above, name, habove, hentry, hname, rfl, hscript⟩
    exact .script hdir habove hentry hname hscript

theorem yields_iff_of_parse (hfile : t.isFile pattern = false) (hdir : t.isDirectory pattern = false)
    {parsed : Glob.PathPattern} (hparsed : Glob.PathPattern.parse pattern = .ok parsed) :
    Yields t pattern path ↔ path ∈ (parsed.paths t).filter t.isFile := by
  rw [List.mem_filter]
  constructor
  · intro hyields
    cases hyields with
    | file h => exact absurd (h.symm.trans hfile) (by decide)
    | script hdirectory => exact absurd (hdirectory.symm.trans hdir) (by decide)
    | matched _ _ hparsed' hpath hmatch =>
        obtain rfl := Except.ok.inj (hparsed'.symm.trans hparsed)
        exact ⟨hpath, hmatch⟩
  · rintro ⟨hpath, hmatch⟩
    exact .matched hfile hdir hparsed hpath hmatch

/-- What has been warned about before does not matter. -/
theorem fst_run_pathsOf (t : FileTree) (pattern : String) (warnings : List Warning) :
    ((pathsOf t pattern).run.run warnings).1 = standsFor t pattern := by
  unfold standsFor pathsOf
  split
  · rfl
  · split
    · rfl
    · split
      · rfl
      · dsimp only
        split
        · rfl
        · rfl

theorem mem_standsFor_iff {found : List String} (h : standsFor t pattern = .ok found) :
    path ∈ found ↔ Yields t pattern path := by
  unfold standsFor pathsOf at h
  split at h
  · next hfile =>
      obtain rfl : [pattern] = found := Except.ok.inj h
      rw [yields_iff_of_isFile hfile, List.mem_singleton]
  · next hfile =>
      split at h
      · next hdir =>
          obtain rfl : scriptsIn t pattern = found := Except.ok.inj h
          rw [yields_iff_of_isDirectory (Bool.eq_false_iff.mpr hfile) hdir]
      · next hdir =>
          split at h
          · cases h
          · next parsed hparsed =>
              have hfound : (parsed.paths t).filter t.isFile = found := by
                dsimp only at h
                split at h
                · exact Except.ok.inj h
                · exact Except.ok.inj h
              rw [yields_iff_of_parse (Bool.eq_false_iff.mpr hfile) (Bool.eq_false_iff.mpr hdir)
                hparsed, hfound]

end

/-! ## Several inputs -/

/-- Computations whose results do not depend on the warnings before give these results one after
another. -/
theorem Run.fst_run_mapM_eq_ok_iff {α β : Type} {f : α → Run β} {g : α → Except Failure β}
    (hfg : ∀ a warnings, ((f a).run.run warnings).1 = g a) {as : List α} {bs : List β}
    {warnings : List Warning} :
    ((as.mapM f).run.run warnings).1 = .ok bs ↔ List.Forall₂ (fun a b => g a = .ok b) as bs := by
  induction as generalizing bs warnings with
  | nil =>
      rw [List.forall₂_nil_left_iff]
      constructor
      · intro h
        exact (Except.ok.inj h).symm
      · rintro rfl
        rfl
  | cons a as ih =>
      have hfirst := hfg a warnings
      rw [List.forall₂_cons_left_iff, List.mapM_cons, run_bind]
      rcases hrun : (f a).run.run warnings with ⟨failure | b, between⟩
      · rw [hrun] at hfirst
        refine ⟨fun h => (nomatch h), ?_⟩
        rintro ⟨_, _, hb, -⟩
        cases hfirst.trans hb
      · rw [hrun] at hfirst
        dsimp only
        rw [run_bind]
        have hrest := fun others => @ih others between
        rcases hmore : (as.mapM f).run.run between with ⟨failure | more, after⟩
        · rw [hmore] at hrest
          refine ⟨fun h => (nomatch h), ?_⟩
          rintro ⟨_, others, -, hothers, -⟩
          cases (hrest others).mpr hothers
        · rw [hmore] at hrest
          constructor
          · intro h
            exact ⟨b, more, hfirst.symm, (hrest more).mp rfl, (Except.ok.inj h).symm⟩
          · rintro ⟨_, others, hb, hothers, rfl⟩
            obtain rfl := Except.ok.inj (hfirst.trans hb)
            obtain rfl := Except.ok.inj ((hrest others).mpr hothers)
            rfl

/-- The inputs stand for `founds`, one after another. -/
def StandFor (t : FileTree) (patterns : List String) (founds : List (List String)) : Prop :=
  List.Forall₂ (fun pattern found => standsFor t pattern = .ok found) patterns founds

section
variable {t : FileTree} {patterns patterns' paths paths' : List String}
  {founds founds' : List (List String)} {warnings : List Warning}

/-- The inputs together stand for what they stand for one after another, in ascending order and each
once. -/
theorem fst_run_expand_eq_ok_iff : ((expand t patterns).run.run warnings).1 = .ok paths ↔
    ∃ founds, StandFor t patterns founds ∧ paths = canonical founds.flatten := by
  have hmap := fun founds => @Run.fst_run_mapM_eq_ok_iff _ _ _ _ (fst_run_pathsOf t) patterns founds
    warnings
  rw [expand, Run.run_bind]
  rcases hrun : (patterns.mapM (pathsOf t)).run.run warnings with ⟨failure | founds, after⟩
  · rw [hrun] at hmap
    refine ⟨fun h => (by cases h), ?_⟩
    rintro ⟨founds, hfounds, -⟩
    cases (hmap founds).mpr hfounds
  · rw [hrun] at hmap
    constructor
    · intro h
      exact ⟨founds, (hmap founds).mp rfl, (Except.ok.inj h).symm⟩
    · rintro ⟨others, hothers, rfl⟩
      obtain rfl := Except.ok.inj ((hmap others).mpr hothers)
      rfl

namespace StandFor

/-- The paths of all inputs are those of each. -/
theorem mem_flatten_iff (h : StandFor t patterns founds) {path : String} :
    path ∈ founds.flatten ↔ ∃ pattern ∈ patterns, Yields t pattern path := by
  induction h with
  | nil => simp
  | cons hfound _ ih =>
      rw [List.flatten_cons, List.mem_append, ih, mem_standsFor_iff hfound, List.exists_mem_cons_iff]

theorem exists_of_forall (h : ∀ pattern ∈ patterns, ∃ found, standsFor t pattern = .ok found) :
    ∃ founds, StandFor t patterns founds := by
  induction patterns with
  | nil => exact ⟨[], .nil⟩
  | cons pattern patterns ih =>
      obtain ⟨found, hfound⟩ := h pattern List.mem_cons_self
      obtain ⟨founds, hfounds⟩ := ih fun other hother => h other (List.mem_cons_of_mem pattern hother)
      exact ⟨found :: founds, .cons hfound hfounds⟩

theorem exists_of_mem (h : StandFor t patterns founds) {pattern : String} (hmem : pattern ∈ patterns) :
    ∃ found, standsFor t pattern = .ok found := by
  induction h with
  | nil => cases hmem
  | cons hfound _ ih =>
      rcases List.mem_cons.mp hmem with rfl | hmem
      · exact ⟨_, hfound⟩
      · exact ih hmem

end StandFor

/-- Inputs that are all given can be given in any order and number. -/
theorem exists_expand_of_subset (h : ((expand t patterns).run.run warnings).1 = .ok paths)
    (hsubset : ∀ pattern ∈ patterns', pattern ∈ patterns) (warnings' : List Warning) :
    ∃ paths', ((expand t patterns').run.run warnings').1 = .ok paths' := by
  obtain ⟨founds, hfounds, -⟩ := fst_run_expand_eq_ok_iff.mp h
  obtain ⟨founds', hfounds'⟩ := StandFor.exists_of_forall fun pattern hpattern =>
    hfounds.exists_of_mem (hsubset pattern hpattern)
  exact ⟨_, fst_run_expand_eq_ok_iff.mpr ⟨founds', hfounds', rfl⟩⟩

/-- Up to the spelling the paths are those that the inputs stand for. -/
theorem mem_map_components_expand (h : ((expand t patterns).run.run warnings).1 = .ok paths)
    {cs : List Component} : cs ∈ paths.map components ↔
      ∃ pattern ∈ patterns, ∃ path, Yields t pattern path ∧ components path = cs := by
  obtain ⟨founds, hfounds, rfl⟩ := fst_run_expand_eq_ok_iff.mp h
  rw [mem_map_components_canonical, List.mem_map]
  simp only [hfounds.mem_flatten_iff]
  constructor
  · rintro ⟨path, ⟨pattern, hpattern, hyields⟩, hcs⟩
    exact ⟨pattern, hpattern, path, hyields, hcs⟩
  · rintro ⟨pattern, hpattern, path, hyields, hcs⟩
    exact ⟨path, ⟨pattern, hpattern, hyields⟩, hcs⟩

/-- Inputs that are given in another order and number stand for the same paths, up to spelling. -/
theorem map_components_expand (h : ((expand t patterns).run.run warnings).1 = .ok paths)
    {warnings' : List Warning} (h' : ((expand t patterns').run.run warnings').1 = .ok paths')
    (hsame : ∀ pattern, pattern ∈ patterns' ↔ pattern ∈ patterns) :
    paths'.map components = paths.map components := by
  have hmem : ∀ cs, cs ∈ paths'.map components ↔ cs ∈ paths.map components := fun cs => by
    rw [mem_map_components_expand h', mem_map_components_expand h]
    simp only [hsame]
  obtain ⟨founds, hfounds, rfl⟩ := fst_run_expand_eq_ok_iff.mp h
  obtain ⟨founds', hfounds', rfl⟩ := fst_run_expand_eq_ok_iff.mp h'
  refine map_components_canonical fun cs => ?_
  rw [← mem_map_components_canonical, hmem, mem_map_components_canonical]

/-- Files that are spelled alike up to their components are the same. -/
theorem map_resolve_eq (hpaths : ∀ path ∈ paths, t.isFile path = true)
    (hpaths' : ∀ path ∈ paths', t.isFile path = true)
    (hsame : paths'.map components = paths.map components) :
    paths'.map t.resolve = paths.map t.resolve := by
  induction paths generalizing paths' with
  | nil =>
      rw [List.map_nil, List.map_eq_nil_iff] at hsame
      rw [hsame]
  | cons path paths ih =>
      cases paths' with
      | nil => cases hsame
      | cons path' paths' =>
          obtain ⟨hfirst, hrest⟩ := List.cons.inj hsame
          obtain ⟨place, _, hplace, -⟩ := FileTree.isFile_iff.mp (hpaths path List.mem_cons_self)
          obtain ⟨place', _, hplace', -⟩ := FileTree.isFile_iff.mp (hpaths' path' List.mem_cons_self)
          rw [List.map_cons, List.map_cons, hplace, hplace',
            FileTree.eq_of_components hfirst hplace' hplace,
            ih (fun p hp => hpaths p (List.mem_cons_of_mem path hp))
              (fun p hp => hpaths' p (List.mem_cons_of_mem path' hp)) hrest]

/-- **Inputs stand for a set of files.** The paths are those of files, ascend strictly and so have
different components. Each is one that some input stands for, and up to spelling there are no others.
Of the spellings of a path the one is kept that comes first when the inputs are taken one after
another. Inputs given in another order, or more than once, stand for the same files in the same
order. -/
theorem expand_is_canonical (h : ((expand t patterns).run.run warnings).1 = .ok paths) :
    (∀ path ∈ paths, t.isFile path = true) ∧
    paths.Pairwise (fun p q => order p q = .lt) ∧
    paths.Pairwise (fun p q => components p ≠ components q) ∧
    (∀ path ∈ paths, ∃ pattern ∈ patterns, Yields t pattern path) ∧
    (∀ pattern ∈ patterns, ∀ path, Yields t pattern path →
      ∃ kept ∈ paths, components kept = components path) ∧
    (∃ founds, List.Forall₂ (fun pattern found => standsFor t pattern = .ok found ∧
        ∀ path, path ∈ found ↔ Yields t pattern path) patterns founds ∧
      ∀ path ∈ paths,
        founds.flatten.find? (fun other => components other == components path) = some path) ∧
    ∀ (patterns' : List String) (warnings' : List Warning),
      (∀ pattern, pattern ∈ patterns' ↔ pattern ∈ patterns) →
        ∃ paths', ((expand t patterns').run.run warnings').1 = .ok paths' ∧
          paths'.map components = paths.map components ∧
          paths'.map t.resolve = paths.map t.resolve := by
  have hfiles := (ensures_expand t patterns).of_ok h
  refine ⟨hfiles, ?_, ?_, fun path hpath => ?_, fun pattern hpattern path hyields => ?_, ?_,
    fun patterns' warnings' hsame => ?_⟩
  · obtain ⟨founds, -, rfl⟩ := fst_run_expand_eq_ok_iff.mp h
    exact pairwise_lt_canonical _
  · exact (ensures_pairwise_expand t patterns).of_ok h
  · obtain ⟨founds, hfounds, rfl⟩ := fst_run_expand_eq_ok_iff.mp h
    exact hfounds.mem_flatten_iff.mp (mem_of_mem_canonical hpath)
  · exact List.mem_map.mp ((mem_map_components_expand h).mpr ⟨pattern, hpattern, path, hyields, rfl⟩)
  · obtain ⟨founds, hfounds, rfl⟩ := fst_run_expand_eq_ok_iff.mp h
    exact ⟨founds, hfounds.imp fun _ _ hfound => ⟨hfound, fun _ => mem_standsFor_iff hfound⟩,
      fun path => spelling?_of_mem_canonical⟩
  · obtain ⟨paths', h'⟩ := exists_expand_of_subset h (fun pattern => (hsame pattern).mp) warnings'
    have hcomponents := map_components_expand h h' hsame
    have hfiles' := (ensures_expand t patterns').of_ok h'
    exact ⟨paths', h', hcomponents, map_resolve_eq hfiles hfiles' hcomponents⟩

end

/-! ## A script with two spellings -/

/-- A directory of two scripts. -/
def libraryOfTwo : FileTree :=
  ((FileTree.ofWork ["home"]).addFile ["home", "lib", "a.sh"] .empty).addFile
    ["home", "lib", "b.sh"] .empty

/-- A script of a directory that is also given by itself is listed as it is spelled first. The other
way round the same files are listed. -/
theorem expand_is_canonical_two_spellings :
    ((expand libraryOfTwo ["lib//a.sh", "lib"]).run.run []).1 = .ok ["lib//a.sh", "lib/b.sh"] ∧
    order "lib//a.sh" "lib/b.sh" = .lt ∧
    (Yields libraryOfTwo "lib" "lib/a.sh" ∧
      ∃ kept ∈ ["lib//a.sh", "lib/b.sh"], components kept = components "lib/a.sh") ∧
    ∃ paths, ((expand libraryOfTwo ["lib", "lib//a.sh", "lib"]).run.run []).1 = .ok paths ∧
      paths.map components = ["lib//a.sh", "lib/b.sh"].map components ∧
      paths.map libraryOfTwo.resolve = ["lib//a.sh", "lib/b.sh"].map libraryOfTwo.resolve := by
  have hexpand : ((expand libraryOfTwo ["lib//a.sh", "lib"]).run.run []).1 =
      .ok ["lib//a.sh", "lib/b.sh"] := by
    refine fst_run_expand_eq_ok_iff.mpr ⟨[["lib//a.sh"], ["lib/a.sh", "lib/b.sh"]], ?_, ?_⟩
    · exact .cons (by decide +kernel) (.cons (by decide +kernel) .nil)
    · rw [canonical_of_pairwise (by decide +kernel)]
      decide +kernel
  have hyields : Yields libraryOfTwo "lib" "lib/a.sh" := by
    have hscript : "lib/a.sh" ∈ scriptsIn libraryOfTwo "lib" := by decide +kernel
    exact (yields_iff_of_isDirectory (by decide +kernel) (by decide +kernel)).mpr hscript
  obtain ⟨-, hascending, -, -, hkept, -, hpermuted⟩ := expand_is_canonical hexpand
  refine ⟨hexpand, (List.pairwise_cons.mp hascending).1 _ List.mem_cons_self, ⟨hyields, ?_⟩, ?_⟩
  · exact hkept "lib" (by decide) "lib/a.sh" hyields
  · exact hpermuted ["lib", "lib//a.sh", "lib"] [] (by simp [or_comm])

end ShellIndex.Command
