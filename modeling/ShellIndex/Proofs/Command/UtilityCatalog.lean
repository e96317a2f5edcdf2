import ShellIndex.Proofs.Catalog.Pairs
import ShellIndex.Proofs.Command.Scripts
import ShellIndex.Proofs.Command.Tasks
import ShellIndex.Proofs.Definition.Names

set_option autoImplicit false

/-! # The catalog of the utility functions

The definitions of labelled scripts all go into a catalog, since every one of them has a name. The
scripts of a directory are labelled, so that a run never fails because of its catalog.
-/

namespace ShellIndex.Command

open ShellIndex.Path

/-! ## Labels of utility scripts -/

/-- No script directly in a directory has the empty label. -/
theorem label_ne_empty {t : FileTree} {dir path : String} (hdir : t.isDirectory dir = true)
    (h : path ∈ scriptsIn t dir) : t.label path dir ≠ "" := by
  obtain ⟨above, name, habove, -, -, rfl, hfile⟩ := mem_scriptsIn.mp h
  obtain ⟨place, content, hplace, hcontent⟩ := FileTree.isFile_iff.mp hfile
  obtain ⟨above', habove', hdirectory⟩ := FileTree.isDirectory_iff.mp hdir
  obtain rfl := Except.ok.inj (habove'.symm.trans habove)
  have hcomponents := components_join (FileTree.resolve_eq_ok_iff.mp habove).1 name
  have hne := FileTree.components_ne_nil_of_resolve habove
  obtain ⟨ps, hps, -, -⟩ := exists_remainder? hne hcomponents
  intro hempty
  -- A script with the empty label would be the directory itself.
  rw [FileTree.label_of_remainder? hps] at hempty
  rw [hempty] at hps
  have hnil : innerComponents name = [] := by
    rw [← components_remainder? hne hcomponents hps]
    rfl
  rw [hnil] at hcomponents
  have hsame : place = above' := FileTree.eq_of_resolve_below hne hcomponents hplace habove
  exact FileTree.ne_of_isFile hcontent hdirectory hsame

/-! ## Definitions of labelled scripts -/

/-- The definitions that are found in scripts all have names, and the labels of scripts. -/
theorem accepts_of_found {sources : List Source} (hlabels : ∀ source ∈ sources, source.label ≠ "")
    {found : List Definition}
    (hfound : ∀ d ∈ found, d.name ≠ "" ∧ ∃ source ∈ sources, d.file = source.label) :
    ∀ d ∈ found, Catalog.Accepts d.entry := by
  intro d hd
  obtain ⟨hname, source, hsource, hfile⟩ := hfound d hd
  refine ⟨hname, ?_⟩
  show d.file ≠ ""
  rw [hfile]
  exact hlabels source hsource

/-- A failure that has nothing to do with the catalog. -/
def Failure.SparesCatalog (failure : Failure) : Prop := ∀ e, failure ≠ .badCatalog e

theorem ensures_definitionsIn (strict : Bool) (source : Source) :
    (definitionsIn strict source).Ensures
      (fun found => ∀ d ∈ found, d.name ≠ "" ∧ d.file = source.label)
      Failure.SparesCatalog := by
  unfold definitionsIn
  split
  · next hfound => exact Run.ensures_pure (Definition.name_ne_empty_of_extract hfound)
  · split
    · exact Run.ensures_throw nofun
    · exact (Run.ensures_warn _).bind fun _ _ => Run.ensures_pure (by simp)

theorem ensures_definitionsInAll (strict : Bool) (sources : List Source) :
    (definitionsInAll strict sources).Ensures
      (fun found => ∀ d ∈ found, d.name ≠ "" ∧ ∃ source ∈ sources, d.file = source.label)
      Failure.SparesCatalog := by
  unfold definitionsInAll
  have hscripts := Run.Ensures.mapM fun source (hsource : source ∈ sources) =>
    (ensures_definitionsIn strict source).imp fun found hfound d hd =>
      (⟨(hfound d hd).1, source, hsource, (hfound d hd).2⟩ :
        d.name ≠ "" ∧ ∃ source ∈ sources, d.file = source.label)
  refine hscripts.bind fun found hfound => Run.ensures_pure fun d hd => ?_
  obtain ⟨ds, hds, hd⟩ := List.mem_flatten.mp hd
  exact hfound ds hds d hd

/-! ## Runs -/

theorem ensures_formatOf (output : Output) :
    (formatOf output).Ensures (fun _ => True) Failure.SparesDefinitions := by
  unfold formatOf
  split
  · exact Run.ensures_pure trivial
  · exact Run.ensures_throw ⟨nofun, nofun⟩

theorem ensures_load (t : FileTree) (path label : String) :
    (load t path label).Ensures (fun source => source.label = label) Failure.SparesDefinitions := by
  unfold load
  split
  · exact Run.ensures_pure rfl
  · exact Run.ensures_throw ⟨nofun, nofun⟩

theorem ensures_readSources (t : FileTree) (patterns : List String) :
    (readSources t patterns).Ensures (fun _ => True) Failure.SparesDefinitions := by
  unfold readSources
  refine (ensures_expand t patterns).bind fun paths _ => ?_
  have hloads := Run.Ensures.mapM fun path (_ : path ∈ paths) =>
    (ensures_load t path path).imp fun _ _ => trivial
  exact hloads.imp fun _ _ => trivial

theorem ensures_readUtilities (t : FileTree) (dir : String) :
    (readUtilities t dir).Ensures (fun sources => ∀ source ∈ sources, source.label ≠ "")
      Failure.SparesDefinitions := by
  unfold readUtilities
  split
  · next hdir =>
      refine Run.Ensures.mapM fun path hpath => ?_
      refine (ensures_load t path (t.label path dir)).imp fun source hsource => ?_
      rw [hsource]
      exact label_ne_empty hdir hpath
  · exact Run.ensures_throw ⟨nofun, nofun⟩

theorem ensures_readInput (input : ByteArray) :
    (readInput input).Ensures (fun _ => True) Failure.SparesDefinitions := by
  unfold readInput
  split
  · exact Run.ensures_pure trivial
  · exact Run.ensures_throw ⟨nofun, nofun⟩

theorem ensures_listedDefinitions (t : FileTree) (input : ByteArray) (inputs : Inputs) :
    (listedDefinitions t input inputs).Ensures (fun _ => True) Failure.SparesCatalog := by
  have hsources : (listedSources t input inputs).Ensures (fun _ => True) Failure.SparesCatalog := by
    unfold listedSources
    split
    · exact ((ensures_readInput input).bind fun _ _ => Run.ensures_pure trivial).weaken
        fun _ hspares => hspares.ne_badCatalog
    · exact (ensures_readSources t inputs.patterns).weaken fun _ hspares => hspares.ne_badCatalog
  exact hsources.bind fun sources _ =>
    (ensures_definitionsInAll inputs.strict sources).imp fun _ _ => trivial

theorem ensures_functionsTask (t : FileTree) (input : ByteArray) (inputs : Inputs) (scope : Scope)
    (output : Output) : (functionsTask t input inputs scope output).Ensures (fun _ => True)
      Failure.SparesCatalog := by
  rw [functionsTask_eq]
  refine ((ensures_formatOf output).weaken fun _ hspares => hspares.ne_badCatalog).bind
    fun format _ => ?_
  exact (ensures_listedDefinitions t input inputs).bind fun _ _ => Run.ensures_pure trivial

/-- What labelled scripts define is accepted into the catalog. -/
theorem ensures_catalogIn (strict : Bool) {utilities : List Source}
    (hlabels : ∀ source ∈ utilities, source.label ≠ "") :
    (catalogIn strict utilities).Ensures (fun _ => True) Failure.SparesCatalog := by
  refine (ensures_definitionsInAll strict utilities).bind fun found hfound => ?_
  rw [Catalog.ofDefinitions_eq_ok_iff.mpr ⟨accepts_of_found hlabels hfound, rfl⟩]
  exact Run.ensures_pure trivial

theorem ensures_depsTask (t : FileTree) (utils : String) (inputs : Inputs) (output : Output) :
    (depsTask t utils inputs output).Ensures (fun _ => True) Failure.SparesCatalog := by
  have hformat := (ensures_formatOf output).weaken fun _ hspares => hspares.ne_badCatalog
  by_cases hinputs : inputs.patterns = []
  · rw [depsTask_of_no_inputs hinputs]
    exact hformat.bind fun _ _ => Run.ensures_throw nofun
  · rw [depsTask_eq hinputs]
    refine hformat.bind fun format _ => ?_
    refine ((ensures_readUtilities t utils).weaken fun _ hspares => hspares.ne_badCatalog).bind
      fun utilities hlabels => ?_
    refine (ensures_catalogIn inputs.strict hlabels).bind fun catalog _ => ?_
    exact ((ensures_readSources t inputs.patterns).weaken fun _ hspares => hspares.ne_badCatalog).bind
      fun _ _ => Run.ensures_pure trivial

theorem ensures_duplicatesTask (t : FileTree) (inputs : Inputs) (scope : Scope) :
    (duplicatesTask t inputs scope).Ensures (fun _ => True) Failure.SparesCatalog := by
  by_cases hinputs : inputs.patterns = []
  · rw [duplicatesTask_of_no_inputs hinputs]
    exact Run.ensures_throw nofun
  · rw [duplicatesTask_eq hinputs .empty]
    refine (ensures_listedDefinitions t .empty inputs).bind fun found _ => ?_
    unfold reportDuplicates
    dsimp only
    split
    · exact Run.ensures_pure trivial
    · exact (Run.ensures_warn _).bind fun _ _ => Run.ensures_pure trivial

theorem ensures_result (t : FileTree) (input : ByteArray) (task : Task) :
    (task.result t input).Ensures (fun _ => True) Failure.SparesCatalog := by
  cases task with
  | functions inputs scope output => exact ensures_functionsTask t input inputs scope output
  | deps utils inputs output => exact ensures_depsTask t utils inputs output
  | duplicates inputs scope => exact ensures_duplicatesTask t inputs scope

/-- No run fails because of its catalog. -/
theorem failure_ne_badCatalog (t : FileTree) (input : ByteArray) (invocation : Invocation)
    (e : CatalogError) : (invocation.run t input).failure ≠ some (.badCatalog e) := by
  rw [Invocation.failure_run]
  intro h
  rcases Task.result_of_failure h with ⟨after, hresult⟩ | ⟨_, _, hunwritable⟩
  · exact (ensures_result t input invocation.task).of_error (congrArg Prod.fst hresult) e rfl
  · cases hunwritable

/-! ## The catalog as a set -/

open Catalog in
/-- **A catalog is the set of the pairs that were accepted into it.** The first part is about any
pairs that are offered one after another to the empty catalog, the second about lists of
definitions, and the third about the definitions of labelled scripts, which are always accepted. -/
theorem catalog_is_set_of_pairs :
    (∀ pairs : List (String × String),
      (∀ name file, (ofPairs pairs).Defines name file ↔ (name, file) ∈ pairs.filter Accepts) ∧
      (∀ pairs', ofPairs pairs = ofPairs pairs' ↔
        ∀ pair, pair ∈ pairs.filter Accepts ↔ pair ∈ pairs'.filter Accepts) ∧
      (∀ pair e, (ofPairs pairs).insert pair.1 pair.2 = .error e ↔ Refuses pair e) ∧
      (∀ pair e, Refuses pair e → ofPairs (pairs ++ [pair]) = ofPairs pairs) ∧
      (∀ name files, (ofPairs pairs).definingFiles? name = some files →
        name ≠ "" ∧ files ≠ ∅ ∧ "" ∉ files) ∧
      (ofPairs pairs).size = ((pairs.filter Accepts).map Prod.fst).dedup.length ∧
      (∀ file, file ∈ (ofPairs pairs).files ↔ file ∈ (pairs.filter Accepts).map Prod.snd)) ∧
    ((∀ definitions catalog, ofDefinitions definitions = .ok catalog ↔
        (∀ d ∈ definitions, Accepts d.entry) ∧
          catalog = ofPairs (definitions.map Definition.entry)) ∧
      (∀ definitions e, ofDefinitions definitions = .error e ↔
        ∃ good d rest, definitions = good ++ d :: rest ∧ (∀ d ∈ good, Accepts d.entry) ∧
          Refuses d.entry e) ∧
      ∀ file text left right catalog catalog', ofDefinitions left = .ok catalog →
        ofDefinitions right = .ok catalog' →
          ∃ whole ofLeft ofRight, mapDependencies file text (left ++ right) = .ok whole ∧
            mapDependencies file text left = .ok ofLeft ∧
            mapDependencies file text right = .ok ofRight ∧
            whole.functions = ofLeft.functions ∪ ofRight.functions ∧
            whole.files = ofLeft.files ∪ ofRight.files) ∧
    (∀ scripts : List (String × String), (∀ script ∈ scripts, script.1 ≠ "") →
      ∀ definitions : List Definition,
        (∀ d ∈ definitions, ∃ script ∈ scripts, ∃ found,
          Definition.extract script.1 script.2 = .ok found ∧ d ∈ found) →
        ∃ catalog, ofDefinitions definitions = .ok catalog) ∧
    ∀ (t : FileTree) (input : ByteArray) (invocation : Invocation) (e : CatalogError),
      (invocation.run t input).failure ≠ some (.badCatalog e) := by
  refine ⟨fun pairs => ?_, ⟨fun _ _ => ofDefinitions_eq_ok_iff,
    fun _ _ => ofDefinitions_eq_error_iff,
    fun file text _ _ _ _ hleft hright => mapDependencies_append hleft hright file text⟩,
    fun scripts hlabels definitions hfound => ?_, failure_ne_badCatalog⟩
  · refine ⟨fun name file => ?_, fun pairs' => ofPairs_eq_iff,
      fun pair e => (ofPairs pairs).insert_eq_error_iff pair e, fun pair e hrefuses => ?_,
      fun name files hfiles => ?_, size_ofPairs pairs, mem_files_ofPairs pairs⟩
    · rw [defines_ofPairs, mem_accepted_iff]
    · rw [ofPairs, List.foldl_append]
      exact offer_of_refuses _ hrefuses
    · refine ⟨?_, (ofPairs pairs).located hfiles⟩
      rintro rfl
      obtain ⟨file, hfile⟩ := exists_defines hfiles
      exact ((defines_ofPairs _ _ _).mp hfile).2.1 rfl
  · refine ⟨_, ofDefinitions_eq_ok_iff.mpr ⟨fun d hd => ?_, rfl⟩⟩
    obtain ⟨script, hscript, found, hextract, hd⟩ := hfound d hd
    obtain ⟨hname, hfile⟩ := Definition.name_ne_empty_of_extract hextract d hd
    refine ⟨hname, ?_⟩
    show d.file ≠ ""
    rw [hfile]
    exact hlabels script hscript

/-- The function `warn`, defined in a line of its own. -/
def warnIn (file : String) : Definition := ⟨"warn", none, none, file, 1, 1, 1⟩

open Catalog in
/-- A function that two files define, offered with pairs that are refused or repeated. -/
theorem catalog_of_two_files :
    ((ofPairs [("warn", "b.sh"), ("", "a.sh"), ("warn", "a.sh"), ("warn", "b.sh")]).size = 1 ∧
      ofPairs [("warn", "b.sh"), ("", "a.sh"), ("warn", "a.sh"), ("warn", "b.sh")] =
        ofPairs [("warn", "a.sh"), ("warn", "b.sh")]) ∧
    (Refuses ("warn", "") (.missingFile "warn") ∧
      ofPairs ([("warn", "a.sh")] ++ [("warn", "")]) = ofPairs [("warn", "a.sh")]) ∧
    (ofDefinitions [warnIn "a.sh"] = .ok (ofPairs [("warn", "a.sh")]) ∧
      ofDefinitions [warnIn "b.sh"] = .ok (ofPairs [("warn", "b.sh")]) ∧
      ∃ whole ofLeft ofRight,
        mapDependencies "main.sh" "warn x\n" ([warnIn "a.sh"] ++ [warnIn "b.sh"]) = .ok whole ∧
          mapDependencies "main.sh" "warn x\n" [warnIn "a.sh"] = .ok ofLeft ∧
          mapDependencies "main.sh" "warn x\n" [warnIn "b.sh"] = .ok ofRight ∧
          whole.functions = ofLeft.functions ∪ ofRight.functions ∧
          whole.files = ofLeft.files ∪ ofRight.files) ∧
    Definition.extract "a.sh" "warn() \x7b :; \x7d\n" = .ok [warnIn "a.sh"] ∧
    ∃ catalog, ofDefinitions [warnIn "a.sh"] = .ok catalog := by
  obtain ⟨hpairs, ⟨hok, -, hunion⟩, hscripts, -⟩ := catalog_is_set_of_pairs
  obtain ⟨-, hsame, -, -, -, hsize, -⟩ :=
    hpairs [("warn", "b.sh"), ("", "a.sh"), ("warn", "a.sh"), ("warn", "b.sh")]
  obtain ⟨-, -, -, hunchanged, -⟩ := hpairs [("warn", "a.sh")]
  have hrefuses : Refuses ("warn", "") (.missingFile "warn") :=
    Or.inr ⟨by decide, rfl, rfl⟩
  have hleft : ofDefinitions [warnIn "a.sh"] = .ok (ofPairs [("warn", "a.sh")]) :=
    (hok _ _).mpr ⟨by decide, rfl⟩
  have hright : ofDefinitions [warnIn "b.sh"] = .ok (ofPairs [("warn", "b.sh")]) :=
    (hok _ _).mpr ⟨by decide, rfl⟩
  have hextract : Definition.extract "a.sh" "warn() \x7b :; \x7d\n" = .ok [warnIn "a.sh"] := by
    decide +kernel
  refine ⟨⟨?_, ?_⟩, ⟨hrefuses, hunchanged _ _ hrefuses⟩,
    ⟨hleft, hright, hunion _ _ _ _ _ _ hleft hright⟩, hextract, ?_⟩
  · rw [hsize]
    decide
  · rw [hsame]
    intro pair
    show pair ∈ [("warn", "b.sh"), ("warn", "a.sh"), ("warn", "b.sh")] ↔
      pair ∈ [("warn", "a.sh"), ("warn", "b.sh")]
    simp only [List.mem_cons, List.not_mem_nil]
    grind
  · refine hscripts [("a.sh", "warn() \x7b :; \x7d\n")] (by decide) _ fun d hd => ?_
    exact ⟨_, List.mem_singleton_self _, _, hextract, hd⟩

end ShellIndex.Command
