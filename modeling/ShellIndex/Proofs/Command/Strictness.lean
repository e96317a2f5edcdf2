import ShellIndex.Proofs.Command.UtilityCatalog

set_option autoImplicit false

/-! # Strict and lenient runs

A script is malformed if one of its definitions is. A lenient run skips malformed scripts with a
warning each, and a strict one fails at the first of them. So both find the same where no script is
malformed, and what a lenient run finds depends on the other scripts alone.

Whatever a task does with the definitions it does in the same way in both modes. Hence a strict run
that succeeds is the lenient one (`Task.run_lenient`). Only the utility scripts of a map of
dependencies are searched for definitions: the scripts that are mapped may be malformed.
-/

namespace ShellIndex.Command

/-! ## Malformed scripts -/

namespace Source

/-- The definitions in a script, if it is not malformed. -/
def definitions? (source : Source) : Option (List Definition) :=
  (Definition.extract source.label source.text).toOption

/-- Why a script is malformed, if it is. -/
def malformed? (source : Source) : Option ParseError :=
  match Definition.extract source.label source.text with
  | .ok _ => none
  | .error e => some e

/-- Whether a script is not malformed. -/
def isWellFormed (source : Source) : Bool := source.malformed?.isNone

/-- The warning about a script that is skipped. -/
def skipped? (source : Source) : Option Warning := source.malformed?.map (.skipped source.label)

/-- A script either has definitions or is malformed. -/
theorem definitions?_or_malformed? (source : Source) :
    (∃ found, Definition.extract source.label source.text = .ok found ∧
        source.definitions? = some found ∧ source.malformed? = none) ∨
      ∃ e, Definition.extract source.label source.text = .error e ∧
        source.definitions? = none ∧ source.malformed? = some e := by
  unfold definitions? malformed?
  cases Definition.extract source.label source.text with
  | ok found => exact Or.inl ⟨found, rfl, rfl, rfl⟩
  | error e => exact Or.inr ⟨e, rfl, rfl, rfl⟩

theorem isWellFormed_iff {source : Source} :
    source.isWellFormed = true ↔ source.malformed? = none := Option.isNone_iff_eq_none

theorem malformed?_eq_some_iff {source : Source} {e : ParseError} :
    source.malformed? = some e ↔ Definition.extract source.label source.text = .error e := by
  unfold malformed?
  cases Definition.extract source.label source.text <;> simp

theorem isWellFormed_eq_isSome (source : Source) :
    source.isWellFormed = source.definitions?.isSome := by
  rw [isWellFormed]
  obtain ⟨found, -, hdefinitions, hmalformed⟩ | ⟨e, -, hdefinitions, hmalformed⟩ :=
    source.definitions?_or_malformed?
  · rw [hdefinitions, hmalformed]
    rfl
  · rw [hdefinitions, hmalformed]
    rfl

end Source

/-- The definitions in the scripts that are not malformed, in order. -/
def definitionsOf (sources : List Source) : List Definition :=
  (sources.filterMap Source.definitions?).flatten

theorem definitionsOf_cons (source : Source) (sources : List Source) :
    definitionsOf (source :: sources) =
      source.definitions?.getD [] ++ definitionsOf sources := by
  unfold definitionsOf
  cases hdefinitions : source.definitions? with
  | none =>
      rw [List.filterMap_cons_none hdefinitions]
      rfl
  | some found =>
      rw [List.filterMap_cons_some hdefinitions]
      rfl

/-- Malformed scripts leave no trace. -/
theorem definitionsOf_filter (sources : List Source) :
    definitionsOf (sources.filter Source.isWellFormed) = definitionsOf sources := by
  have hidle : ∀ source : Source,
      (if source.isWellFormed = true then source.definitions? else none) = source.definitions? := by
    intro source
    rw [Source.isWellFormed_eq_isSome]
    cases source.definitions? <;> rfl
  rw [definitionsOf, List.filterMap_filter]
  simp only [hidle]
  rfl

/-! ## The two modes -/

section
variable (sources : List Source) (warnings : List Warning)

theorem definitionsInAll_cons (strict : Bool) (source : Source) :
    definitionsInAll strict (source :: sources) = (do
      let found ← definitionsIn strict source
      let more ← definitionsInAll strict sources
      pure (found ++ more)) := by
  simp only [definitionsInAll, List.mapM_cons, bind_assoc, pure_bind, List.flatten_cons]

/-- A lenient search finds the definitions of the scripts that are not malformed, and warns about
the others. -/
theorem run_definitionsInAll_lenient : (definitionsInAll false sources).run.run warnings =
    (.ok (definitionsOf sources), warnings ++ sources.filterMap Source.skipped?) := by
  induction sources generalizing warnings with
  | nil => exact congrArg (Prod.mk (Except.ok [])) (List.append_nil warnings).symm
  | cons source sources ih =>
      obtain ⟨found, hextract, hdefinitions, hmalformed⟩ | ⟨e, hextract, hdefinitions, hmalformed⟩ :=
        source.definitions?_or_malformed?
      · have hfirst : definitionsIn false source = pure found := by rw [definitionsIn, hextract]
        have hskipped : source.skipped? = none := by rw [Source.skipped?, hmalformed]; rfl
        rw [definitionsInAll_cons, hfirst, pure_bind, Run.run_bind, ih,
          List.filterMap_cons_none hskipped, definitionsOf_cons, hdefinitions]
        rfl
      · have hfirst : definitionsIn false source =
            warn (.skipped source.label e) >>= fun _ => pure [] := by
          rw [definitionsIn, hextract]
          rfl
        have hwarn : (warn (.skipped source.label e)).run.run warnings =
            (.ok (), warnings ++ [.skipped source.label e]) := rfl
        have hskipped : source.skipped? = some (.skipped source.label e) := by
          rw [Source.skipped?, hmalformed]
          rfl
        rw [definitionsInAll_cons, hfirst, bind_assoc, Run.run_bind, hwarn]
        dsimp only
        rw [pure_bind, Run.run_bind, ih, List.filterMap_cons_some hskipped, definitionsOf_cons,
          hdefinitions, List.append_assoc]
        rfl

/-- A strict search finds the same where no script is malformed, and fails at the first that is. -/
theorem run_definitionsInAll_strict : (definitionsInAll true sources).run.run warnings =
    (match sources.findSome? Source.malformed? with
      | none => .ok (definitionsOf sources)
      | some e => .error (.malformed e), warnings) := by
  induction sources with
  | nil => rfl
  | cons source sources ih =>
      obtain ⟨found, hextract, hdefinitions, hmalformed⟩ | ⟨e, hextract, hdefinitions, hmalformed⟩ :=
        source.definitions?_or_malformed?
      · have hfirst : definitionsIn true source = pure found := by rw [definitionsIn, hextract]
        rw [definitionsInAll_cons, hfirst, pure_bind, Run.run_bind, ih,
          List.findSome?_cons_of_isNone (by rw [hmalformed]; rfl), definitionsOf_cons, hdefinitions]
        cases sources.findSome? Source.malformed? <;> rfl
      · have hfirst : definitionsIn true source = throw (.malformed e) := by
          rw [definitionsIn, hextract]
          rfl
        rw [definitionsInAll_cons, hfirst, List.findSome?_cons_of_isSome (by rw [hmalformed]; rfl),
          hmalformed]
        rfl

theorem findSome?_malformed?_eq_none_iff :
    sources.findSome? Source.malformed? = none ↔
      ∀ source ∈ sources, source.isWellFormed = true := by
  simp only [List.findSome?_eq_none_iff, Source.isWellFormed_iff]

variable {sources}

theorem filterMap_skipped?_of_wellFormed (h : ∀ source ∈ sources, source.isWellFormed = true) :
    sources.filterMap Source.skipped? = [] := by
  refine List.filterMap_eq_nil_iff.mpr fun source hsource => ?_
  rw [Source.skipped?, Source.isWellFormed_iff.mp (h source hsource)]
  rfl

/-- Where no script is malformed the two modes agree, and nothing is warned about. -/
theorem run_definitionsInAll_of_wellFormed (h : ∀ source ∈ sources, source.isWellFormed = true)
    (strict : Bool) :
    (definitionsInAll strict sources).run.run warnings = (.ok (definitionsOf sources), warnings) := by
  cases strict with
  | false =>
      rw [run_definitionsInAll_lenient, filterMap_skipped?_of_wellFormed h, List.append_nil]
  | true =>
      rw [run_definitionsInAll_strict, (findSome?_malformed?_eq_none_iff sources).mpr h]

theorem exists_run_definitionsInAll_strict_iff :
    (∃ found after, (definitionsInAll true sources).run.run warnings = (.ok found, after)) ↔
      ∀ source ∈ sources, source.isWellFormed = true := by
  rw [← findSome?_malformed?_eq_none_iff, run_definitionsInAll_strict]
  cases sources.findSome? Source.malformed? with
  | none => exact ⟨fun _ => rfl, fun _ => ⟨_, _, rfl⟩⟩
  | some e => exact ⟨fun ⟨_, _, h⟩ => (nomatch h), nofun⟩

/-- The first malformed script of some, and why it is malformed. -/
def FirstMalformed (sources : List Source) (e : ParseError) : Prop :=
  ∃ good bad rest, sources = good ++ bad :: rest ∧
    (∀ source ∈ good, source.isWellFormed = true) ∧
    Definition.extract bad.label bad.text = .error e

theorem findSome?_malformed?_eq_some_iff {e : ParseError} :
    sources.findSome? Source.malformed? = some e ↔ FirstMalformed sources e := by
  rw [List.findSome?_eq_some_iff, FirstMalformed]
  simp only [Source.malformed?_eq_some_iff, Source.isWellFormed_iff]
  constructor
  · rintro ⟨good, bad, rest, hsources, hbad, hgood⟩
    exact ⟨good, bad, rest, hsources, hgood, hbad⟩
  · rintro ⟨good, bad, rest, hsources, hgood, hbad⟩
    exact ⟨good, bad, rest, hsources, hbad, hgood⟩

/-- A strict search fails exactly with the fault of the first malformed script. -/
theorem run_definitionsInAll_strict_eq_error_iff {failure : Failure} {after : List Warning} :
    (definitionsInAll true sources).run.run warnings = (.error failure, after) ↔
      after = warnings ∧ ∃ e, FirstMalformed sources e ∧ failure = .malformed e := by
  simp only [← findSome?_malformed?_eq_some_iff]
  rw [run_definitionsInAll_strict]
  cases sources.findSome? Source.malformed? with
  | none =>
      refine ⟨fun h => (nomatch h), ?_⟩
      rintro ⟨-, _, hnone, -⟩
      cases hnone
  | some e =>
      constructor
      · intro h
        cases h
        exact ⟨rfl, e, rfl, rfl⟩
      · rintro ⟨rfl, _, he, rfl⟩
        cases he
        rfl

end

/-! ## Computations that succeed alike -/

namespace Run
variable {α β : Type} {x y : Run α} {f g : α → Run β} {warnings after : List Warning}

/-- Where `x` succeeds, `y` does the same. -/
def Below (x y : Run α) : Prop :=
  ∀ warnings a after, x.run.run warnings = (.ok a, after) → y.run.run warnings = (.ok a, after)

theorem Below.refl (x : Run α) : x.Below x := fun _ _ _ h => h

theorem Below.bind (hx : x.Below y) (hf : ∀ a, (f a).Below (g a)) :
    (x >>= f).Below (y >>= g) := by
  intro warnings b after h
  obtain ⟨a, between, hfirst, hrest⟩ := exists_of_bind_ok h
  rw [run_bind, hx _ _ _ hfirst]
  exact hf a _ _ _ hrest

end Run

theorem below_definitionsInAll (strict : Bool) (sources : List Source) :
    (definitionsInAll strict sources).Below (definitionsInAll false sources) := by
  cases strict with
  | false => exact .refl _
  | true =>
      intro warnings found after h
      have hwell := (exists_run_definitionsInAll_strict_iff warnings).mp ⟨found, after, h⟩
      rw [run_definitionsInAll_of_wellFormed warnings hwell] at h ⊢
      exact h

/-! ## Tasks -/

/-- The inputs of a lenient run. -/
def Inputs.lenient (inputs : Inputs) : Inputs := { inputs with strict := false }

/-- The task without strictness. -/
def Task.lenient : Task → Task
  | .functions inputs scope output => .functions inputs.lenient scope output
  | .deps utils inputs output => .deps utils inputs.lenient output
  | .duplicates inputs scope => .duplicates inputs.lenient scope

section
variable {t : FileTree} {input : ByteArray}

theorem below_listedDefinitions (t : FileTree) (input : ByteArray) (inputs : Inputs) :
    (listedDefinitions t input inputs).Below (listedDefinitions t input inputs.lenient) :=
  (Run.Below.refl (listedSources t input inputs)).bind fun sources =>
    below_definitionsInAll inputs.strict sources

theorem below_catalogIn (strict : Bool) (utilities : List Source) :
    (catalogIn strict utilities).Below (catalogIn false utilities) :=
  (below_definitionsInAll strict utilities).bind fun _ => .refl _

theorem Task.below_result (t : FileTree) (input : ByteArray) (task : Task) :
    (task.result t input).Below (task.lenient.result t input) := by
  cases task with
  | functions inputs scope output =>
      show (functionsTask t input inputs scope output).Below
        (functionsTask t input inputs.lenient scope output)
      rw [functionsTask_eq, functionsTask_eq]
      exact (Run.Below.refl _).bind fun format =>
        (below_listedDefinitions t input inputs).bind fun _ => .refl _
  | deps utils inputs output =>
      show (depsTask t utils inputs output).Below (depsTask t utils inputs.lenient output)
      by_cases hinputs : inputs.patterns = []
      · have hlenient : inputs.lenient.patterns = [] := hinputs
        rw [depsTask_of_no_inputs hinputs, depsTask_of_no_inputs hlenient]
        exact .refl _
      · have hlenient : inputs.lenient.patterns ≠ [] := hinputs
        rw [depsTask_eq hinputs, depsTask_eq hlenient]
        exact (Run.Below.refl _).bind fun format => (Run.Below.refl _).bind fun utilities =>
          (below_catalogIn inputs.strict utilities).bind fun _ => .refl _
  | duplicates inputs scope =>
      show (duplicatesTask t inputs scope).Below (duplicatesTask t inputs.lenient scope)
      by_cases hinputs : inputs.patterns = []
      · have hlenient : inputs.lenient.patterns = [] := hinputs
        rw [duplicatesTask_of_no_inputs hinputs, duplicatesTask_of_no_inputs hlenient]
        exact .refl _
      · have hlenient : inputs.lenient.patterns ≠ [] := hinputs
        rw [duplicatesTask_eq hinputs .empty, duplicatesTask_eq hlenient .empty]
        exact (below_listedDefinitions t .empty inputs).bind fun _ => .refl _

/-- **A strict run that succeeds is the lenient one.** -/
theorem Task.run_lenient {task : Task} (h : (task.run t input).failure = none) :
    task.lenient.run t input = task.run t input := by
  rcases hresult : (task.result t input).run.run [] with ⟨failure | result, warnings⟩
  · rw [Task.run, hresult] at h
    cases h
  · rw [Task.run, Task.run, hresult, task.below_result t input _ _ _ hresult]

/-- The same on the command line. -/
theorem Invocation.run_lenient {inv : Invocation} (h : (inv.run t input).failure = none) :
    Invocation.run t input ⟨inv.quiet, inv.task.lenient⟩ = inv.run t input := by
  rw [failure_run] at h
  unfold Invocation.run
  dsimp only
  rw [Task.run_lenient h]

/-! ## Utility scripts -/

variable {utils : String} {inputs : Inputs} {output : Output} {format : Report.Format}
  {utilities scripts : List Source} {catalog : Catalog} {warnings between after : List Warning}

/-- The definitions in labelled scripts make up a catalog, which is that of the scripts that are not
malformed. -/
theorem exists_catalogIn (hlabels : ∀ source ∈ utilities, source.label ≠ "") :
    ∃ catalog, Catalog.ofDefinitions (definitionsOf utilities) = .ok catalog ∧
      (∀ warnings, (catalogIn false utilities).run.run warnings =
        (.ok catalog, warnings ++ utilities.filterMap Source.skipped?)) ∧
      ∀ strict warnings, (catalogIn strict (utilities.filter Source.isWellFormed)).run.run warnings =
        (.ok catalog, warnings) := by
  have hfound := (ensures_definitionsInAll false utilities).of_ok
    (congrArg Prod.fst (run_definitionsInAll_lenient utilities []))
  obtain ⟨catalog, hcatalog⟩ : ∃ catalog, Catalog.ofDefinitions (definitionsOf utilities) = .ok catalog :=
    ⟨_, Catalog.ofDefinitions_eq_ok_iff.mpr ⟨accepts_of_found hlabels hfound, rfl⟩⟩
  refine ⟨catalog, hcatalog, fun warnings => ?_, fun strict warnings => ?_⟩
  · rw [catalogIn, Run.run_bind, run_definitionsInAll_lenient]
    dsimp only
    rw [hcatalog]
    rfl
  · have hwell : ∀ source ∈ utilities.filter Source.isWellFormed, source.isWellFormed = true :=
      fun source hsource => (List.mem_filter.mp hsource).2
    rw [catalogIn, Run.run_bind, run_definitionsInAll_of_wellFormed warnings hwell,
      definitionsOf_filter]
    dsimp only
    rw [hcatalog]
    rfl

theorem run_formatOf (hformat : Report.Format.parse output.format = .ok format) :
    formatOf output = pure format := by
  rw [formatOf, hformat]

/-- Once there is a catalog, every script that can be read is mapped, whatever its text. -/
theorem run_depsTask (hinputs : inputs.patterns ≠ [])
    (hformat : Report.Format.parse output.format = .ok format)
    (hutilities : (readUtilities t utils).run.run [] = (.ok utilities, warnings))
    (hcatalog : (catalogIn inputs.strict utilities).run.run warnings = (.ok catalog, between))
    (hscripts : (readSources t inputs.patterns).run.run between = (.ok scripts, after)) :
    (depsTask t utils inputs output).run.run [] =
      (.ok (reportDependencies t utils output format catalog scripts), after) := by
  rw [depsTask_eq hinputs, run_formatOf hformat, pure_bind, Run.run_bind, hutilities]
  dsimp only
  rw [Run.run_bind, hcatalog]
  dsimp only
  rw [Run.run_bind, hscripts]
  rfl

theorem Failure.SparesDefinitions.run_ne {α : Type} {x : Run α} {post : α → Prop}
    (h : x.Ensures post Failure.SparesDefinitions) (e : ParseError) :
    x.run.run warnings ≠ (.error (.malformed e), after) := fun hx =>
  (h.of_error (congrArg Prod.fst hx)).ne_malformed e rfl

/-- A catalog is refused for other reasons than a malformed script, so that the search has failed. -/
theorem malformed_of_catalogIn {strict : Bool} {e : ParseError}
    (h : (catalogIn strict utilities).run.run warnings = (.error (.malformed e), after)) :
    strict = true ∧ FirstMalformed utilities e := by
  rcases Run.exists_of_bind_error h with h | ⟨found, _, -, h⟩
  · cases strict with
    | false =>
        rw [run_definitionsInAll_lenient] at h
        cases h
    | true =>
        obtain ⟨-, _, hfirst, he⟩ := (run_definitionsInAll_strict_eq_error_iff _).mp h
        cases he
        exact ⟨rfl, hfirst⟩
  · cases hfound : Catalog.ofDefinitions found <;> rw [hfound] at h <;> cases h

/-- A map of dependencies fails because of a malformed script only if it is strict, and then because
of a utility script. -/
theorem malformed_of_depsTask {e : ParseError}
    (h : (depsTask t utils inputs output).run.run [] = (.error (.malformed e), after)) :
    inputs.strict = true ∧ ∃ utilities warnings,
      (readUtilities t utils).run.run [] = (.ok utilities, warnings) ∧
        FirstMalformed utilities e := by
  cases hformat : Report.Format.parse output.format with
  | error unknown =>
      have hthrow : formatOf output = throw (.unknownFormat unknown) := by rw [formatOf, hformat]
      rw [depsTask, hthrow] at h
      cases h
  | ok format =>
      by_cases hinputs : inputs.patterns = []
      · rw [depsTask_of_no_inputs hinputs, run_formatOf hformat, pure_bind] at h
        cases h
      · rw [depsTask_eq hinputs, run_formatOf hformat, pure_bind] at h
        rcases Run.exists_of_bind_error h with h | ⟨utilities, warnings, hutilities, h⟩
        · exact absurd h (Failure.SparesDefinitions.run_ne (ensures_readUtilities t utils) e)
        · rcases Run.exists_of_bind_error h with h | ⟨catalog, _, -, h⟩
          · obtain ⟨hstrict, hfirst⟩ := malformed_of_catalogIn h
            exact ⟨hstrict, utilities, warnings, hutilities, hfirst⟩
          · rcases Run.exists_of_bind_error h with h | ⟨_, _, -, h⟩
            · exact absurd h
                (Failure.SparesDefinitions.run_ne (ensures_readSources t inputs.patterns) e)
            · cases h

theorem malformed_of_run_deps {quiet : Bool} {e : ParseError}
    (h : (Invocation.run t input ⟨quiet, .deps utils inputs output⟩).failure =
      some (.malformed e)) :
    inputs.strict = true ∧ ∃ utilities warnings,
      (readUtilities t utils).run.run [] = (.ok utilities, warnings) ∧
        FirstMalformed utilities e := by
  rw [Invocation.failure_run] at h
  rcases Task.result_of_failure h with ⟨after, hresult⟩ | ⟨_, _, hunwritable⟩
  · exact malformed_of_depsTask hresult
  · cases hunwritable

end

/-! ## Main statement -/

/-- **Strict and lenient runs agree where no script is malformed.** The first part is about the search
for the definitions in any scripts: a lenient search finds those of the scripts that are not malformed,
with a warning about each of the others, so that these can be put in or left out anywhere; a strict
search succeeds exactly where no script is malformed, then with the same definitions and no warning,
and fails else with the fault of the first malformed script. The second part is about runs. The third
is about the utility scripts of a map of dependencies: the catalog of a lenient run is that of the
scripts which are not malformed, and with it every script that can be read is mapped. By the last
part only a utility script is ever refused as malformed. -/
theorem strict_agrees_with_lenient :
    (∀ (sources : List Source) (warnings : List Warning),
      (definitionsInAll false sources).run.run warnings =
          (.ok (definitionsOf sources), warnings ++ sources.filterMap Source.skipped?) ∧
      (∀ others : List Source,
        others.filter Source.isWellFormed = sources.filter Source.isWellFormed →
          ((definitionsInAll false others).run.run warnings).1 =
            ((definitionsInAll false sources).run.run warnings).1) ∧
      ((∃ found after, (definitionsInAll true sources).run.run warnings = (.ok found, after)) ↔
        ∀ source ∈ sources, source.isWellFormed = true) ∧
      ((∀ source ∈ sources, source.isWellFormed = true) →
        (definitionsInAll true sources).run.run warnings = (.ok (definitionsOf sources), warnings)) ∧
      ∀ failure after,
        (definitionsInAll true sources).run.run warnings = (.error failure, after) ↔
          after = warnings ∧ ∃ e, FirstMalformed sources e ∧ failure = .malformed e) ∧
    (∀ (t : FileTree) (input : ByteArray) (inv : Invocation), (inv.run t input).failure = none →
      Invocation.run t input ⟨inv.quiet, inv.task.lenient⟩ = inv.run t input) ∧
    (∀ (t : FileTree) (utils : String) (utilities : List Source) (warnings : List Warning),
      (readUtilities t utils).run.run [] = (.ok utilities, warnings) →
        ∃ catalog, Catalog.ofDefinitions (definitionsOf utilities) = .ok catalog ∧
          (catalogIn false utilities).run.run warnings =
            (.ok catalog, warnings ++ utilities.filterMap Source.skipped?) ∧
          (∀ strict warnings', (catalogIn strict (utilities.filter Source.isWellFormed)).run.run
            warnings' = (.ok catalog, warnings')) ∧
          ∀ (input : ByteArray) (inputs : Inputs) (output : Output) (format : Report.Format)
            (scripts : List Source) (after : List Warning),
            (inputs.strict = true → ∀ utility ∈ utilities, utility.isWellFormed = true) →
            inputs.patterns ≠ [] → Report.Format.parse output.format = .ok format →
            (readSources t inputs.patterns).run.run
                (warnings ++ utilities.filterMap Source.skipped?) = (.ok scripts, after) →
              ((Task.deps utils inputs output).result t input).run.run [] =
                (.ok (reportDependencies t utils output format catalog scripts), after)) ∧
    ∀ (t : FileTree) (input : ByteArray) (quiet : Bool) (utils : String) (inputs : Inputs)
      (output : Output) (e : ParseError),
      (Invocation.run t input ⟨quiet, .deps utils inputs output⟩).failure = some (.malformed e) →
        inputs.strict = true ∧ ∃ utilities warnings,
          (readUtilities t utils).run.run [] = (.ok utilities, warnings) ∧
            FirstMalformed utilities e := by
  refine ⟨fun sources warnings => ⟨run_definitionsInAll_lenient sources warnings,
    fun others hothers => ?_, exists_run_definitionsInAll_strict_iff warnings,
    fun hwell => run_definitionsInAll_of_wellFormed warnings hwell true,
    fun _ _ => run_definitionsInAll_strict_eq_error_iff warnings⟩,
    fun t input inv => Invocation.run_lenient,
    fun t utils utilities warnings hutilities => ?_,
    fun t input quiet utils inputs output e => malformed_of_run_deps⟩
  · rw [run_definitionsInAll_lenient, run_definitionsInAll_lenient, ← definitionsOf_filter,
      hothers, definitionsOf_filter]
  · have hlabels := (ensures_readUtilities t utils).of_ok (congrArg Prod.fst hutilities)
    obtain ⟨catalog, hcatalog, hlenient, hfiltered⟩ := exists_catalogIn hlabels
    refine ⟨catalog, hcatalog, hlenient warnings, hfiltered,
      fun input inputs output format scripts after hwell hinputs hformat hscripts => ?_⟩
    refine run_depsTask hinputs hformat hutilities ?_ hscripts
    cases hstrict : inputs.strict with
    | false => exact hlenient warnings
    | true =>
        have hkept : utilities.filter Source.isWellFormed = utilities :=
          List.filter_eq_self.mpr (hwell hstrict)
        rw [filterMap_skipped?_of_wellFormed (hwell hstrict), List.append_nil, ← hkept]
        exact hfiltered true warnings

/-! ## A malformed script among others -/

/-- A utility script whose only definition is not finished. -/
def unfinished : Source := ⟨"utils/pad.sh", "pad.sh", "pad() \x7b\n"⟩

/-- A utility script with one definition. -/
def finished : Source := ⟨"utils/trim.sh", "trim.sh", "trim() \x7b :; \x7d\n"⟩

/-- A malformed script that calls a utility. -/
def caller : Source := ⟨"main.sh", "main.sh", "trim x\npad() \x7b\n"⟩

/-- The three scripts, of which the first two are in a directory. -/
def partlyMalformed : FileTree :=
  (((FileTree.ofWork ["home"]).addFile ["home", "utils", "pad.sh"] unfinished.text.toUTF8).addFile
    ["home", "utils", "trim.sh"] finished.text.toUTF8).addFile
    ["home", "main.sh"] caller.text.toUTF8

/-- Why the first of the scripts is malformed. -/
def unfinishedBody : ParseError := ⟨"pad.sh", 1, .unterminatedBody "pad" 1⟩

/-- A strict run on the second of the scripts is the lenient one. The first of them is left out of the
catalog by a lenient map and refused by a strict one, and the third is mapped by both. -/
theorem strict_agrees_with_lenient_partlyMalformed :
    ([unfinished, finished].filter Source.isWellFormed = [finished].filter Source.isWellFormed ∧
      ((definitionsInAll false [unfinished, finished]).run.run []).1 =
        ((definitionsInAll false [finished]).run.run []).1) ∧
    ((∀ source ∈ [finished], source.isWellFormed = true) ∧
      (definitionsInAll true [finished]).run.run [] = (.ok (definitionsOf [finished]), [])) ∧
    (((Task.functions ⟨["utils/trim.sh"], true⟩ .perFile ⟨"json", none⟩).run partlyMalformed
        .empty).failure = none ∧
      Invocation.run partlyMalformed .empty
          ⟨false, .functions ⟨["utils/trim.sh"], false⟩ .perFile ⟨"json", none⟩⟩ =
        Invocation.run partlyMalformed .empty
          ⟨false, .functions ⟨["utils/trim.sh"], true⟩ .perFile ⟨"json", none⟩⟩) ∧
    ((readUtilities partlyMalformed "utils").run.run [] = (.ok [unfinished, finished], []) ∧
      (readSources partlyMalformed ["main.sh"]).run.run [.skipped "pad.sh" unfinishedBody] =
        (.ok [caller], [.skipped "pad.sh" unfinishedBody]) ∧
      ∃ catalog, (catalogIn true [finished]).run.run [] = (.ok catalog, []) ∧
        ((Task.deps "utils" ⟨["main.sh"], false⟩ ⟨"json", none⟩).result partlyMalformed
            .empty).run.run [] =
          (.ok (reportDependencies partlyMalformed "utils" ⟨"json", none⟩ .json catalog [caller]),
            [.skipped "pad.sh" unfinishedBody])) ∧
    (Invocation.run partlyMalformed .empty
        ⟨true, .deps "utils" ⟨["main.sh"], true⟩ ⟨"json", none⟩⟩).failure =
          some (.malformed unfinishedBody) ∧
      ∃ utilities warnings, (readUtilities partlyMalformed "utils").run.run [] =
        (.ok utilities, warnings) ∧ FirstMalformed utilities unfinishedBody := by
  obtain ⟨hsearch, hruns, hutilities, hrefused⟩ := strict_agrees_with_lenient
  have hfilter : [unfinished, finished].filter Source.isWellFormed =
      [finished].filter Source.isWellFormed := by decide +kernel
  have hwell : ∀ source ∈ [finished], source.isWellFormed = true := by decide +kernel
  have hsucceeds : ((Task.functions ⟨["utils/trim.sh"], true⟩ .perFile ⟨"json", none⟩).run
      partlyMalformed .empty).failure = none := by decide +kernel
  have hread : (readUtilities partlyMalformed "utils").run.run [] =
      (.ok [unfinished, finished], []) := by
    show @Eq (Except Failure (List Source) × List Warning) _ _
    decide +kernel
  have hscripts : (readSources partlyMalformed ["main.sh"]).run.run
      [.skipped "pad.sh" unfinishedBody] = (.ok [caller], [.skipped "pad.sh" unfinishedBody]) := by
    show @Eq (Except Failure (List Source) × List Warning) _ _
    decide +kernel
  have hskipped : [unfinished, finished].filterMap Source.skipped? =
      [.skipped "pad.sh" unfinishedBody] := by decide +kernel
  have hfails : (Invocation.run partlyMalformed .empty
      ⟨true, .deps "utils" ⟨["main.sh"], true⟩ ⟨"json", none⟩⟩).failure =
        some (.malformed unfinishedBody) := by decide +kernel
  obtain ⟨-, hothers, -⟩ := hsearch [finished] []
  obtain ⟨catalog, -, -, hfiltered, hmapped⟩ :=
    hutilities partlyMalformed "utils" [unfinished, finished] [] hread
  have hkept : [finished].filter Source.isWellFormed = [finished] := List.filter_eq_self.mpr hwell
  rw [hfilter, hkept] at hfiltered
  rw [hskipped] at hmapped
  obtain ⟨-, -, -, hstrict, -⟩ := hsearch [finished] []
  refine ⟨⟨hfilter, hothers _ hfilter⟩, ⟨hwell, hstrict hwell⟩, ⟨hsucceeds, ?_⟩,
    ⟨hread, hscripts, catalog, ?_, ?_⟩, hfails, ?_⟩
  · exact hruns partlyMalformed .empty
      ⟨false, .functions ⟨["utils/trim.sh"], true⟩ .perFile ⟨"json", none⟩⟩ hsucceeds
  · exact hfiltered true []
  · exact hmapped .empty ⟨["main.sh"], false⟩ ⟨"json", none⟩ .json [caller] _ nofun (by decide) rfl
      hscripts
  · exact (hrefused _ _ _ _ _ _ _ hfails).2

end ShellIndex.Command
