import ShellIndex.Proofs.Call.Assignment
import ShellIndex.Proofs.Catalog.Dependencies

set_option autoImplicit false

/-! # Dependencies behind assignments

Assignments in front of a command should add what their values call and change nothing else. They
do so if their values are plain text. Behind a quotation, a variable or a substitution in a value
the command itself is lost.
-/

namespace ShellIndex.Program

variable (catalog : Catalog) (file : String) (assignments : List Assignment) (name : Name)
variable (args : Arguments)

/-- What a script depends on that consists of a call behind some assignments. -/
def dependenciesBehind : Dependencies :=
  catalog.dependenciesOf file (String.ofList (assigned assignments name args))

/-- The assignments add to the dependencies of the call behind them what their values call, and
change nothing else. -/
def Transparent : Prop :=
  (∀ n, n ∈ (dependenciesBehind catalog file assignments name args).functions ↔
    n ∈ (dependenciesBehind catalog file [] name args).functions ∨
      n ∈ assignments.flatMap Assignment.listed ∧ ∃ f, f ≠ file ∧ catalog.Defines n f) ∧
  ∀ f, f ∈ (dependenciesBehind catalog file assignments name args).files ↔
    f ∈ (dependenciesBehind catalog file [] name args).files ∨
      f ≠ file ∧ ∃ n ∈ assignments.flatMap Assignment.listed, catalog.Defines n f

variable {assignments} {args}

theorem mem_callsOf_assigned (hassignments : ∀ a ∈ assignments, a.Allowed)
    (hargs : args.Allowed false) (n : String) :
    n ∈ callsOf (String.ofList (assigned assignments name args)) ↔
      n ∈ assignments.flatMap Assignment.listed ∨
        ((∀ a ∈ assignments, a.isPlain = true) ∧ n = name.text) ∨ n ∈ args.listed := by
  rw [callsOf_assigned assignments name args hassignments hargs, List.mem_append, List.mem_append,
    ← List.all_eq_true]
  cases assignments.all Assignment.isPlain <;> simp

theorem mem_callsOf_bare (hargs : args.Allowed false) (n : String) :
    n ∈ callsOf (String.ofList (assigned [] name args)) ↔ n = name.text ∨ n ∈ args.listed := by
  rw [mem_callsOf_assigned name (by simp) hargs]
  simp

/-- A call behind the assignments is one of the bare line or of a value, and the other way round if
the command itself is not lost. -/
theorem mem_callsOf_assigned_iff (hassignments : ∀ a ∈ assignments, a.Allowed)
    (hargs : args.Allowed false) {n : String}
    (hkept : n = name.text → (∀ a ∈ assignments, a.isPlain = true) ∨
      n ∈ assignments.flatMap Assignment.listed ∨ n ∈ args.listed) :
    n ∈ callsOf (String.ofList (assigned assignments name args)) ↔
      n ∈ callsOf (String.ofList (assigned [] name args)) ∨
        n ∈ assignments.flatMap Assignment.listed := by
  rw [mem_callsOf_assigned name hassignments hargs, mem_callsOf_bare name hargs]
  constructor
  · rintro (hinside | ⟨-, hname⟩ | hargument)
    · exact Or.inr hinside
    · exact Or.inl (Or.inl hname)
    · exact Or.inl (Or.inr hargument)
  · rintro ((hname | hargument) | hinside)
    · rcases hkept hname with hplain | hinside | hargument
      · exact Or.inr (Or.inl ⟨hplain, hname⟩)
      · exact Or.inl hinside
      · exact Or.inr (Or.inr hargument)
    · exact Or.inr (Or.inr hargument)
    · exact Or.inl hinside

/-- **Assignments are transparent exactly if their values are plain text**, unless nothing depends
on the command behind them: it is called in a value or an argument as well, or no other file
defines it. -/
theorem transparent_iff (hassignments : ∀ a ∈ assignments, a.Allowed)
    (hargs : args.Allowed false) :
    Transparent catalog file assignments name args ↔
      (∀ a ∈ assignments, a.isPlain = true) ∨
        name.text ∈ assignments.flatMap Assignment.listed ∨ name.text ∈ args.listed ∨
          ∀ f, catalog.Defines name.text f → f = file := by
  simp only [Transparent, dependenciesBehind, catalog.mem_functions_dependenciesOf,
    catalog.mem_files_dependenciesOf]
  constructor
  · rintro ⟨hfunctions, -⟩
    by_cases hdefined : ∃ f, f ≠ file ∧ catalog.Defines name.text f
    · -- The command is a dependency of its own line, hence also behind the assignments.
      have hbare := (mem_callsOf_bare name hargs name.text).mpr (Or.inl rfl)
      have hcall := ((hfunctions name.text).mpr (Or.inl ⟨hbare, hdefined⟩)).1
      rcases (mem_callsOf_assigned name hassignments hargs name.text).mp hcall with
        hinside | ⟨hplain, -⟩ | hargument
      · exact Or.inr (Or.inl hinside)
      · exact Or.inl hplain
      · exact Or.inr (Or.inr (Or.inl hargument))
    · refine Or.inr (Or.inr (Or.inr fun f hf => ?_))
      exact Classical.byContradiction fun hne => hdefined ⟨f, hne, hf⟩
  · intro hkept
    -- A function that another file defines is a call of both lines or of none.
    have hsame : ∀ n f, f ≠ file → catalog.Defines n f →
        (n ∈ callsOf (String.ofList (assigned assignments name args)) ↔
          n ∈ callsOf (String.ofList (assigned [] name args)) ∨
            n ∈ assignments.flatMap Assignment.listed) := by
      intro n f hne hf
      refine mem_callsOf_assigned_iff name hassignments hargs fun hname => ?_
      subst hname
      rcases hkept with hplain | hinside | hargument | hdefined
      · exact Or.inl hplain
      · exact Or.inr (Or.inl hinside)
      · exact Or.inr (Or.inr hargument)
      · exact absurd (hdefined f hf) hne
    refine ⟨fun n => ?_, fun f => ?_⟩
    · rw [← or_and_right]
      refine and_congr_left fun hother => ?_
      obtain ⟨f, hne, hf⟩ := hother
      exact hsame n f hne hf
    · rw [← and_or_left]
      refine and_congr_right fun hne => ?_
      constructor
      · rintro ⟨n, hn, hf⟩
        rcases (hsame n f hne hf).mp hn with hbare | hinside
        · exact Or.inl ⟨n, hbare, hf⟩
        · exact Or.inr ⟨n, hinside, hf⟩
      · rintro (⟨n, hbare, hf⟩ | ⟨n, hinside, hf⟩)
        · exact ⟨n, (hsame n f hne hf).mpr (Or.inl hbare), hf⟩
        · exact ⟨n, (hsame n f hne hf).mpr (Or.inr hinside), hf⟩

/-! ## A value in quotes

`LEVEL=high warn x` calls `warn`. So does `LEVEL="high" warn x` in the shell, but here the quotes
hide the call.
-/

theorem transparent_samples :
    ∃ (plain quoted : Assignment) (warn : Name) (x : Arguments),
      assigned [plain] warn x = "LEVEL=high warn x".toList ∧
      assigned [quoted] warn x = "LEVEL=\"high\" warn x".toList ∧
      Transparent Catalog.warnOnly "main.sh" [plain] warn x ∧
      ¬ Transparent Catalog.warnOnly "main.sh" [quoted] warn x := by
  let level : Target := ⟨"LEVEL".toList, by decide, by decide, by decide⟩
  let nothing : PlainText := ⟨[], by simp⟩
  let plain : Assignment := ⟨level, false, ⟨"high".toList, List.all_eq_true.mp (by decide)⟩, []⟩
  let quoted : Assignment :=
    ⟨level, false, nothing, [(.double (.literal ⟨"high".toList, by simp⟩), nothing)]⟩
  let warn : Name := ⟨⟨"warn", by decide, by decide +kernel, by decide⟩, by decide⟩
  let x : Arguments := .more (.word ⟨"x", by decide, by decide +kernel, by decide⟩) .none
  have hargs : x.Allowed false := by simp [x, Arguments.Allowed, Argument.Allowed]
  have hplain : ∀ a ∈ [plain], a.Allowed := by simp [Assignment.Allowed, plain]
  have hquoted : ∀ a ∈ [quoted], a.Allowed := by
    simp [Assignment.Allowed, quoted, Part.Allowed, Quoted.Allowed]
  refine ⟨plain, quoted, warn, x, by decide +kernel, by decide +kernel, ?_, ?_⟩
  · rw [transparent_iff Catalog.warnOnly "main.sh" warn hplain hargs]
    exact Or.inl (by decide)
  · rw [transparent_iff Catalog.warnOnly "main.sh" warn hquoted hargs]
    rintro (h | h | h | h)
    · exact absurd (h quoted (by simp)) (by decide)
    · exact absurd h (by decide)
    · exact absurd h (by decide)
    · exact absurd (h "warn.sh" (Catalog.defines_warnOnly.mpr ⟨rfl, rfl⟩)) (by decide)

theorem warn_behind_quoted_value :
    "warn" ∈ (Catalog.warnOnly.dependenciesOf "main.sh" "warn x\n").functions ∧
      "warn" ∉
        (Catalog.warnOnly.dependenciesOf "main.sh" "LEVEL=\"high\" warn x\n").functions := by
  rw [Catalog.warn_mem_functions_dependenciesOf, Catalog.warn_mem_functions_dependenciesOf]
  decide +kernel

end ShellIndex.Program
