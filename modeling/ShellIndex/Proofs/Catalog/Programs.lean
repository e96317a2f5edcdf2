import ShellIndex.Proofs.Call.ProgramCalls
import ShellIndex.Proofs.Catalog.Dependencies

set_option autoImplicit false

/-! # The dependencies of programs

The dependencies of a structured program can be read off its tree: they are the calls of the tree
that some other file defines, whatever is nested in what. No function may bear the name of a
reserved word, since the words that end a command are read like calls.
-/

namespace ShellIndex.Program

/-- **The dependencies of a program are exactly what its tree calls.** -/
theorem dependenciesOf_program (s : Sequence) (hs : s.Allowed false) (catalog : Catalog)
    (hcatalog : ∀ name file, catalog.Defines name file → name ∉ reservedWords) (file : String) :
    (catalog.dependenciesOf file (String.ofList s.text)).file = file ∧
      (∀ n, n ∈ (catalog.dependenciesOf file (String.ofList s.text)).functions ↔
        n ∈ s.calls ∧ ∃ f, f ≠ file ∧ catalog.Defines n f) ∧
      ∀ f, f ∈ (catalog.dependenciesOf file (String.ofList s.text)).files ↔
        f ≠ file ∧ ∃ n ∈ s.calls, catalog.Defines n f := by
  -- A name that is defined is a call of the text as soon as it is one of the tree.
  have hcalls : ∀ n f, catalog.Defines n f →
      (n ∈ callsOf (String.ofList s.text) ↔ n ∈ s.calls) := by
    intro n f hn
    have hcall : isCall n = true := by simpa [isCall] using hcatalog n f hn
    rw [← filter_callsOf s hs, List.mem_filter]
    simp [hcall]
  refine ⟨catalog.file_dependenciesOf _ _, fun n => ?_, fun f => ?_⟩
  · rw [catalog.mem_functions_dependenciesOf]
    constructor
    · rintro ⟨hn, f, hne, hf⟩
      exact ⟨(hcalls n f hf).mp hn, f, hne, hf⟩
    · rintro ⟨hn, f, hne, hf⟩
      exact ⟨(hcalls n f hf).mpr hn, f, hne, hf⟩
  · rw [catalog.mem_files_dependenciesOf]
    constructor
    · rintro ⟨hne, n, hn, hf⟩
      exact ⟨hne, n, (hcalls n f hf).mp hn, hf⟩
    · rintro ⟨hne, n, hn, hf⟩
      exact ⟨hne, n, (hcalls n f hf).mpr hn, hf⟩

/-! ## A program

In `deploy() { if check "at $(load a)"; then command -p run > log; else ! undo; fi; }` the
function `load` is called within a string, and `log` is only written to. -/

def sample : Sequence :=
  let a : PlainWord := ⟨"a", by decide, by decide +kernel, by decide⟩
  let log : PlainWord := ⟨"log", by decide, by decide +kernel, by decide⟩
  let p : WrapperOption := ⟨⟨"-p", by decide, by decide +kernel, by decide⟩, by decide⟩
  let load : Name := ⟨⟨"load", by decide, by decide +kernel, by decide⟩, by decide⟩
  let check : Name := ⟨⟨"check", by decide, by decide +kernel, by decide⟩, by decide⟩
  let run : Name := ⟨⟨"run", by decide, by decide +kernel, by decide⟩, by decide⟩
  let undo : Name := ⟨⟨"undo", by decide, by decide +kernel, by decide⟩, by decide⟩
  let deploy : Name := ⟨⟨"deploy", by decide, by decide +kernel, by decide⟩, by decide⟩
  let at_ : Literal := ⟨"at ".toList, by simp⟩
  let nothing : Literal := ⟨[], by simp⟩
  let string : Quoted :=
    .substitution at_ (.single (.call [] load (.more (.word a) .none))) (.literal nothing)
  .single (.define false deploy (.single (.branch
    (.single (.call [] check (.more (.quoted string) .none)))
    (.single (.redirect (.call [(.command, [p])] run .none) log))
    (.single (.negate (.call [] undo .none))))))

def sampleCatalog : Catalog :=
  (Catalog.empty.add "load" "lib.sh" (by decide) (by decide)).add "log" "lib.sh" (by decide)
    (by decide)

theorem dependenciesOf_sample :
    sample.Allowed false ∧
      (∀ name file, sampleCatalog.Defines name file → name ∉ reservedWords) ∧
      "load" ∈ (sampleCatalog.dependenciesOf "main.sh" (String.ofList sample.text)).functions ∧
      "lib.sh" ∈ (sampleCatalog.dependenciesOf "main.sh" (String.ofList sample.text)).files ∧
      "log" ∉ (sampleCatalog.dependenciesOf "main.sh" (String.ofList sample.text)).functions := by
  have hdefines : ∀ name file, sampleCatalog.Defines name file ↔
      (name = "log" ∧ file = "lib.sh") ∨ (name = "load" ∧ file = "lib.sh") := by
    intro name file
    rw [sampleCatalog, Catalog.defines_add, Catalog.defines_add]
    simp [Catalog.not_defines_empty]
  have hs : sample.Allowed false := by
    simp [sample, Sequence.Allowed, Command.Allowed, Arguments.Allowed, Argument.Allowed,
      Quoted.Allowed]
  have hcatalog : ∀ name file, sampleCatalog.Defines name file → name ∉ reservedWords := by
    intro name file h
    rcases (hdefines name file).mp h with ⟨rfl, -⟩ | ⟨rfl, -⟩ <;> decide
  obtain ⟨-, hfunctions, hfiles⟩ :=
    dependenciesOf_program sample hs sampleCatalog hcatalog "main.sh"
  have hload : "load" ∈ sample.calls := by decide
  have hlog : "log" ∉ sample.calls := by decide
  refine ⟨hs, hcatalog, ?_, ?_, ?_⟩
  · exact (hfunctions _).mpr ⟨hload, "lib.sh", by decide, (hdefines _ _).mpr (by simp)⟩
  · exact (hfiles _).mpr ⟨by decide, "load", hload, (hdefines _ _).mpr (by simp)⟩
  · exact fun h => hlog ((hfunctions _).mp h).1

end ShellIndex.Program
