import ShellIndex.Proofs.Call.Continuation
import ShellIndex.Proofs.Catalog.Dependencies

set_option autoImplicit false

/-! # Dependencies across line continuations

A line continuation should stand for a blank. Between the arguments of a command it does. In front
of a command it takes the place of the command. Behind `function` it takes the place of the name
that is defined, which is left out here.
-/

namespace ShellIndex.Call

open Text Program

/-- **A line continuation in place of a blank.** Where no command is expected it leaves the
dependencies of every script as they are, unless it cuts the header of a definition. Where a
command is expected it is itself the command: what is called is what would be called if the
backslash and the line feed were the name of a command. -/
theorem dependenciesOf_continued {s t : List Char} (hs : ∀ c ∈ s, isScriptChar c = true)
    (ht : ∀ c ∈ t, isScriptChar c = true) (hfunction : (cursorBehind s).afterFunction = false) :
    ((cursorBehind s).expectsCommand = false → splitsHeader s t = false →
      ∀ (catalog : Catalog) (file : String) (b : Char), isInlineBlank b = true →
        catalog.dependenciesOf file (String.ofList (continued s t)) =
          catalog.dependenciesOf file (String.ofList (s ++ b :: t))) ∧
    ((cursorBehind s).expectsCommand = true → Lexeme.startsWithParens (firstLine t) = false →
      ∃ before after, callsOf (String.ofList (continued s t)) = before ++ "\\" :: after ∧
        ∀ name : Name, callsOf (String.ofList (s ++ ' ' :: (name.text.toList ++ ' ' :: t))) =
          before ++ name.text :: after) := by
  refine ⟨fun hexpects hheader catalog file b hb => ?_, fun hexpects hparens => ?_⟩
  · rw [Catalog.dependenciesOf, Catalog.dependenciesOf,
      callsOf_continued_argument hs ht hheader hfunction hexpects hb]
  · exact callsOf_continued_command hs ht hparens hfunction hexpects

/-! ## Two continuations

In `run a \` the next line holds more arguments. In `a && \` it holds the next command, which is
taken for an argument.
-/

theorem continued_samples :
    Catalog.warnOnly.dependenciesOf "main.sh" "run a \\\nwarn\n" =
        Catalog.warnOnly.dependenciesOf "main.sh" "run a warn\n" ∧
      ∃ before after, callsOf "a && \\\nwarn x\n" = before ++ "\\" :: after ∧
        callsOf "a && run warn x\n" = before ++ "run" :: after := by
  let run : Name := ⟨⟨"run", by decide, by decide +kernel, by decide⟩, by decide⟩
  have hscript : ∀ text ∈ ["run a", "warn\n", "a &&", "warn x\n"],
      ∀ c ∈ text.toList, isScriptChar c = true := fun text htext =>
    List.all_eq_true.mp <|
      (by decide : ∀ text ∈ ["run a", "warn\n", "a &&", "warn x\n"],
        text.toList.all isScriptChar = true) text htext
  obtain ⟨hargument, -⟩ := dependenciesOf_continued (hscript "run a" (by simp))
    (hscript "warn\n" (by simp)) (by decide +kernel)
  obtain ⟨-, hcommand⟩ := dependenciesOf_continued (hscript "a &&" (by simp))
    (hscript "warn x\n" (by simp)) (by decide +kernel)
  obtain ⟨before, after, hlost, hname⟩ := hcommand (by decide +kernel) (by decide +kernel)
  have hcalled := hname run
  have hsame := hargument (by decide +kernel) (by decide +kernel) Catalog.warnOnly "main.sh" ' '
    (by decide)
  have htexts : String.ofList (continued "run a".toList "warn\n".toList) = "run a \\\nwarn\n" ∧
      String.ofList ("run a".toList ++ ' ' :: "warn\n".toList) = "run a warn\n" ∧
      String.ofList (continued "a &&".toList "warn x\n".toList) = "a && \\\nwarn x\n" ∧
      String.ofList ("a &&".toList ++ ' ' :: (run.text.toList ++ ' ' :: "warn x\n".toList)) =
        "a && run warn x\n" := by
    decide +kernel
  rw [htexts.1, htexts.2.1] at hsame
  rw [htexts.2.2.1] at hlost
  rw [htexts.2.2.2] at hcalled
  exact ⟨hsame, before, after, hlost, hcalled⟩

theorem warn_behind_continuation :
    "warn" ∈ (Catalog.warnOnly.dependenciesOf "main.sh" "a && warn x\n").functions ∧
      "warn" ∉ (Catalog.warnOnly.dependenciesOf "main.sh" "a && \\\nwarn x\n").functions := by
  rw [Catalog.warn_mem_functions_dependenciesOf, Catalog.warn_mem_functions_dependenciesOf]
  decide +kernel

end ShellIndex.Call
