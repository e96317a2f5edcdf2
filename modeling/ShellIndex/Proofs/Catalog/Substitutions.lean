import ShellIndex.Proofs.Call.Substitution
import ShellIndex.Proofs.Catalog.NextLine
import ShellIndex.Proofs.Source.Substitution

set_option autoImplicit false

/-! # Dependencies in substitutions

The command of a substitution should be a dependency wherever a word may stand: in an argument, in
the value of an assignment, in the target of a redirection, inside double quotes, on any line of the
script. It is one, except in an array, in the subject and among the patterns of a `case` command,
and in place of the name of a definition.
-/

namespace ShellIndex.Call

open Text Source Program

/-- The start of a substitution in a script, with what stands around it. -/
structure Site where
  /-- The lines above. -/
  above : List (List Char)
  /-- What stands before the substitution in its line. -/
  before : List Char
  /-- The name of its command. -/
  name : List Char
  /-- What stands behind the name in the line. -/
  behind : List Char
  /-- The lines below. -/
  below : List (List Char)

namespace Site
variable {p : Site} {text : String} {r : Reader}

/-- The line from the substitution on. -/
def onward (p : Site) : List Char := '$' :: '(' :: (p.name ++ p.behind)

def line (p : Site) : List Char := p.before ++ p.onward

/-- What is open before the line. -/
def openBefore (p : Site) : Open := Open.nothing.after p.above

/-- The tracker before the substitution, when the reader there is `r`. -/
def cursor (p : Site) (r : Reader) : Cursor :=
  ((trackerBehind p.above).startLine.run (Lexeme.ofCode r.code.reverse)).1

/-- The substitution stands in `text` where a substitution can stand, and `r` is the reader there:
neither in single quotes nor in a comment or a here-document, and the dollar sign is not escaped. -/
structure In (p : Site) (text : String) (r : Reader) : Prop where
  lines_eq : lines text.toList = p.above ++ p.line :: p.below
  no_heredoc : p.openBefore.heredocs = []
  readTo_eq : (Reader.start p.openBefore.contexts).readTo p.onward p.before = some r
  expanding : r.Expanding
  name_ne_nil : p.name ≠ []
  name_plain : ∀ c ∈ p.name, Lexeme.isWordChar c = true ∧ isInert c = true
  name_ends : EndsRun p.behind
  no_parens : (trimStart p.behind).head? ≠ some '('

/-- Neither arrays nor `case` commands start before the substitution, nor does a definition in its
line. -/
structure Simple (p : Site) (r : Reader) : Prop where
  above_opens : ∀ code ∈ (Open.nothing.scan 1 p.above).map Line.code,
    Lexeme.opensNothing none (Lexeme.ofCode code) = true
  before_opens : Lexeme.opensNothing none (Lexeme.ofCode r.code.reverse) = true
  no_function : ∀ defines, .word "function" defines ∉ Lexeme.ofCode r.code.reverse

/-- The lexemes at the start of the substitution. -/
def lexemes (p : Site) : List Lexeme := [.dollar, .openParen, .word (String.ofList p.name) false]

theorem In.ofCode_line (h : p.In text r) :
    ∃ more, Lexeme.ofCode (p.openBefore.read p.line).code =
      Lexeme.ofCode r.code.reverse ++ (p.lexemes ++ more) := by
  have hread : (p.openBefore.read p.line).code = (r.run p.onward).1.code.reverse := by
    rw [Open.read, h.no_heredoc]
    dsimp only
    rw [line, Reader.run_append h.readTo_eq]
  obtain ⟨view, hcode, hhead, htrim⟩ :=
    h.expanding.exists_code (fun c hc => (h.name_plain c hc).2) p.behind
  -- What is behind the name in the view ends the name too, be it a masked comment.
  have hends : EndsRun view := by
    intro c hc
    rcases hhead c hc with hbehind | rfl
    · exact h.name_ends c hbehind
    · decide
  have hparens : Lexeme.startsWithParens view = false := by
    refine Bool.eq_false_iff.mpr fun hstart => h.no_parens (htrim '(' ?_)
    obtain ⟨inner, hinner, -⟩ := Lexeme.startsWithParens_iff.mp hstart
    rw [hinner]
    rfl
  refine ⟨Lexeme.ofCode view, ?_⟩
  rw [hread, onward, hcode]
  exact Lexeme.ofCode_substitution h.name_ne_nil (fun c hc => (h.name_plain c hc).1) hends hparens

theorem In.mem_callsOf (h : p.In text r) {w : String}
    (hw : w ∈ ((p.cursor r).run p.lexemes).2) : w ∈ callsOf text := by
  obtain ⟨more, hline⟩ := h.ofCode_line
  refine mem_callsOf_of_mem_readLine h.lines_eq ?_
  show w ∈ ((trackerBehind p.above).startLine.run
    (Lexeme.ofCode (p.openBefore.read p.line).code)).2
  rw [hline, Cursor.run_append, Cursor.run_append]
  exact List.mem_append_right _ (List.mem_append_left _ hw)

theorem Simple.substitutes (h : p.Simple r) : (p.cursor r).substitutes = true := by
  have hstart : (trackerBehind p.above).startLine.Simple :=
    Tracker.simple_after ⟨rfl, rfl⟩ h.above_opens
  exact (hstart.run h.before_opens).substitutes (Cursor.afterFunction_run rfl h.no_function)

/-- **The command of a substitution is a dependency** in every catalog that defines it in another
file, unless the tracker reads an array, what is between `case` and an arm, or the name of a
definition. It reads none of them where no array and no `case` command starts before the
substitution and no definition in its line. -/
theorem In.command_listed (h : p.In text r) :
    (∃ more, Lexeme.ofCode (p.openBefore.read p.line).code =
      Lexeme.ofCode r.code.reverse ++ (p.lexemes ++ more)) ∧
      ((p.cursor r).run p.lexemes).2 =
        (if (p.cursor r).substitutes && Cursor.isCommandName (String.ofList p.name) then
          [String.ofList p.name] else []) ∧
      ((p.cursor r).substitutes = true → Cursor.isCommandName (String.ofList p.name) = true →
        ∀ (catalog : Catalog) (file : String),
          (∃ f, f ≠ file ∧ catalog.Defines (String.ofList p.name) f) →
            String.ofList p.name ∈ (catalog.dependenciesOf file text).functions) ∧
      (p.Simple r → (p.cursor r).substitutes = true) := by
  have hrun := (p.cursor r).run_substitution (String.ofList p.name)
  refine ⟨h.ofCode_line, hrun, fun hsubstitutes hname catalog file hdefined => ?_, fun hsimple =>
    hsimple.substitutes⟩
  rw [catalog.mem_functions_dependenciesOf]
  refine ⟨h.mem_callsOf ?_, hdefined⟩
  rw [lexemes, hrun, hsubstitutes, hname]
  exact List.mem_singleton_self _

end Site

/-! ## Two substitutions

Inside the double quotes of a target `$(warn x)` is found, as the first element of an array it is
not.
-/

theorem substitution_samples :
    "warn" ∈ (Catalog.warnOnly.dependenciesOf "main.sh"
        "x=1\nrun > \"a $(warn x) b\"\n").functions ∧
      ∃ (p : Site) (r : Reader), p.In "steps=($(warn x))\n" r ∧ p.name = "warn".toList ∧
        ((p.cursor r).run p.lexemes).2 = [] := by
  let quoted : Site :=
    ⟨["x=1".toList], "run > \"a ".toList, "warn".toList, " x) b\"".toList, []⟩
  let inQuotes : Reader :=
    ⟨[.double], [], "run > \"a ".toList.reverse, "run > \"  ".toList.reverse, .nothing⟩
  let element : Site := ⟨[], "steps=(".toList, "warn".toList, " x))".toList, []⟩
  let inArray : Reader :=
    ⟨[], [], "steps=(".toList.reverse, "steps=(".toList.reverse, .nothing⟩
  have hall : "warn".toList.all (fun c => Lexeme.isWordChar c && isInert c) = true := by decide
  have hplain : ∀ c ∈ "warn".toList, Lexeme.isWordChar c = true ∧ isInert c = true := by
    simpa only [List.all_eq_true, Bool.and_eq_true] using hall
  have hquoted : quoted.In "x=1\nrun > \"a $(warn x) b\"\n" inQuotes :=
    ⟨by decide +kernel, by decide +kernel, by decide +kernel, ⟨rfl, Or.inr rfl⟩, by decide, hplain,
      endsRun_cons (by decide) _, by decide⟩
  have helement : element.In "steps=($(warn x))\n" inArray :=
    ⟨by decide +kernel, by decide +kernel, by decide +kernel, ⟨rfl, Or.inl rfl⟩, by decide, hplain,
      endsRun_cons (by decide) _, by decide⟩
  have hdefined : ∃ f, f ≠ "main.sh" ∧ Catalog.warnOnly.Defines "warn" f :=
    ⟨"warn.sh", by decide, Catalog.defines_warnOnly.mpr ⟨rfl, rfl⟩⟩
  have hsimple : quoted.Simple inQuotes := by
    constructor <;> decide +kernel
  obtain ⟨-, -, hfound, hsubstitutes⟩ := hquoted.command_listed
  obtain ⟨-, hlost, -, -⟩ := helement.command_listed
  refine ⟨?_, element, inArray, helement, rfl, ?_⟩
  · exact hfound (hsubstitutes hsimple) (by decide) Catalog.warnOnly "main.sh" hdefined
  · rw [hlost]
    decide +kernel

theorem warn_in_array :
    "warn" ∈ (Catalog.warnOnly.dependenciesOf "main.sh" "steps=$(warn x)\n").functions ∧
      "warn" ∉ (Catalog.warnOnly.dependenciesOf "main.sh" "steps=($(warn x))\n").functions ∧
      "warn" ∉ (Catalog.warnOnly.dependenciesOf "main.sh"
        "case $(warn x) in\na) run ;;\nesac\n").functions := by
  simp only [Catalog.warn_mem_functions_dependenciesOf]
  decide +kernel

end ShellIndex.Call
