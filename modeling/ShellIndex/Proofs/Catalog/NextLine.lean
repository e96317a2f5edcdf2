import ShellIndex.Proofs.Call.Ordinary
import ShellIndex.Proofs.Catalog.Dependencies
import ShellIndex.Proofs.Source.LineEnd

set_option autoImplicit false

/-! # Dependencies at the start of a line

The first word of a line names a command unless the line before is continued. A line whose view ends
in a backslash is taken to be continued, and so is a line that ends in an escaped character, since
such a character is masked: the command on the line below it is lost.
-/

namespace ShellIndex.Call

open Text Source Program

/-- The tracker behind some lines at the start of a script. -/
def trackerBehind (raws : List (List Char)) : Tracker :=
  Tracker.start.after ((Open.nothing.scan 1 raws).map Line.code)

/-- Nothing is open before the line and nothing behind it, and no backslash escapes its end. -/
structure EndsPlainly (above : List (List Char)) (line : List Char) : Prop where
  before_eq : Open.nothing.after above = Open.nothing
  next_eq : (Open.nothing.read line).next = Open.nothing
  even : backslashes line.reverse % 2 = 0
  inArray_eq : (trackerBehind (above ++ [line])).inArray = false
  inCommands_eq : inCommands (trackerBehind (above ++ [line])).cases = true

section
variable {above : List (List Char)} {line : List Char}

/-- A line that ends plainly is taken to be continued exactly if it ends in an escaped character
that is masked. -/
theorem EndsPlainly.continued_iff (h : EndsPlainly above line) :
    (trackerBehind (above ++ [line])).continued = true ↔ EndsInEscape line := by
  have hcodes : (Open.nothing.scan 1 (above ++ [line])).map Line.code =
      (Open.nothing.scan 1 above).map Line.code ++ [(Open.nothing.read line).code] := by
    rw [Open.scan_append, h.before_eq, List.map_append]
    rfl
  rw [trackerBehind, hcodes, Tracker.after, List.foldl_append,
    ← getLast?_code_eq_backslash_iff h.next_eq h.even]
  simp [Tracker.readLine, Tracker.endLine]

theorem EndsPlainly.expectsCommand_iff (h : EndsPlainly above line) :
    (trackerBehind (above ++ [line])).startLine.expectsCommand = true ↔
      (trackerBehind (above ++ [line])).atCommand = true ∨ ¬ EndsInEscape line := by
  rw [← h.continued_iff]
  simp [Tracker.startLine, Cursor.expectsCommand, h.inCommands_eq]

/-- The name of an expected command at the start of a line is a call. -/
theorem mem_readLine {t : Tracker} {code : List Char} {w : String} (harray : t.inArray = false)
    (hexpects : t.startLine.expectsCommand = true)
    (hw : (Lexeme.ofCode code).head? = some (.word w false))
    (hname : Cursor.isCommandName w = true) : w ∈ (t.readLine code).2 := by
  obtain ⟨lexemes, hlexemes⟩ := List.head?_eq_some_iff.mp hw
  obtain ⟨hat, hin⟩ := Bool.and_eq_true_iff.mp hexpects
  have hawaits : Awaits t.cases true t.startLine := ⟨⟨rfl, hat, harray⟩, rfl, rfl, rfl⟩
  have hcall : (t.startLine.step (.word w false)).2 = some w := by
    show (t.startLine.word w false).2 = some w
    rw [hawaits.word_eq hin, Cursor.command_of_isCommandName hname rfl]
  show w ∈ (t.startLine.run (Lexeme.ofCode code)).2
  rw [hlexemes, Cursor.run_cons, hcall]
  simp

/-- The calls of a script are those of each of its lines. -/
theorem mem_callsOf_of_mem_readLine {text : String} {above below : List (List Char)}
    {line : List Char} (hlines : lines text.toList = above ++ line :: below) {w : String}
    (hw : w ∈ ((trackerBehind above).readLine ((Open.nothing.after above).read line).code).2) :
    w ∈ callsOf text := by
  rw [callsOf, scan, hlines, Open.scan_append, List.map_append, Tracker.calls_append]
  refine List.mem_append_right _ ?_
  rw [Open.scan, List.map_cons, Tracker.calls]
  exact List.mem_append_left _ hw

theorem mem_callsOf_line {text : String} {above below : List (List Char)} {line next : List Char}
    (hlines : lines text.toList = above ++ line :: next :: below)
    (hnext : Open.nothing.after (above ++ [line]) = Open.nothing) {w : String}
    (hw : w ∈ ((trackerBehind (above ++ [line])).readLine (Open.nothing.read next).code).2) :
    w ∈ callsOf text := by
  have hsplit : lines text.toList = (above ++ [line]) ++ next :: below := by
    rw [hlines, List.append_assoc, List.singleton_append]
  rw [← hnext] at hw
  exact mem_callsOf_of_mem_readLine hsplit hw

/-- **The first word of a line names a command** unless the line before ends in an escaped character
that is masked. If it does, the word names a command only if one is expected all the same. -/
theorem command_on_next_line {text : String} {above below : List (List Char)}
    {line next : List Char} (hlines : lines text.toList = above ++ line :: next :: below)
    (h : EndsPlainly above line) :
    ((trackerBehind (above ++ [line])).startLine.expectsCommand = true ↔
        (trackerBehind (above ++ [line])).atCommand = true ∨ ¬ EndsInEscape line) ∧
      ((trackerBehind (above ++ [line])).atCommand = true ∨ ¬ EndsInEscape line →
        ∀ w, (Lexeme.ofCode (Open.nothing.read next).code).head? = some (.word w false) →
          Cursor.isCommandName w = true → ∀ (catalog : Catalog) (file : String),
            (∃ f, f ≠ file ∧ catalog.Defines w f) →
              w ∈ (catalog.dependenciesOf file text).functions) := by
  refine ⟨h.expectsCommand_iff, fun hstart w hw hname catalog file hdefined => ?_⟩
  have hafter : Open.nothing.after (above ++ [line]) = Open.nothing := by
    rw [Open.after, List.foldl_append]
    show ((Open.nothing.after above).read line).next = Open.nothing
    rw [h.before_eq, h.next_eq]
  rw [catalog.mem_functions_dependenciesOf]
  refine ⟨mem_callsOf_line hlines hafter ?_, hdefined⟩
  exact mem_readLine h.inArray_eq (h.expectsCommand_iff.mpr hstart) hw hname

end

/-! ## A line that ends in an escaped semicolon

Behind `find . -exec rm \;` the next line is taken for more arguments.
-/

theorem warn_on_next_line :
    "warn" ∈ (Catalog.warnOnly.dependenciesOf "main.sh" "run a\nwarn x\n").functions := by
  have hlines : lines "run a\nwarn x\n".toList = [] ++ "run a".toList :: "warn x".toList :: [] := by
    decide +kernel
  have hends : EndsPlainly [] "run a".toList := by
    constructor <;> decide +kernel
  have hescape : ¬ EndsInEscape "run a".toList := fun h =>
    absurd h.mem_backslash (by decide)
  have hdefined : ∃ f, f ≠ "main.sh" ∧ Catalog.warnOnly.Defines "warn" f :=
    ⟨"warn.sh", by decide, Catalog.defines_warnOnly.mpr ⟨rfl, rfl⟩⟩
  exact (command_on_next_line hlines hends).2 (Or.inr hescape) "warn" (by decide +kernel)
    (by decide) Catalog.warnOnly "main.sh" hdefined

theorem warn_behind_escaped_semicolon :
    lines "find . -exec rm \\;\nwarn x\n".toList =
        [] ++ "find . -exec rm \\;".toList :: "warn x".toList :: [] ∧
      EndsPlainly [] "find . -exec rm \\;".toList ∧
      "warn" ∉ (Catalog.warnOnly.dependenciesOf "main.sh"
        "find . -exec rm \\;\nwarn x\n").functions := by
  rw [Catalog.warn_mem_functions_dependenciesOf]
  refine ⟨by decide +kernel, ?_, by decide +kernel⟩
  constructor <;> decide +kernel

end ShellIndex.Call
