import ShellIndex.Proofs.Call.CaseCalls
import ShellIndex.Proofs.Catalog.Dependencies

set_option autoImplicit false

/-! # Dependencies on the words of patterns

No word of a pattern should count, and each body should. So it is where patterns have no parentheses
of their own. Behind the first parenthesis that a pattern closes itself, the words that start a
pattern or an alternative count like commands, and a command on the same line behind the patterns
does not count.
-/

namespace ShellIndex.Program

open Text Source Call

/-- **`case` commands of any depth.** In front of a body no word counts and a command is expected, as
it should be, exactly if no word of the patterns is read as a command and the body starts on a later
line or the patterns have no parentheses of their own. Where this holds of every arm the names in
command position are listed. Wherever a command is expected the tree says what is listed, and the
open `case` commands are left as they were, since each end of an arm leads back to the patterns of
the innermost one. -/
theorem Statement.forArms_wellRead_iff (s : Statement) :
    (s.ForArms ArmHead.WellRead ↔ s.ForArms ArmHead.Kept) ∧
    (∀ head : ArmHead,
      head.expects = true ↔ 0 < head.below ∨ head.patterns.hasParens = false) ∧
    (s.ForArms ArmHead.Plain → s.ForArms ArmHead.Kept) ∧
    (s.ForArms ArmHead.Kept → s.ForArms ArmHead.Regular ∧ s.listed = s.names) ∧
    (s.ForArms ArmHead.Regular →
      (∀ cases : List CasePart, inCommands cases = true →
        Tracks EndsWord (Stands cases true) (s.print blankOut) (Stands cases false) s.listed) ∧
      (s.Allowed → callsOf (String.ofList (s.print id)) = s.listed)) ∧
    ∀ (cases : List CasePart) (ending : Ending) (b : Bool),
      Tracks Anything (Stands (.body :: cases) b) ending.text (InPatterns cases) [] := by
  refine ⟨⟨fun hs => ?_, fun hs => ?_⟩, ArmHead.expects_iff, fun hs => ?_, fun hs => ?_,
    fun hs => ?_, fun _ ending _ => ending.tracks⟩
  · exact Statement.ForArms.mono (fun head body => (head.wellRead_iff body).mp) s hs
  · exact Statement.ForArms.mono (fun head body => (head.wellRead_iff body).mpr) s hs
  · exact Statement.ForArms.mono (fun _ _ h => h.kept) s hs
  · exact ⟨Statement.ForArms.mono (fun _ _ h => h.regular) s hs, listed_statement s hs⟩
  · exact ⟨fun cases hc => tracks_statement s hc hs, fun ha => callsOf_statement s ha hs⟩

/-! ## Two commands

In the first one no word of a pattern counts and every body does. In the second one `.so` counts and
the last `warn` does not.
-/

theorem case_samples :
    ∃ kept misread : Statement,
      String.ofList (kept.print id) =
        "case $x in (+([0-9]))\n case \"$y\" in c|*d) warn ;;& esac ;; esac" ∧
      kept.names = ["warn"] ∧ callsOf (String.ofList (kept.print id)) = ["warn"] ∧
      String.ofList (misread.print id) =
        "case $x in lib@(a|b).so)\n run ;; +([0-9])) warn ;; esac" ∧
      misread.names = ["run", "warn"] ∧
      callsOf (String.ofList (misread.print id)) = [".so", "run"] := by
  let a : GlobWord := ⟨"a", by decide, by decide, by decide⟩
  let b : GlobWord := ⟨"b", by decide, by decide, by decide⟩
  let c : GlobWord := ⟨"c", by decide, by decide, by decide⟩
  let d : GlobWord := ⟨"*d", by decide, by decide, by decide⟩
  let so : GlobWord := ⟨".so", by decide, by decide, by decide⟩
  let digit : GlobWord := ⟨"[0-9]", by decide, by decide, by decide⟩
  let digits : Pattern := .group ⟨"+", by decide, by decide⟩ (.last (.word digit)) .empty
  let library : Pattern :=
    .group ⟨"lib@", by decide, by decide⟩ (.more (.word a) false (.last (.word b))) (.word so)
  let x : Variable := ⟨"x", by decide, List.forall_mem_singleton.mpr (by decide +kernel)⟩
  let y : QuotedText :=
    ⟨['$', 'y'], List.forall_mem_cons.mpr ⟨by decide, List.forall_mem_singleton.mpr (by decide)⟩,
      by decide⟩
  let warn : Name := ⟨⟨"warn", by decide, by decide +kernel, by decide⟩, by decide⟩
  let run : Name := ⟨⟨"run", by decide, by decide +kernel, by decide⟩, by decide⟩
  let call (name : Name) : Block := .single (.plain (.call [] name .none))
  let inner : Statement := .choose (.quoted y)
    (.more ⟨0, false, .more (.word c) false (.last (.word d)), 0⟩ (call warn) 0 .test (.none 0))
  let kept : Statement := .choose (.reference x)
    (.more ⟨0, true, .last digits, 1⟩ (.single inner) 0 .stop (.none 0))
  let misread : Statement := .choose (.reference x)
    (.more ⟨0, false, .last library, 1⟩ (call run) 0 .stop
      (.more ⟨0, false, .last digits, 0⟩ (call warn) 0 .stop (.none 0)))
  have hkept : kept.ForArms ArmHead.Kept :=
    ⟨⟨rfl, Or.inl rfl⟩, ⟨⟨rfl, Or.inl rfl⟩, trivial, trivial⟩, trivial⟩
  have hmisread : misread.ForArms ArmHead.Regular := by
    refine ⟨Or.inl rfl, trivial, Or.inr ?_, trivial, trivial⟩
    rintro _ ⟨⟩
    rfl
  obtain ⟨-, -, -, hkeeps, hreads, -⟩ := Statement.forArms_wellRead_iff kept
  obtain ⟨-, -, -, -, hreads', -⟩ := Statement.forArms_wellRead_iff misread
  obtain ⟨hregular, hnames⟩ := hkeeps hkept
  have hcalls := (hreads hregular).2 ⟨⟨trivial, trivial⟩, trivial⟩
  have hcalls' := (hreads' hmisread).2 ⟨trivial, trivial, trivial⟩
  refine ⟨kept, misread, by decide, rfl, ?_, by decide, rfl, ?_⟩
  · rw [hcalls, hnames]
    rfl
  · rw [hcalls']
    decide

theorem warn_among_patterns :
    "warn" ∉ (Catalog.warnOnly.dependenciesOf "main.sh"
        "case $x in\n a|warn) run ;;\n esac\n").functions ∧
      "warn" ∈ (Catalog.warnOnly.dependenciesOf "main.sh"
        "case $x in\n @(a|b)|warn) run ;;\n esac\n").functions ∧
      "warn" ∉ (Catalog.warnOnly.dependenciesOf "main.sh"
        "case $x in\n +([0-9])) warn ;;\n esac\n").functions := by
  simp only [Catalog.warn_mem_functions_dependenciesOf]
  decide +kernel

end ShellIndex.Program
