import ShellIndex.Proofs.Call.Backquote
import ShellIndex.Proofs.Catalog.Dependencies

set_option autoImplicit false

/-! # Dependencies of a substitution in backquotes

It should make no difference whether the commands of a substitution in backquotes stand on one line
or on several. On one line they and the command around them are all that counts. On several lines
the first word behind the substitution counts too, though it is an argument.
-/

namespace ShellIndex.Program

namespace Backquoted
variable (c : Backquoted)

/-- **A substitution over several lines counts as on one line exactly if it is a single command or
the first word behind it does not matter**: no word follows, or it is called anyhow, or no other
file defines it. -/
theorem dependenciesOf_lineFeed_iff :
    callsOf (String.ofList (c.text .semicolon)) = c.called ∧
      callsOf (String.ofList (c.text .lineFeed)) =
        c.called ++ (if c.more = [] then [] else (c.behind.take 1).map PlainWord.text) ∧
      ∀ (catalog : Catalog) (file : String),
        catalog.dependenciesOf file (String.ofList (c.text .lineFeed)) =
            catalog.dependenciesOf file (String.ofList (c.text .semicolon)) ↔
          c.more = [] ∨ ∀ w ∈ c.behind.head?,
            w.text ∈ c.called ∨ ∀ f, catalog.Defines w.text f → f = file := by
  have hsemicolon : callsOf (String.ofList (c.text .semicolon)) = c.called := by
    rw [c.callsOf_text, c.listedBehind_semicolon, List.append_nil]
  have hlineFeed := c.callsOf_text .lineFeed
  rw [c.listedBehind_lineFeed] at hlineFeed
  refine ⟨hsemicolon, hlineFeed, fun catalog file => ?_⟩
  have hmore : ∀ n, n ∈ callsOf (String.ofList (c.text .lineFeed)) ↔
      n ∈ callsOf (String.ofList (c.text .semicolon)) ∨
        n ∈ if c.more = [] then [] else (c.behind.take 1).map PlainWord.text := by
    intro n
    rw [hlineFeed, hsemicolon, List.mem_append]
  rw [catalog.dependenciesOf_eq_iff_of_more hmore, hsemicolon]
  by_cases hone : c.more = []
  · simp [hone]
  · cases c.behind <;> simp [hone]

/-! ## An argument behind a substitution -/

theorem warn_behind_backquotes :
    "warn" ∉ (Catalog.warnOnly.dependenciesOf "main.sh" "echo `a; b` warn").functions ∧
      "warn" ∈ (Catalog.warnOnly.dependenciesOf "main.sh" "echo `a\nb` warn").functions := by
  rw [Catalog.warn_mem_functions_dependenciesOf, Catalog.warn_mem_functions_dependenciesOf]
  decide +kernel

end Backquoted

end ShellIndex.Program
