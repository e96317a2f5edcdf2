import ShellIndex.Proofs.Call.EscapedName

set_option autoImplicit false

/-! # Dependencies of an escaped command

A backslash before the name of a command keeps the shell from expanding an alias: it still runs the
command. Here it does not: the escaped word is looked up with its backslash, so that the call is lost
wherever it stands, unless the script calls the function elsewhere too.
-/

namespace ShellIndex.Call

open Text Source

variable {p : Place} {text text' : String} {r : Reader} {name : List Char}

/-- What is called behind some names, with another name or without. -/
theorem mem_append_cons_iff {before after : List String} {called n : String} :
    n ∈ before ++ called :: after ↔ n = called ∨ n ∈ before ++ after := by
  rw [List.mem_append, List.mem_cons, List.mem_append]
  exact or_left_comm

/-- A name is not the escaped name. -/
theorem ofList_ne_escaped (name : List Char) : String.ofList name ≠ String.ofList ('\\' :: name) := by
  intro h
  have hlength := congrArg List.length (String.ofList_inj.mp h)
  rw [List.length_cons] at hlength
  omega

/-- **An escaped command is lost.** A backslash before a name in command position replaces the call of
the name by a call of the escaped word. The dependencies are the same in exactly the catalogs in which
neither of the two matters: each is called elsewhere in the script too, or no other file defines it. -/
theorem Names.dependenciesOf_escape_iff (hp : Names p r name) (h : p.At text r)
    (h' : lines text'.toList = p.above ++ (p.insert ['\\']).line :: p.below) :
    ∃ before after, callsOf text = before ++ String.ofList name :: after ∧
      callsOf text' = before ++ String.ofList ('\\' :: name) :: after ∧
      ∀ (catalog : Catalog) (file : String),
        catalog.dependenciesOf file text' = catalog.dependenciesOf file text ↔
          (String.ofList name ∈ before ++ after ∨
            ∀ f, catalog.Defines (String.ofList name) f → f = file) ∧
          (String.ofList ('\\' :: name) ∈ before ++ after ∨
            ∀ f, catalog.Defines (String.ofList ('\\' :: name)) f → f = file) := by
  obtain ⟨before, after, hcalls, hcalls'⟩ := hp.callsOf_escape h h'
  refine ⟨before, after, hcalls, hcalls', fun catalog file => ?_⟩
  have hne := ofList_ne_escaped name
  rw [catalog.dependenciesOf_eq_iff, hcalls, hcalls']
  simp only [mem_append_cons_iff]
  constructor
  · intro hsame
    constructor
    · rcases catalog.defined_elsewhere_or file (String.ofList name) with ⟨f, hf, hdefined⟩ | hnone
      · exact Or.inl (((hsame _ f hf hdefined).mpr (Or.inl rfl)).resolve_left hne)
      · exact Or.inr hnone
    · rcases catalog.defined_elsewhere_or file (String.ofList ('\\' :: name)) with
        ⟨f, hf, hdefined⟩ | hnone
      · exact Or.inl (((hsame _ f hf hdefined).mp (Or.inl rfl)).resolve_left hne.symm)
      · exact Or.inr hnone
  · rintro ⟨hname, hescaped⟩ n f hf hdefined
    constructor
    · rintro (rfl | hn)
      · exact Or.inr (hescaped.resolve_right fun hnone => hf (hnone f hdefined))
      · exact Or.inr hn
    · rintro (rfl | hn)
      · exact Or.inr (hname.resolve_right fun hnone => hf (hnone f hdefined))
      · exact Or.inr hn

/-! ## An escaped command behind an assignment -/

theorem escaped_sample :
    Catalog.warnOnly.dependenciesOf "main.sh" "x=1 \\warn a\n" ≠
        Catalog.warnOnly.dependenciesOf "main.sh" "x=1 warn a\n" ∧
      Catalog.warnOnly.dependenciesOf "main.sh" "x=1 \\warn a | warn b\n" =
        Catalog.warnOnly.dependenciesOf "main.sh" "x=1 warn a | warn b\n" := by
  let alone : Place := ⟨[], "x=1 ".toList, "warn a".toList, []⟩
  let twice : Place := ⟨[], "x=1 ".toList, "warn a | warn b".toList, []⟩
  let r : Reader := ⟨[], [], "x=1 ".toList.reverse, "x=1 ".toList.reverse, .nothing⟩
  have hcoding : r.Coding := ⟨rfl, rfl⟩
  have hinert : ∀ c ∈ "warn".toList, isInert c = true := List.all_eq_true.mp (by decide)
  have hapart : ∀ c, r.code.head? = some c → Lexeme.isWordChar c = false := by
    rintro c ⟨⟩
    decide
  have hnames : ∀ p : Place, cursorAt p r = cursorAt alone r → ∀ behind : List Char,
      p.onward = "warn".toList ++ ' ' :: behind → (trimStart behind).head? ≠ some '(' →
        Names p r "warn".toList := by
    intro p hp behind honward hparens
    have hexpects : (cursorAt alone r).Expects := by decide +kernel
    refine ⟨hcoding, hp ▸ hexpects, hapart, ⟨'w', rfl, by decide +kernel⟩,
      List.all_eq_true.mp (by decide), by decide, ?_⟩
    exact exists_view_name hcoding honward hinert (Program.endsRun_cons (by decide) _) hparens
  have hdefined : ¬ ∀ f, Catalog.warnOnly.Defines (String.ofList "warn".toList) f → f = "main.sh" :=
    fun hnone => absurd (hnone "warn.sh" (Catalog.defines_warnOnly.mpr ⟨rfl, rfl⟩)) (by decide)
  constructor
  · have hat : alone.At "x=1 warn a\n" r := by decide +kernel
    have hlines : lines "x=1 \\warn a\n".toList = [] ++ (alone.insert ['\\']).line :: [] := by
      decide +kernel
    obtain ⟨before, after, hcalls, -, hsame⟩ :=
      (hnames alone rfl ['a'] rfl (by decide)).dependenciesOf_escape_iff hat hlines
    have honce : callsOf "x=1 warn a\n" = ["warn"] := by decide +kernel
    have hlength := congrArg List.length (honce.symm.trans hcalls)
    have hnil : before ++ after = [] := by
      rw [← List.length_eq_zero_iff]
      simp only [List.length_append, List.length_cons, List.length_nil] at hlength ⊢
      omega
    rw [ne_eq, hsame, hnil]
    rintro ⟨hmem | hnone, -⟩
    · cases hmem
    · exact hdefined hnone
  · have hat : twice.At "x=1 warn a | warn b\n" r := by decide +kernel
    have hlines : lines "x=1 \\warn a | warn b\n".toList = [] ++ (twice.insert ['\\']).line :: [] := by
      decide +kernel
    obtain ⟨before, after, hcalls, -, hsame⟩ :=
      (hnames twice rfl "a | warn b".toList rfl (by decide)).dependenciesOf_escape_iff hat hlines
    have htwice : callsOf "x=1 warn a | warn b\n" = ["warn", "warn"] := by decide +kernel
    have hcount := congrArg (List.count "warn") (htwice.symm.trans hcalls)
    refine (hsame Catalog.warnOnly "main.sh").mpr ⟨Or.inl ?_, Or.inr fun f hf => ?_⟩
    · rw [← List.count_pos_iff]
      have hself : List.count "warn" ["warn", "warn"] = 2 := by decide
      rw [hself, List.count_append, String.ofList_toList, List.count_cons_self] at hcount
      rw [String.ofList_toList, List.count_append]
      omega
    · exact absurd (Catalog.defines_warnOnly.mp hf).1 (by decide)

theorem warn_escaped :
    "warn" ∈ (Catalog.warnOnly.dependenciesOf "main.sh" "warn x\n").functions ∧
      "warn" ∉ (Catalog.warnOnly.dependenciesOf "main.sh" "\\warn x\n").functions := by
  rw [Catalog.warn_mem_functions_dependenciesOf, Catalog.warn_mem_functions_dependenciesOf]
  decide +kernel

end ShellIndex.Call
