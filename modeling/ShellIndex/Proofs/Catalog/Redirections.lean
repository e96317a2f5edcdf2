import ShellIndex.Proofs.Call.Redirection
import ShellIndex.Proofs.Catalog.Dependencies

set_option autoImplicit false

/-! # Dependencies of a command among redirections

The redirections of a command should change nothing about its dependencies. They do not if they
have no number and are written with a sign only, and behind the name of the command a number does
no harm either. The target of `>|` is listed as a command wherever it stands. A number in front of
the name is listed too, and the name is then lost. Behind `&>` a command is expected again.
-/

namespace ShellIndex.Program

def Item.isWord : Item → Bool
  | .word _ => true
  | .redirection _ _ => false

/-- A command with redirections before and behind its name. -/
structure RedirectedCommand where
  /-- The redirections in front, each with whether it stands apart from the one before. -/
  before : List (Bool × Redirection)
  name : PlainWord
  /-- The arguments and the redirections among them. -/
  after : List Item

namespace RedirectedCommand
variable (c : RedirectedCommand)

/-- The redirections in front of the name. -/
def front : List Item := c.before.map fun r => .redirection r.1 r.2

def items : List Item := c.front ++ .word c.name :: c.after

def text : String := String.ofList (itemText c.items)

/-- The command without its redirections. -/
def bareText : String := String.ofList (itemText (c.items.filter Item.isWord))

/-- Whether the name is read as a command. -/
def keepsName : Bool := expectsBehind c.front true

/-- What else is read as a command. -/
def misread : List String := listedIn c.front true ++ listedIn c.after false

/-! ## Calls -/

theorem mem_callsOf_text (n : String) :
    n ∈ callsOf c.text ↔ n ∈ c.misread ∨ c.keepsName = true ∧ n = c.name.text := by
  have hlisted : n ∈ (Item.word c.name).listed c.keepsName ↔
      c.keepsName = true ∧ n = c.name.text := by
    rw [Item.listed]
    cases c.keepsName <;> simp
  have hcalls : callsOf c.text = listedIn c.front true ++
      ((Item.word c.name).listed c.keepsName ++ listedIn c.after false) := by
    rw [text, callsOf_itemText, items, listedIn_append, listedIn]
    rfl
  rw [hcalls, List.mem_append, List.mem_append, hlisted, misread, List.mem_append]
  constructor
  · rintro (hfront | hname | hafter)
    · exact Or.inl (Or.inl hfront)
    · exact Or.inr hname
    · exact Or.inl (Or.inr hafter)
  · rintro ((hfront | hafter) | hname)
    · exact Or.inl hfront
    · exact Or.inr (Or.inr hafter)
    · exact Or.inr (Or.inl hname)

/-- Behind the name of a command its other words are arguments. -/
theorem listedIn_words {items : List Item} (h : ∀ item ∈ items, item.isWord = true) :
    listedIn items false = [] := by
  induction items with
  | nil => rfl
  | cons item items ih =>
      cases item with
      | word w => exact ih fun item hitem => h item (List.mem_cons_of_mem _ hitem)
      | redirection apart r => cases h (.redirection apart r) List.mem_cons_self

theorem callsOf_bareText : callsOf c.bareText = [c.name.text] := by
  have hfront : c.front.filter Item.isWord = [] := by
    refine List.filter_eq_nil_iff.mpr fun item hitem => ?_
    obtain ⟨r, -, rfl⟩ := List.mem_map.mp hitem
    simp [Item.isWord]
  have hwords : listedIn (c.after.filter Item.isWord) false = [] :=
    listedIn_words fun item hitem => (List.mem_filter.mp hitem).2
  have hitems : c.items.filter Item.isWord = .word c.name :: c.after.filter Item.isWord := by
    rw [items, List.filter_append, hfront, List.nil_append, List.filter_cons_of_pos rfl]
  calc callsOf c.bareText
      = listedIn (.word c.name :: c.after.filter Item.isWord) true := by
        rw [bareText, callsOf_itemText, hitems]
    _ = [c.name.text] := by
        rw [listedIn, Item.expects, hwords]
        rfl

/-! ## Dependencies -/

/-- **Redirections are transparent exactly if nothing of them is read as a command and the name of
the command still is**, as far as other files define what is at stake. -/
theorem dependenciesOf_text_iff (catalog : Catalog) (file : String) :
    catalog.dependenciesOf file c.text = catalog.dependenciesOf file c.bareText ↔
      (∀ n ∈ c.misread, n = c.name.text ∨ ∀ f, catalog.Defines n f → f = file) ∧
        (c.keepsName = true ∨ c.name.text ∈ c.misread ∨
          ∀ f, catalog.Defines c.name.text f → f = file) := by
  simp only [catalog.dependenciesOf_eq_iff, c.mem_callsOf_text, c.callsOf_bareText,
    List.mem_singleton]
  constructor
  · intro hsame
    -- Of a name that another file defines, equal dependencies say that both call it or none does.
    constructor
    · intro n hn
      rcases catalog.defined_elsewhere_or file n with ⟨f, hne, hf⟩ | hdefined
      · exact Or.inl ((hsame n f hne hf).mp (Or.inl hn))
      · exact Or.inr hdefined
    · rcases catalog.defined_elsewhere_or file c.name.text with ⟨f, hne, hf⟩ | hdefined
      · rcases (hsame c.name.text f hne hf).mpr rfl with hmisread | ⟨hkept, -⟩
        · exact Or.inr (Or.inl hmisread)
        · exact Or.inl hkept
      · exact Or.inr (Or.inr hdefined)
  · rintro ⟨hmisread, hname⟩ n f hne hf
    constructor
    · rintro (hn | ⟨-, rfl⟩)
      · rcases hmisread n hn with rfl | hdefined
        · rfl
        · exact absurd (hdefined f hf) hne
      · rfl
    · rintro rfl
      rcases hname with hkept | hn | hdefined
      · exact Or.inr ⟨hkept, rfl⟩
      · exact Or.inl hn
      · exact absurd (hdefined f hf) hne

/-! ## Two commands

The redirections of `>log warn 2>&1 x` change nothing. In `echo x >|warn` the target is listed.
-/

theorem redirected_samples :
    ∃ harmless harmful : RedirectedCommand,
      harmless.text = ">log warn 2>&1 x" ∧ harmless.bareText = "warn x" ∧
      harmful.text = "echo x >|warn" ∧ harmful.bareText = "echo x" ∧
      (∀ (catalog : Catalog) (file : String), catalog.dependenciesOf file harmless.text =
        catalog.dependenciesOf file harmless.bareText) ∧
      Catalog.warnOnly.dependenciesOf "main.sh" harmful.text ≠
        Catalog.warnOnly.dependenciesOf "main.sh" harmful.bareText := by
  let echo : PlainWord := ⟨"echo", by decide, by decide +kernel, by decide⟩
  let warn : PlainWord := ⟨"warn", by decide, by decide +kernel, by decide⟩
  let log : PlainWord := ⟨"log", by decide, by decide +kernel, by decide⟩
  let x : PlainWord := ⟨"x", by decide, by decide +kernel, by decide⟩
  let one : Number := ⟨"1", by decide, by decide⟩
  let two : Number := ⟨"2", by decide, by decide⟩
  let harmless : RedirectedCommand := ⟨[(false, .file none .write false log)], warn,
    [.redirection true (.duplicate (some two) false one), .word x]⟩
  let harmful : RedirectedCommand :=
    ⟨[], echo, [.word x, .redirection true (.overwrite false warn)]⟩
  refine ⟨harmless, harmful, by decide +kernel, by decide +kernel, by decide +kernel,
    by decide +kernel, fun catalog file => ?_, fun hsame => ?_⟩
  · rw [dependenciesOf_text_iff]
    exact ⟨by simp [show harmless.misread = [] from rfl], Or.inl rfl⟩
  · have hmisread := ((dependenciesOf_text_iff harmful _ _).mp hsame).1 "warn" (by decide)
    rcases hmisread with hname | hdefined
    · exact absurd hname (by decide)
    · exact absurd (hdefined "warn.sh" (Catalog.defines_warnOnly.mpr ⟨rfl, rfl⟩)) (by decide)

theorem warn_overwritten :
    "warn" ∉ (Catalog.warnOnly.dependenciesOf "main.sh" "echo x\n").functions ∧
      "warn" ∈ (Catalog.warnOnly.dependenciesOf "main.sh" "echo x >|warn\n").functions := by
  rw [Catalog.warn_mem_functions_dependenciesOf, Catalog.warn_mem_functions_dependenciesOf]
  decide +kernel

end RedirectedCommand

end ShellIndex.Program
