import Std.Data.ExtTreeMap
import ShellIndex.Definition.Basic
import ShellIndex.NameSet

set_option autoImplicit false

/-! # Catalogs of utility functions

A catalog knows for each utility function the files that define it. It behaves as a set of
pairs of a name and a file, both of which are not empty: adding a pair twice, or adding
pairs in another order, gives the same catalog. The main facts say which pairs a catalog
holds after an insertion.
-/

namespace ShellIndex

/-- The utility functions, each with the files that define it. -/
structure Catalog where
  /-- The defining files of each name. -/
  entries : Std.ExtTreeMap String NameSet
  /-- No function has the empty name. -/
  named : "" ∉ entries
  /-- Every function is defined in some file, and no file has the empty label. -/
  located : ∀ {name : String} {files : NameSet},
    entries[name]? = some files → files ≠ ∅ ∧ "" ∉ files

/-- Why an entry is refused. -/
inductive CatalogError where
  /-- The function of the given file has no name. -/
  | emptyName (file : String)
  /-- The function of the given name has no file. -/
  | missingFile (name : String)
deriving DecidableEq, Repr

/-- The wording of the error. -/
def CatalogError.message : CatalogError → String
  | emptyName file => "catalog entry from " ++ file ++ " has an empty function name"
  | missingFile name => "catalog function `" ++ name ++ "` has no defining file"

namespace Catalog

/-- The catalog without entries. -/
def empty : Catalog := ⟨∅, by simp, by simp⟩

/-- The catalog with one entry more. -/
def add (catalog : Catalog) (name file : String) (hn : name ≠ "") (hf : file ≠ "") : Catalog where
  entries :=
    catalog.entries.insert name ((catalog.entries[name]?.getD ∅).insert file)
  named := by
    simp [Std.ExtTreeMap.mem_insert, hn, catalog.named]
  located := by
    intro other files h
    rw [Std.ExtTreeMap.getElem?_insert] at h
    split at h
    · simp only [Option.some.injEq] at h
      subst h
      constructor
      · intro e
        have : file ∈ (∅ : NameSet) := by
          rw [← e]
          simp
        simp at this
      · simp only [Std.ExtTreeSet.mem_insert, Std.LawfulEqCmp.compare_eq_iff_eq, not_or]
        refine ⟨hf, ?_⟩
        cases hc : catalog.entries[name]? with
        | none => simp
        | some known => exact (catalog.located hc).2
    · exact catalog.located h

/-- Adds an entry unless its name or its file is empty. -/
def insert (catalog : Catalog) (name file : String) : Except CatalogError Catalog :=
  if hn : name = "" then .error (.emptyName file)
  else if hf : file = "" then .error (.missingFile name)
  else .ok (catalog.add name file hn hf)

/-- Adds the entries of some definitions, up to the first that is refused. -/
def insertAll (catalog : Catalog) : List Definition → Except CatalogError Catalog
  | [] => .ok catalog
  | d :: definitions =>
      match catalog.insert d.name d.file with
      | .error e => .error e
      | .ok catalog => catalog.insertAll definitions

/-- The catalog of some definitions. -/
def ofDefinitions (definitions : List Definition) : Except CatalogError Catalog :=
  empty.insertAll definitions

/-- The number of names. -/
def size (catalog : Catalog) : Nat := catalog.entries.size

/-- Whether there is no entry. -/
def isEmpty (catalog : Catalog) : Bool := catalog.entries.isEmpty

/-- The files that define a name, if it is known. -/
def definingFiles? (catalog : Catalog) (name : String) : Option NameSet := catalog.entries[name]?

/-- The files that define some function. -/
def files (catalog : Catalog) : NameSet :=
  NameSet.ofList (catalog.entries.toList.flatMap fun entry => entry.2.toList)

/-! ## The pairs of a catalog -/

/-- Whether the function `name` is defined in `file`. -/
def Defines (catalog : Catalog) (name file : String) : Prop :=
  ∃ files, catalog.definingFiles? name = some files ∧ file ∈ files

theorem not_defines_empty (name file : String) : ¬ empty.Defines name file := by
  simp [Defines, definingFiles?, empty]

/-- An insertion adds one pair and keeps the others. -/
theorem defines_add (catalog : Catalog) (name file : String) (hn : name ≠ "") (hf : file ≠ "")
    (name' file' : String) :
    (catalog.add name file hn hf).Defines name' file' ↔
      (name' = name ∧ file' = file) ∨ catalog.Defines name' file' := by
  simp only [Defines, definingFiles?, add, Std.ExtTreeMap.getElem?_insert]
  by_cases h : name = name'
  · subst h
    cases hc : catalog.entries[name]? with
    | none => simp [@eq_comm _ file file']
    | some known => simp [@eq_comm _ file file']
  · simp [h, Ne.symm h]

end Catalog

end ShellIndex
