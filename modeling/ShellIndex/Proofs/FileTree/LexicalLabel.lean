import ShellIndex.Proofs.FileTree.Label

set_option autoImplicit false

/-! # Labels of paths that lead nowhere

Nothing but the text of a path and of a directory decides the label where one of them leads nowhere.
The components then say it all: below the directory the label is a part of the path that has the
components left over, elsewhere it is the path. A label can thus be joined to the directory again, and
it tells the paths below the directory apart.
-/

namespace ShellIndex.FileTree

open ShellIndex.Path

/-- Whether a path leads to no location. -/
def LeadsNowhere (t : FileTree) (path : String) : Prop := ∀ place, t.resolve path ≠ .ok place

section
variable {t : FileTree} {path dir : String} {rest : List Component}

theorem label_of_leadsNowhere (h : ¬ components dir <+: components path)
    (hnowhere : t.LeadsNowhere path ∨ t.LeadsNowhere dir) : t.label path dir = path := by
  rw [label, remainder?_eq_none_iff.mpr h]
  simp only
  split
  · next place above hplace habove =>
      rcases hnowhere with hnowhere | hnowhere
      · exact absurd hplace (hnowhere place)
      · exact absurd habove (hnowhere above)
  · rfl

/-! ## Paths below a directory

The empty directory has no components, and every path lies below it. Its label keeps the root or the
dot that the path starts with, which no label below another directory has.
-/

theorem label_empty (t : FileTree) (path : String) :
    t.label path "" = String.ofList (trimEnd path.toList) :=
  label_of_remainder? (remainder?_empty path)

/-- The label of a path below a directory consists of pieces that follow each other in the path. -/
theorem exists_label (hdir : dir ≠ "") (h : components path = components dir ++ rest) :
    ∃ ps, t.label path dir = String.ofList (joinPieces ps) ∧ Trimmed ps ∧
      ps <:+: pieces path.toList ∧ ps.filterMap component? = rest := by
  obtain ⟨ps, hps, hpieces⟩ := exists_remainder? (components_ne_nil hdir) h
  exact ⟨ps, label_of_remainder? hps, hpieces⟩

/-- The label has the components of the path that those of the directory leave over. -/
theorem components_label (h : components path = components dir ++ rest) :
    components (t.label path dir) = rest := by
  by_cases hdir : dir = ""
  · subst hdir
    rw [label_empty, components_trimEnd, h]
    rfl
  · obtain ⟨ps, hlabel, htrimmed, -, hrest⟩ := exists_label hdir h
    rw [hlabel, htrimmed.components_eq, hrest]

/-- The label stands in the path as one piece of text. -/
theorem isInfix_label (h : components path = components dir ++ rest) :
    (t.label path dir).toList <:+: path.toList := by
  by_cases hdir : dir = ""
  · subst hdir
    rw [label_empty, String.toList_ofList]
    exact (isPrefix_trimEnd _).isInfix
  · obtain ⟨ps, hlabel, -, hpieces, -⟩ := exists_label hdir h
    have hinfix := isInfix_joinPieces hpieces
    rwa [joinPieces_pieces, ← String.toList_ofList (l := joinPieces ps), ← hlabel] at hinfix

/-- The label names the path again from the directory. -/
theorem components_join_label (h : components path = components dir ++ rest) :
    components (join dir (t.label path dir)) = components path := by
  by_cases hdir : dir = ""
  · subst hdir
    show components (t.label path "") = components path
    rw [components_label h, h]
    rfl
  · obtain ⟨ps, hlabel, htrimmed, -, hrest⟩ := exists_label hdir h
    rw [components_join hdir, hlabel, htrimmed.innerComponents_eq, hrest, h]

/-- **Labels by the text of paths.** Slashes that are doubled and dots between slashes make no
difference, a dot at the start is a component. A path whose components go on from those of the
directory has a part of itself as its label that has just the components left over and leads back to
the path from the directory. Any other path is labelled by itself where it or the directory leads
nowhere. Thus paths below a directory share a label only if they have the same components. -/
theorem label_is_exact_remainder (t : FileTree) (path dir : String) :
    (∀ s s', components (s ++ "//" ++ s') = components (s ++ "/" ++ s') ∧
      components (s ++ "/./" ++ s') = components (s ++ "/" ++ s') ∧
      components ("./" ++ s) = .current :: innerComponents s) ∧
    (∀ rest, components path = components dir ++ rest →
      components (t.label path dir) = rest ∧
      (t.label path dir).toList <:+: path.toList ∧
      components (join dir (t.label path dir)) = components path) ∧
    (¬ components dir <+: components path → t.LeadsNowhere path ∨ t.LeadsNowhere dir →
      t.label path dir = path) ∧
    ∀ path', components dir <+: components path → components dir <+: components path' →
      t.label path dir = t.label path' dir → components path = components path' := by
  refine ⟨fun s s' => ?_, fun rest h => ?_, ?_, ?_⟩
  · exact ⟨components_double_slash s s', components_dot_piece s s', components_leading_dot s⟩
  · exact ⟨components_label h, isInfix_label h, components_join_label h⟩
  · exact label_of_leadsNowhere
  · rintro path' ⟨rest, hrest⟩ ⟨rest', hrest'⟩ hsame
    rw [← components_join_label hrest.symm (t := t), hsame, components_join_label hrest'.symm]

end

/-! ## Slashes and dots around a script -/

/-- Slashes and dots at the ends of what is left of a path are no part of its label. A directory whose
name starts another name has nothing to do with it. -/
theorem label_is_exact_remainder_spelled_loosely :
    components "./utils//strings.sh/." = components "./utils/" ++ [.name "strings.sh"] ∧
    (FileTree.ofWork []).label "./utils//strings.sh/." "./utils/" = "strings.sh" ∧
    components ((FileTree.ofWork []).label "./utils//strings.sh/." "./utils/") =
      [.name "strings.sh"] ∧
    ¬ components "utils" <+: components "utils2/x" ∧
    (FileTree.ofWork []).LeadsNowhere "utils" ∧
    (FileTree.ofWork []).label "utils2/x" "utils" = "utils2/x" := by
  have hrest : components "./utils//strings.sh/." =
      components "./utils/" ++ [.name "strings.sh"] := by decide +kernel
  have hother : ¬ components "utils" <+: components "utils2/x" := by decide +kernel
  have hmissing : ((FileTree.ofWork []).resolve "utils").toOption = none := by decide +kernel
  have hnowhere : (FileTree.ofWork []).LeadsNowhere "utils" := fun place h => by
    rw [h] at hmissing
    cases hmissing
  have hbelow := (label_is_exact_remainder (FileTree.ofWork []) _ _).2.1 _ hrest
  have hverbatim := (label_is_exact_remainder (FileTree.ofWork []) _ _).2.2.1 hother (.inr hnowhere)
  exact ⟨hrest, by decide +kernel, hbelow.1, hother, hnowhere, hverbatim⟩

end ShellIndex.FileTree
