import ShellIndex.Proofs.FileTree.Resolve

set_option autoImplicit false

/-! # Paths by names alone

A plain path names one entry after another, from the root or from the working directory. It steps
neither back nor in place, so that two plain paths of one kind that lead to the same location have the
same components.
-/

namespace ShellIndex

open ShellIndex.Path

namespace Path

/-- Whether a path has names alone, behind the root if it is absolute. -/
def IsPlain (absolute : Bool) (path : String) : Prop :=
  ∃ names : Location, components path =
    (if absolute then [.root] else []) ++ names.map Component.name

/-- Whether no piece of a text starts with a dot. -/
def NoDots (text : List Char) : Prop := ∀ piece ∈ pieces text, piece.head? ≠ some '.'

theorem startComponent?_of_noDots {text : List Char} (h : NoDots text) :
    (startComponent? text).toList = if text.head? == some '/' then [.root] else [] := by
  unfold startComponent?
  by_cases hslash : text.head? = some '/'
  · simp [hslash]
  · have hdot : (pieces text).head? ≠ some ['.'] := fun hdot =>
      h _ (List.mem_of_mem_head? hdot) rfl
    simp [hslash, hdot]

/-- A path whose pieces do not start with dots is plain. -/
theorem isPlain_of_noDots {path : String} (h : NoDots path.toList) :
    IsPlain (path.toList.head? == some '/') path := by
  have hparent : .parent ∉ innerComponents path := by
    intro hmem
    obtain ⟨piece, hpiece, hparent⟩ := List.mem_filterMap.mp hmem
    refine h piece hpiece ?_
    unfold component? at hparent
    split at hparent
    · cases hparent
    · split at hparent
      · next hdots =>
          rw [hdots]
          rfl
      · cases hparent
  obtain ⟨names, hnames⟩ := FileTree.exists_names hparent fun c hc =>
    isStart_of_mem_innerComponents hc
  exact ⟨names, by rw [components_eq, startComponent?_of_noDots h, hnames]⟩

namespace IsPlain
variable {absolute : Bool} {path dir name : String}

theorem innerComponents_eq (h : IsPlain false name) : innerComponents name = components name := by
  obtain ⟨names, hnames⟩ := h
  have hstart : startComponent? name.toList = none := by
    rw [startComponent?_eq, hnames]
    cases names <;> rfl
  rw [components_eq, hstart]
  rfl

/-- A plain path in a plain directory is plain. -/
theorem join (h : IsPlain absolute dir) (hdir : dir ≠ "") (hname : IsPlain false name) :
    IsPlain absolute (join dir name) := by
  obtain ⟨names, hnames⟩ := h
  obtain ⟨names', hnames'⟩ := hname
  refine ⟨names ++ names', ?_⟩
  rw [components_join hdir, hnames, innerComponents_eq ⟨names', hnames'⟩, hnames', List.map_append,
    List.append_assoc]
  rfl

end IsPlain

end Path

namespace FileTree

theorem origin_of_isPlain {absolute : Bool} {path : String} (t : FileTree)
    (h : IsPlain absolute path) : t.origin path = if absolute then [] else t.work := by
  obtain ⟨names, hnames⟩ := h
  have hroot : path.toList.head? = some '/' ↔ absolute = true := by
    rw [head?_eq_slash_iff, hnames]
    cases absolute <;> cases names <;> simp
  rw [origin]
  simp only [hroot]

/-- A plain path leads on from where it starts. -/
theorem eq_append_of_resolve {t : FileTree} {absolute : Bool} {path : String} {names place : Location}
    (hnames : components path = (if absolute then [.root] else []) ++ names.map Component.name)
    (h : t.resolve path = .ok place) :
    place = (if absolute then [] else t.work) ++ names := by
  rw [eq_of_resolve h, origin_of_isPlain t ⟨names, hnames⟩, hnames, locate_append, locate_names]
  cases absolute <;> rfl

/-- **Two plain paths of one kind that lead to the same location have the same components.** -/
theorem components_eq_of_resolve {t : FileTree} {absolute : Bool} {path path' : String}
    {place : Location} (hplain : IsPlain absolute path) (hplain' : IsPlain absolute path')
    (h : t.resolve path = .ok place) (h' : t.resolve path' = .ok place) :
    components path = components path' := by
  obtain ⟨names, hnames⟩ := hplain
  obtain ⟨names', hnames'⟩ := hplain'
  have hsame := eq_append_of_resolve hnames h
  rw [eq_append_of_resolve hnames' h'] at hsame
  rw [hnames, hnames', List.append_cancel_left hsame]

end FileTree

end ShellIndex
