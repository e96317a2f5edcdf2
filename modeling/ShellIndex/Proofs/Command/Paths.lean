import ShellIndex.Proofs.Command.Scripts
import ShellIndex.Proofs.Glob.Walk

set_option autoImplicit false

/-! # The paths of a run

The paths that the inputs stand for are listed in strictly ascending order, so that no two of them
have the same components. Paths with different components can lead to one file all the same, but not
if the inputs are spelled alike: then all the paths are plain and of one kind.
-/

namespace ShellIndex

open ShellIndex.Path

/-! ## The order of paths -/

namespace Path

instance : Std.TransOrd Component :=
  inferInstanceAs (Std.TransCmp (compareLex (compareOn Component.rank) (compareOn Component.text)))

theorem Component.eq_of_rank_of_text {c c' : Component} (hrank : c.rank = c'.rank)
    (htext : c.text = c'.text) : c = c' := by
  cases c <;> cases c' <;> first | cases hrank; done | rfl | exact congrArg Component.name htext

instance : Std.LawfulEqOrd Component where
  eq_of_compare {c c'} h := by
    obtain ⟨hrank, htext⟩ := compareLex_eq_eq.mp h
    exact Component.eq_of_rank_of_text (Std.LawfulEqOrd.eq_of_compare hrank)
      (Std.LawfulEqOrd.eq_of_compare htext)

instance : Std.TransCmp order := inferInstanceAs (Std.TransCmp (compareOn components))

/-- Paths are equal in the order if they have the same components. -/
theorem order_eq_eq_iff {p q : String} : order p q = .eq ↔ components p = components q := by
  rw [order]
  exact Std.LawfulEqCmp.compare_eq_iff_eq

end Path

namespace Command

/-- In an ascending list the paths behind those that equal the first are greater. -/
theorem lt_of_mem_dropWhile {path other : String} {paths : List String}
    (h : (path :: paths).Pairwise fun p q => (order p q).isLE)
    (hother : other ∈ paths.dropWhile fun other => components other == components path) :
    order path other = .lt := by
  induction paths with
  | nil => cases hother
  | cons next paths ih =>
      obtain ⟨hfirst, hrest⟩ := List.pairwise_cons.mp h
      by_cases hsame : components next = components path
      · rw [List.dropWhile_cons_of_pos (by simpa using hsame)] at hother
        exact ih (h.sublist ((List.sublist_cons_self next paths).cons_cons path)) hother
      · rw [List.dropWhile_cons_of_neg (by simpa using hsame)] at hother
        have hnext : order path next = .lt := by
          rcases Ordering.isLE_iff_eq_lt_or_eq_eq.mp (hfirst next List.mem_cons_self) with hlt | heq
          · exact hlt
          · exact absurd (order_eq_eq_iff.mp heq).symm hsame
        rcases List.mem_cons.mp hother with rfl | hother
        · exact hnext
        · exact Std.TransCmp.lt_of_lt_of_isLE hnext ((List.pairwise_cons.mp hrest).1 other hother)

/-- Without those that equal the path before, ascending paths ascend strictly. -/
theorem pairwise_dropRepeated {paths : List String}
    (h : paths.Pairwise fun p q => (order p q).isLE) :
    (dropRepeated paths).Pairwise fun p q => order p q = .lt := by
  induction paths using dropRepeated.induct with
  | case1 =>
      rw [dropRepeated]
      exact List.Pairwise.nil
  | case2 path paths ih =>
      rw [dropRepeated]
      refine List.pairwise_cons.mpr ⟨fun other hother => ?_, ih ?_⟩
      · exact lt_of_mem_dropWhile h (mem_of_mem_dropRepeated hother)
      · exact (List.pairwise_cons.mp h).2.sublist (List.dropWhile_sublist _)

theorem isLE_order_total (p q : String) : ((order p q).isLE || (order q p).isLE) = true := by
  have hswap : order q p = (order p q).swap := Std.OrientedCmp.eq_swap
  rw [hswap]
  cases order p q <;> rfl

theorem pairwise_mergeSort_order (paths : List String) :
    (paths.mergeSort fun p q => (order p q).isLE).Pairwise fun p q => (order p q).isLE :=
  List.pairwise_mergeSort (fun _ _ _ => Std.TransCmp.isLE_trans) isLE_order_total paths

/-- **The paths that are read ascend strictly.** -/
theorem pairwise_lt_canonical (paths : List String) :
    (canonical paths).Pairwise fun p q => order p q = .lt :=
  pairwise_dropRepeated (pairwise_mergeSort_order paths)

/-- **No two of the paths that are read have the same components.** -/
theorem pairwise_canonical (paths : List String) :
    (canonical paths).Pairwise fun p q => components p ≠ components q := by
  refine (pairwise_lt_canonical paths).imp fun {p q} hlt hsame => ?_
  rw [order_eq_eq_iff.mpr hsame] at hlt
  cases hlt

/-- Of paths in ascending order only those that equal the path before are left out. -/
theorem canonical_of_pairwise {paths : List String}
    (h : paths.Pairwise fun p q => (order p q).isLE) : canonical paths = dropRepeated paths := by
  rw [canonical, List.mergeSort_of_pairwise h]

/-! ### The spelling that is kept -/

/-- The first of some paths that is spelled with the given components. -/
def spelling? (cs : List Component) (paths : List String) : Option String :=
  paths.find? fun path => components path == cs

theorem spelling?_cons_of_eq {path : String} {cs : List Component} (h : components path = cs)
    (paths : List String) : spelling? cs (path :: paths) = some path :=
  List.find?_cons_of_pos (beq_iff_eq.mpr h)

theorem spelling?_cons_of_ne {path : String} {cs : List Component} (h : components path ≠ cs)
    (paths : List String) : spelling? cs (path :: paths) = spelling? cs paths :=
  List.find?_cons_of_neg fun hsame => h (beq_iff_eq.mp hsame)

theorem spelling?_isSome_iff {cs : List Component} {paths : List String} :
    (spelling? cs paths).isSome = true ↔ cs ∈ paths.map components := by
  simp [spelling?]

/-- The sort leaves the spellings of a path in their order. -/
theorem spelling?_mergeSort (cs : List Component) (paths : List String) :
    spelling? cs (paths.mergeSort fun p q => (order p q).isLE) = spelling? cs paths := by
  have hsame : ∀ path ∈ paths.filter (components · == cs), components path = cs := fun path hpath =>
    eq_of_beq (List.mem_filter.mp hpath).2
  have hequal : (paths.filter (components · == cs)).Pairwise fun p q => (order p q).isLE := by
    refine List.pairwise_of_forall_mem_list fun p hp q hq => ?_
    rw [order_eq_eq_iff.mpr ((hsame p hp).trans (hsame q hq).symm)]
    rfl
  have hsub := List.sublist_mergeSort (fun _ _ _ => Std.TransCmp.isLE_trans) isLE_order_total hequal
    List.filter_sublist
  have hfilter : paths.filter (components · == cs) =
      (paths.mergeSort fun p q => (order p q).isLE).filter (components · == cs) := by
    refine List.Sublist.eq_of_length ?_ ?_
    · have hkept := hsub.filter (components · == cs)
      simpa only [List.filter_filter, Bool.and_self] using hkept
    · exact ((List.mergeSort_perm _ _).filter _).length_eq.symm
  rw [spelling?, spelling?, ← List.head?_filter, ← List.head?_filter, hfilter]

theorem spelling?_dropWhile {cs cs' : List Component} (hne : cs' ≠ cs) (paths : List String) :
    spelling? cs (paths.dropWhile fun other => components other == cs') = spelling? cs paths := by
  induction paths with
  | nil => rfl
  | cons path paths ih =>
      by_cases hsame : components path = cs'
      · rw [List.dropWhile_cons_of_pos (by simpa using hsame), ih,
          spelling?_cons_of_ne (hsame.trans_ne hne)]
      · rw [List.dropWhile_cons_of_neg (by simpa using hsame)]

/-- Of the spellings of a path the first is kept. -/
theorem spelling?_dropRepeated (cs : List Component) (paths : List String) :
    spelling? cs (dropRepeated paths) = spelling? cs paths := by
  induction paths using dropRepeated.induct with
  | case1 => rw [dropRepeated]
  | case2 path paths ih =>
      rw [dropRepeated]
      by_cases hsame : components path = cs
      · rw [spelling?_cons_of_eq hsame, spelling?_cons_of_eq hsame]
      · rw [spelling?_cons_of_ne hsame, spelling?_cons_of_ne hsame, ih,
          spelling?_dropWhile hsame]

theorem spelling?_canonical (cs : List Component) (paths : List String) :
    spelling? cs (canonical paths) = spelling? cs paths := by
  rw [canonical, spelling?_dropRepeated, spelling?_mergeSort]

/-- Nothing but spellings is left out. -/
theorem mem_map_components_canonical {cs : List Component} {paths : List String} :
    cs ∈ (canonical paths).map components ↔ cs ∈ paths.map components := by
  rw [← spelling?_isSome_iff, spelling?_canonical, spelling?_isSome_iff]

/-- A path that is listed once is its own spelling. -/
theorem spelling?_of_mem {path : String} {paths : List String}
    (hpaths : paths.Pairwise fun p q => components p ≠ components q) (h : path ∈ paths) :
    spelling? (components path) paths = some path := by
  induction paths with
  | nil => cases h
  | cons first paths ih =>
      obtain ⟨hfirst, hrest⟩ := List.pairwise_cons.mp hpaths
      rcases List.mem_cons.mp h with rfl | h
      · exact spelling?_cons_of_eq rfl paths
      · rw [spelling?_cons_of_ne (hfirst path h)]
        exact ih hrest h

/-- **Of several spellings the first is listed.** -/
theorem spelling?_of_mem_canonical {path : String} {paths : List String}
    (h : path ∈ canonical paths) : spelling? (components path) paths = some path := by
  rw [← spelling?_canonical]
  exact spelling?_of_mem (pairwise_canonical paths) h

/-- **What is listed depends on the set of the paths alone,** up to their spelling. -/
theorem map_components_canonical {paths paths' : List String}
    (h : ∀ cs, cs ∈ paths.map components ↔ cs ∈ paths'.map components) :
    (canonical paths).map components = (canonical paths').map components := by
  have hlt : ∀ paths, ((canonical paths).map components).Pairwise fun cs cs' => compare cs cs' = .lt :=
    fun paths => List.pairwise_map.mpr (pairwise_lt_canonical paths)
  have hnodup : ∀ paths, ((canonical paths).map components).Nodup := fun paths =>
    List.pairwise_map.mpr (pairwise_canonical paths)
  have hperm : ((canonical paths).map components).Perm ((canonical paths').map components) := by
    refine (List.perm_ext_iff_of_nodup (hnodup paths) (hnodup paths')).mpr fun cs => ?_
    rw [mem_map_components_canonical, h, mem_map_components_canonical]
  refine hperm.eq_of_pairwise (fun cs cs' _ _ hcs hcs' => ?_) (hlt paths) (hlt paths')
  exact absurd (Std.TransCmp.lt_trans hcs hcs') (by simp)

theorem ensures_pairwise_expand (t : FileTree) (patterns : List String) :
    (expand t patterns).Ensures (fun paths => paths.Pairwise fun p q => components p ≠ components q)
      (fun _ => True) :=
  (Run.ensures_trivial _).bind fun _ _ => Run.ensures_pure (pairwise_canonical _)

/-! ## Inputs that are spelled alike -/

/-- Whether all inputs start at the root or none does, and no part of them starts with a dot. -/
def SpelledAlike (patterns : List String) : Prop :=
  ∃ absolute : Bool, ∀ pattern ∈ patterns,
    NoDots pattern.toList ∧ (pattern.toList.head? == some '/') = absolute

section
variable {t : FileTree}

theorem ensures_isPlain_pathsOf (ht : t.AllNames IsEntryName) {pattern : String}
    (hdots : NoDots pattern.toList) : (pathsOf t pattern).Ensures
      (fun paths => ∀ path ∈ paths, IsPlain (pattern.toList.head? == some '/') path)
      (fun _ => True) := by
  have hplain := isPlain_of_noDots hdots
  unfold pathsOf
  split
  · refine Run.ensures_pure fun path hpath => ?_
    obtain rfl := List.mem_singleton.mp hpath
    exact hplain
  · split
    · refine Run.ensures_pure fun path hpath => ?_
      obtain ⟨above, name, habove, hentry, -, rfl, -⟩ := mem_scriptsIn.mp hpath
      have hname : IsEntryName name := ht _ hentry name (by simp)
      exact hplain.join (FileTree.resolve_eq_ok_iff.mp habove).1 (Glob.isPlain_of_isEntryName hname)
    · split
      · exact Run.ensures_throw trivial
      · next parsed hparsed =>
          have hfound : ∀ path ∈ (parsed.paths t).filter t.isFile,
              IsPlain (pattern.toList.head? == some '/') path := fun path hpath =>
            Glob.isPlain_of_mem_paths ht hdots hparsed (List.mem_filter.mp hpath).1
              (List.mem_filter.mp hpath).2
          dsimp only
          split
          · exact (Run.ensures_warn _).bind fun _ _ => Run.ensures_pure hfound
          · exact Run.ensures_pure hfound

/-- Inputs that are spelled alike stand for plain paths of one kind. -/
theorem exists_ensures_isPlain_expand (ht : t.AllNames IsEntryName) {patterns : List String}
    (h : SpelledAlike patterns) : ∃ absolute : Bool,
      (expand t patterns).Ensures (fun paths => ∀ path ∈ paths, IsPlain absolute path)
        (fun _ => True) := by
  obtain ⟨absolute, h⟩ := h
  refine ⟨absolute, ensures_forall_expand fun pattern hpattern => ?_⟩
  obtain ⟨hdots, hstart⟩ := h pattern hpattern
  rw [← hstart]
  exact ensures_isPlain_pathsOf ht hdots

/-- **No file is read twice if the inputs are spelled alike.** -/
theorem components_eq_of_isInput (ht : t.AllNames IsEntryName) {patterns : List String}
    (halike : SpelledAlike patterns) {path path' : String} (h : IsInput t patterns path)
    (h' : IsInput t patterns path') {place : Location} (hplace : t.resolve path = .ok place)
    (hplace' : t.resolve path' = .ok place) : components path = components path' := by
  obtain ⟨absolute, hplain⟩ := exists_ensures_isPlain_expand ht halike
  obtain ⟨paths, hpaths, hpath⟩ := h
  obtain ⟨paths', hpaths', hpath'⟩ := h'
  exact FileTree.components_eq_of_resolve (hplain.of_ok hpaths path hpath)
    (hplain.of_ok hpaths' path' hpath') hplace hplace'

end

end Command

end ShellIndex
