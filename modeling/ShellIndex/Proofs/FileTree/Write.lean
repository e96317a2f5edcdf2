import ShellIndex.Proofs.FileTree.Resolve

set_option autoImplicit false

/-! # Writing a file

A path that may be written to leads to the file once it has been written, whether or not there was
one before (`resolve_put`). No directory is lost, so every path that led somewhere leads there still,
and what stands elsewhere stays as it is.
-/

namespace ShellIndex.FileTree

open ShellIndex.Path

variable {t : FileTree} {place other : Location} {path : String}

/-- The tree with a file at a location. -/
def put (t : FileTree) (place : Location) (content : ByteArray) : FileTree :=
  { t with nodes := t.nodes.insert place (.file content) }

theorem writeText_of_target (h : t.target path = .ok place) (text : String) :
    t.writeText path text = .ok (t.put place text.toUTF8) := by
  rw [writeText, h]
  rfl

theorem writeText_of_not_target {fault : PathFault} (h : t.target path = .error fault)
    (text : String) : t.writeText path text = .error fault := by
  rw [writeText, h]

theorem node?_put_self (hplace : place ≠ []) (content : ByteArray) :
    (t.put place content).node? place = some (.file content) := by
  rw [node?, if_neg hplace]
  exact Std.ExtTreeMap.getElem?_insert_self

theorem node?_put_of_ne (hother : other ≠ place) (content : ByteArray) :
    (t.put place content).node? other = t.node? other := by
  rw [node?, node?]
  split
  · rfl
  · show (t.nodes.insert place (.file content))[other]? = _
    rw [Std.ExtTreeMap.getElem?_insert, if_neg]
    exact fun h => hother (Std.LawfulEqCmp.eq_of_compare h).symm

/-! ## What may be written to -/

theorem entryIn_eq_ok {dir : Location} {last : List Char} {slash : Bool}
    (h : t.entryIn dir last slash = .ok place) :
    slash = false ∧ t.isDirectoryAt dir = true ∧ t.isDirectoryAt place = false ∧
      ∃ name, component? last = some (.name name) ∧ name.utf8ByteSize ≤ nameLimit ∧
        place = dir ++ [name] := by
  unfold entryIn at h
  split at h
  · cases h
  · next hdir =>
      split at h
      · next name hname =>
          split at h
          · cases h
          · next hslash =>
              split at h
              · cases h
              · next hlimit =>
                  split at h
                  · cases h
                  · next hfile =>
                      obtain rfl := Except.ok.inj h
                      exact ⟨by simpa using hslash, by simpa using hdir, by simpa using hfile, name,
                        hname, Nat.not_lt.mp hlimit, rfl⟩
      · cases h

/-- A path that may be written to names an entry of a directory with its last piece. -/
theorem exists_of_target (h : t.target path = .ok place) :
    ∃ above last dir, path ≠ "" ∧ path.utf8ByteSize ≤ pathLimit ∧
      pieces path.toList = above ++ [last] ∧ t.followAll (t.origin path) above = .ok dir ∧
      t.entryIn dir last false = .ok place := by
  unfold target at h
  split at h
  · cases h
  · next hempty =>
      split at h
      · cases h
      · next hlimit =>
          dsimp only at h
          split at h
          · cases h
          · next last before hlast =>
              split at h
              · cases h
              · next dir hdir =>
                  obtain ⟨hslash, -⟩ := entryIn_eq_ok h
                  rw [hslash] at h
                  -- The path does not end in a slash, so its last piece names the entry.
                  have hpieces : (pieces path.toList).reverse = last :: before := by
                    rw [← hlast, eq_comm]
                    rw [← List.head?_reverse] at hslash
                    cases hrev : (pieces path.toList).reverse with
                    | nil => rfl
                    | cons p ps =>
                        rw [hrev] at hslash
                        exact List.dropWhile_cons_of_neg (by simpa using hslash)
                  refine ⟨before.reverse, last, dir, by simpa using hempty, Nat.not_lt.mp hlimit,
                    ?_, hdir, h⟩
                  rw [← List.reverse_reverse (pieces path.toList), hpieces, List.reverse_cons]

theorem ne_nil_of_target (h : t.target path = .ok place) : place ≠ [] := by
  obtain ⟨_, _, _, -, -, -, -, hentry⟩ := exists_of_target h
  obtain ⟨-, -, -, _, -, -, rfl⟩ := entryIn_eq_ok hentry
  simp

/-! ## The tree behind -/

theorem isDirectoryAt_put (hplace : t.isDirectoryAt place = false) (content : ByteArray)
    (h : t.isDirectoryAt other = true) : (t.put place content).isDirectoryAt other = true := by
  have hother : other ≠ place := by
    rintro rfl
    rw [h] at hplace
    cases hplace
  rw [isDirectoryAt, node?_put_of_ne hother]
  exact h

theorem isSome_node?_put (hplace : place ≠ []) (content : ByteArray)
    (h : (t.node? other).isSome = true) : ((t.put place content).node? other).isSome = true := by
  by_cases hother : other = place
  · rw [hother, node?_put_self hplace]
    rfl
  · rw [node?_put_of_ne hother]
    exact h

/-- A path that could be followed can still be followed. -/
theorem follow_put {here there : Location} {piece : List Char} (hplace : place ≠ [])
    (hfile : t.isDirectoryAt place = false) (content : ByteArray)
    (h : t.follow here piece = .ok there) : (t.put place content).follow here piece = .ok there := by
  have hdir := isDirectoryAt_of_follow h
  rw [follow, if_pos hdir] at h
  rw [follow, if_pos (isDirectoryAt_put hfile content hdir)]
  cases hpiece : component? piece with
  | none =>
      rw [hpiece] at h
      exact h
  | some c =>
      rw [hpiece] at h
      cases c with
      | root | current | parent => exact h
      | name name =>
          dsimp only at h ⊢
          split at h
          · cases h
          · next hlimit =>
              split at h
              · next hentry =>
                  rw [if_neg hlimit, if_pos (isSome_node?_put hplace content hentry)]
                  exact h
              · cases h

theorem followAll_put {here there : Location} {ps : List (List Char)} (hplace : place ≠ [])
    (hfile : t.isDirectoryAt place = false) (content : ByteArray)
    (h : t.followAll here ps = .ok there) : (t.put place content).followAll here ps = .ok there := by
  induction ps generalizing here with
  | nil => exact h
  | cons p ps ih =>
      rw [followAll_cons] at h ⊢
      cases hnext : t.follow here p with
      | error fault =>
          rw [hnext] at h
          cases h
      | ok next =>
          rw [hnext] at h
          rw [follow_put hplace hfile content hnext]
          exact ih h

/-- **A path that has been written to leads to the file.** -/
theorem resolve_put (h : t.target path = .ok place) (content : ByteArray) :
    (t.put place content).resolve path = .ok place := by
  have hplace := ne_nil_of_target h
  obtain ⟨above, last, dir, hempty, hlimit, hpieces, hdir, hentry⟩ := exists_of_target h
  obtain ⟨-, hisDir, hfile, name, hname, hshort, rfl⟩ := entryIn_eq_ok hentry
  refine resolve_eq_ok_iff.mpr ⟨hempty, hlimit, ?_⟩
  have hlast : (t.put (dir ++ [name]) content).follow dir last = .ok (dir ++ [name]) := by
    rw [follow, if_pos (isDirectoryAt_put hfile content hisDir), hname]
    dsimp only
    rw [if_neg (Nat.not_lt.mpr hshort), node?_put_self hplace]
    rfl
  show (t.put (dir ++ [name]) content).followAll (t.origin path) _ = _
  rw [hpieces, followAll, List.foldlM_append]
  -- The way to the directory is as before, and only the last piece asks for the file.
  show (t.put (dir ++ [name]) content).followAll (t.origin path) above >>= _ = _
  rw [followAll_put hplace hfile content hdir]
  show (t.put (dir ++ [name]) content).followAll dir [last] = _
  rw [followAll_cons, hlast]
  rfl

/-- What has been written is what is read. -/
theorem readText_put (h : t.target path = .ok place) (text : String) :
    (t.put place text.toUTF8).readText path = .ok text := by
  have htext : String.fromUTF8? text.toUTF8 = some text := by
    rw [String.fromUTF8?]
    exact dif_pos text.isValidUTF8
  rw [readText, resolve_put h]
  dsimp only
  rw [node?_put_self (ne_nil_of_target h)]
  dsimp only
  rw [htext]

end ShellIndex.FileTree
