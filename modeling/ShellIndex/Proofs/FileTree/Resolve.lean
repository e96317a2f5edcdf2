import ShellIndex.FileTree.Basic
import ShellIndex.Proofs.Path.Components

set_option autoImplicit false

/-! # Where a path leads

A path that can be followed leads to the location that its components name one after another
(`locate`); the other pieces only ask for a directory. Hence paths with the same components lead to
the same location, and a path below a directory leads on from where the directory is.
-/

namespace ShellIndex.FileTree

open ShellIndex.Path

/-! ## Following components -/

/-- Where a component leads from a location. -/
def enter (place : Location) : Component → Location
  | .parent => place.dropLast
  | .name name => place ++ [name]
  | .root | .current => place

/-- Where some components lead from a location. -/
def locate (place : Location) (cs : List Component) : Location := cs.foldl enter place

theorem locate_append (place : Location) (cs cs' : List Component) :
    locate place (cs ++ cs') = locate (locate place cs) cs' := List.foldl_append

theorem locate_names (place names : Location) :
    locate place (names.map Component.name) = place ++ names := by
  induction names generalizing place with
  | nil => exact (List.append_nil place).symm
  | cons name names ih =>
      show locate (place ++ [name]) (names.map Component.name) = place ++ name :: names
      rw [ih, List.append_assoc, List.singleton_append]

theorem exists_names {cs : List Component} (hparent : .parent ∉ cs)
    (hstart : ∀ c ∈ cs, c.isStart = false) : ∃ names : Location, cs = names.map .name := by
  induction cs with
  | nil => exact ⟨[], rfl⟩
  | cons c cs ih =>
      obtain ⟨names, rfl⟩ := ih (fun h => hparent (List.mem_cons_of_mem c h))
        fun c' hc' => hstart c' (List.mem_cons_of_mem c hc')
      have hc := hstart c List.mem_cons_self
      cases c with
      | root => cases hc
      | current => cases hc
      | parent => exact absurd List.mem_cons_self hparent
      | name text => exact ⟨text :: names, rfl⟩

section
variable {t : FileTree} {place place' : Location}

theorem isDirectoryAt_of_follow {piece : List Char} (h : t.follow place piece = .ok place') :
    t.isDirectoryAt place = true := by
  unfold follow at h
  split at h
  · assumption
  · cases h

theorem eq_of_follow {piece : List Char} (h : t.follow place piece = .ok place') :
    place' = locate place (component? piece).toList := by
  unfold follow at h
  rw [if_pos (isDirectoryAt_of_follow h)] at h
  split at h
  · next hpiece =>
      rw [hpiece]
      exact (Except.ok.inj h).symm
  · next name hpiece =>
      rw [hpiece]
      split at h
      · cases h
      · split at h
        · exact (Except.ok.inj h).symm
        · cases h
  · next hparent hname =>
      obtain rfl := Except.ok.inj h
      cases hpiece : component? piece with
      | none => rfl
      | some c =>
          cases c with
          | root => rfl
          | current => rfl
          | parent => exact absurd hpiece hparent
          | name text => exact absurd hpiece (hname text)

theorem followAll_cons (p : List Char) (ps : List (List Char)) :
    t.followAll place (p :: ps) = t.follow place p >>= fun next => t.followAll next ps :=
  List.foldlM_cons

/-- Some pieces that can be followed lead where their components lead. -/
theorem eq_of_followAll {ps : List (List Char)} (h : t.followAll place ps = .ok place') :
    place' = locate place (ps.filterMap component?) := by
  induction ps generalizing place with
  | nil => exact (Except.ok.inj h).symm
  | cons p ps ih =>
      rw [followAll_cons] at h
      cases hnext : t.follow place p with
      | error fault =>
          rw [hnext] at h
          cases h
      | ok next =>
          rw [hnext] at h
          have hrest := ih h
          rw [eq_of_follow hnext] at hrest
          rw [hrest, ← locate_append, List.filterMap_cons]
          cases component? p <;> rfl

/-! ## Following paths -/

theorem resolve_eq_ok_iff {path : String} : t.resolve path = .ok place ↔
    path ≠ "" ∧ path.utf8ByteSize ≤ pathLimit ∧
      t.followAll (t.origin path) (pieces path.toList) = .ok place := by
  rw [resolve]
  by_cases hempty : path = ""
  · simp [hempty]
  · have hne : path.isEmpty = false := by simpa using hempty
    rw [hne, if_neg (by simp)]
    split
    · next h =>
        constructor
        · intro h'
          cases h'
        · rintro ⟨-, hle, -⟩
          exact absurd h (Nat.not_lt.mpr hle)
    · next h => simp [hempty, Nat.not_lt.mp h]

/-- A path leads where its components lead. -/
theorem eq_of_resolve {path : String} (h : t.resolve path = .ok place) :
    place = locate (t.origin path) (components path) := by
  obtain ⟨-, -, hfollow⟩ := resolve_eq_ok_iff.mp h
  have hstart : locate (t.origin path) (startComponent? path.toList).toList = t.origin path := by
    cases hs : startComponent? path.toList with
    | none => rfl
    | some c =>
        have hc := isStart_of_startComponent? hs
        cases c <;> first | rfl | cases hc
  rw [components_eq, locate_append, hstart]
  exact eq_of_followAll hfollow

theorem origin_eq_of_head? {path path' : String}
    (h : (components path).head? = (components path').head?) : t.origin path = t.origin path' := by
  have hslash : path.toList.head? = some '/' ↔ path'.toList.head? = some '/' := by
    rw [head?_eq_slash_iff, h, head?_eq_slash_iff]
  simp only [origin, hslash]

/-- Paths with the same components lead to the same location. -/
theorem eq_of_components {path path' : String} (h : components path = components path')
    (hplace : t.resolve path = .ok place) (hplace' : t.resolve path' = .ok place') :
    place = place' := by
  rw [eq_of_resolve hplace, eq_of_resolve hplace', h, origin_eq_of_head? (congrArg List.head? h)]

/-- A path below a directory leads on from there. -/
theorem eq_of_resolve_below {path dir : String} {above : Location} {rest : List Component}
    (hdir : components dir ≠ []) (h : components path = components dir ++ rest)
    (hplace : t.resolve path = .ok place) (habove : t.resolve dir = .ok above) :
    place = locate above rest := by
  obtain ⟨c, cs, hcs⟩ := List.exists_cons_of_ne_nil hdir
  have horigin : t.origin path = t.origin dir := by
    refine origin_eq_of_head? ?_
    rw [h, hcs]
    rfl
  rw [eq_of_resolve hplace, h, locate_append, horigin, ← eq_of_resolve habove]

theorem components_ne_nil_of_resolve {path : String} (h : t.resolve path = .ok place) :
    components path ≠ [] :=
  components_ne_nil (resolve_eq_ok_iff.mp h).1

end

/-! ## Files and directories -/

variable {t : FileTree} {path : String}

theorem isFile_iff : t.isFile path = true ↔
    ∃ place content, t.resolve path = .ok place ∧ t.node? place = some (.file content) := by
  unfold isFile find?
  cases t.resolve path with
  | error fault => simp
  | ok place =>
      rcases hnode : t.node? place with _ | ⟨content⟩ | _ <;> simp [hnode]

theorem isDirectory_iff : t.isDirectory path = true ↔
    ∃ place, t.resolve path = .ok place ∧ t.node? place = some .directory := by
  unfold isDirectory find?
  cases t.resolve path with
  | error fault => simp
  | ok place => simp

/-- No path to a file leads where a path to a directory leads. -/
theorem ne_of_isFile {place : Location} {content : ByteArray}
    (hfile : t.node? place = some (.file content)) {above : Location}
    (hdir : t.node? above = some .directory) : place ≠ above := by
  rintro rfl
  cases hfile.symm.trans hdir

end ShellIndex.FileTree
