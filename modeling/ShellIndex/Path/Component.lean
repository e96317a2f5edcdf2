set_option autoImplicit false

/-! # Path components

A path is a text whose pieces stand between slashes. Its components are what the pieces
mean: empty pieces and dots add nothing, except that a slash at the very start is the root
and a dot at the very start is the current directory. Two paths are equal as paths when
they have the same components, and paths are ordered component by component.

The main fact about pieces is that joining them with slashes gives the text back.
-/

namespace ShellIndex.Path

/-- A component of a path. -/
inductive Component where
  /-- The root directory, written as a slash at the start. -/
  | root
  /-- The current directory, written as a dot at the start. -/
  | current
  /-- The parent directory. -/
  | parent
  /-- A name in a directory. -/
  | name (text : String)
deriving DecidableEq, Repr

namespace Component

/-- The place of a kind of component in the order. -/
def rank : Component → Nat
  | root => 0
  | current => 1
  | parent => 2
  | name _ => 3

/-- The name of a component that has one. -/
def text : Component → String
  | name text => text
  | _ => ""

/-- The root comes first, then the current and the parent directory, then names in
ascending order. -/
instance : Ord Component := ⟨compareLex (compareOn rank) (compareOn text)⟩

end Component

/-- The texts between the slashes of a path. -/
def pieces : List Char → List (List Char)
  | [] => [[]]
  | c :: s =>
      if c = '/' then [] :: pieces s
      else
        match pieces s with
        | [] => [[c]]
        | p :: ps => (c :: p) :: ps

/-- Pieces with slashes between them. -/
def joinPieces (ps : List (List Char)) : List Char := List.intercalate ['/'] ps

/-- The component that a piece adds anywhere in a path. -/
def component? (piece : List Char) : Option Component :=
  if piece = [] ∨ piece = ['.'] then none
  else if piece = ['.', '.'] then some .parent
  else some (.name (String.ofList piece))

/-- The component that only the start of a path can add. -/
def startComponent? (path : List Char) : Option Component :=
  if path.head? = some '/' then some .root
  else if (pieces path).head? = some ['.'] then some .current
  else none

/-- The components of a path. -/
def components (path : String) : List Component :=
  (startComponent? path.toList).toList ++ (pieces path.toList).filterMap component?

/-- The order of paths. -/
def order (p q : String) : Ordering := compare (components p) (components q)

/-- The path of `name` in the directory `dir`. -/
def join (dir name : String) : String :=
  if dir.isEmpty then name
  else if dir.toList.getLast? = some '/' then dir ++ name
  else dir ++ "/" ++ name

/-- Whether a path consists of the current directory alone. -/
def isCurrent (path : String) : Bool := components path == [.current]

/-- The text after the last dot of a name; a dot at the very start does not count. -/
def extension? (name : String) : Option String :=
  let backwards := name.toList.reverse
  match backwards.dropWhile (· != '.') with
  | _ :: _ :: _ => some (String.ofList (backwards.takeWhile (· != '.')).reverse)
  | _ => none

/-! ## Pieces -/

theorem pieces_ne_nil (s : List Char) : pieces s ≠ [] := by
  cases s with
  | nil => simp [pieces]
  | cons c s =>
      rw [pieces]
      split
      · simp
      · split <;> simp

theorem joinPieces_cons_cons (p q : List Char) (ps : List (List Char)) :
    joinPieces (p :: q :: ps) = p ++ '/' :: joinPieces (q :: ps) := by
  simp [joinPieces, List.intercalate]

/-- Nothing of a path is lost between its pieces and the slashes. -/
theorem joinPieces_pieces (s : List Char) : joinPieces (pieces s) = s := by
  induction s with
  | nil => simp [pieces, joinPieces, List.intercalate]
  | cons c s ih =>
      rw [pieces]
      cases hp : pieces s with
      | nil => exact absurd hp (pieces_ne_nil s)
      | cons p ps =>
          rw [hp] at ih
          by_cases hc : c = '/'
          · rw [if_pos hc, joinPieces_cons_cons, ih, hc]
            rfl
          · rw [if_neg hc]
            cases ps with
            | nil => simpa [joinPieces, List.intercalate] using ih
            | cons q qs =>
                rw [joinPieces_cons_cons] at ih ⊢
                rw [List.cons_append, ih]

end ShellIndex.Path
