import ShellIndex.Path.Component

set_option autoImplicit false

/-! # The rest of a path below a directory

When the components of a directory start the components of a path, the rest of the path is
the text behind them. The rest is cut out of the path as it stands, without the slashes and
dots at its ends that add no component.
-/

namespace ShellIndex.Path

/-- Whether a piece adds no component inside a path. -/
def isIdle (piece : List Char) : Bool := (component? piece).isNone

/-- The pieces behind the first `n` of those that add a component. -/
def dropComponents : Nat → List (List Char) → List (List Char)
  | 0, ps => ps
  | _ + 1, [] => []
  | n + 1, p :: ps => if isIdle p then dropComponents (n + 1) ps else dropComponents n ps

/-- The pieces without those at the end that add no component. -/
def trimPiecesEnd (ps : List (List Char)) : List (List Char) :=
  (ps.reverse.dropWhile isIdle).reverse

/-- A path without the slashes and dots at its end that add no component. -/
def trimEnd (path : List Char) : List Char :=
  match trimPiecesEnd (pieces path) with
  | [] =>
      match startComponent? path with
      | some .root => ['/']
      | some .current => ['.']
      | _ => []
  | ps => joinPieces ps

/-- The rest of a path below a directory, if the path lies below it. -/
def remainder? (path dir : String) : Option String :=
  let base := components dir
  if base.isPrefixOf (components path) then
    if base.isEmpty then some (String.ofList (trimEnd path.toList))
    else
      let named := base.length - (startComponent? dir.toList).toList.length
      let rest := (dropComponents named (pieces path.toList)).dropWhile isIdle
      some (String.ofList (joinPieces (trimPiecesEnd rest)))
  else none

end ShellIndex.Path
