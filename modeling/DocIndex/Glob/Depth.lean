import DocIndex.Glob.Basic
import DocIndex.Total

/-!
# How deeply a pattern is nested

`Glob.depth` counts the groups, alternatives, sequences, repetitions and brackets that stand within
one another where a pattern is spelled out as a regular expression.
-/

namespace DocIndex

namespace Glob

/-- The number of parts that a piece adds to a sequence. -/
def width : GlobPiece → Nat
  | .within => 2
  | .choice [] => 0
  | _ => 1

/-- The depth of a sequence over its deepest part: one of a single part has none of its own. -/
def sequenceDepth (pieces : List GlobPiece) : Nat :=
  if total (pieces.map width) ≤ 1 then 0 else 1

mutual

/-- The depth of a piece. -/
def pieceDepth (piece : GlobPiece) : Nat :=
  match piece with
  | .byte _ | .anyByte => 0
  | .anything | .within => 1
  -- a group of two alternatives, the second of which is a sequence with a repetition
  | .above | .between => 4
  | .oneOf _ ranges => if ranges.length ≤ 1 then 1 else 2
  | .choice [] => 0
  | .choice [branch] => deepest branch + sequenceDepth branch + 1
  | .choice branches => deepestBranch branches + 2

/-- The depth of the deepest piece. -/
def deepest (pieces : List GlobPiece) : Nat :=
  match pieces with
  | [] => 0
  | piece :: pieces => max (pieceDepth piece) (deepest pieces)

/-- The depth of the deepest branch. -/
def deepestBranch (branches : List (List GlobPiece)) : Nat :=
  match branches with
  | [] => 0
  | branch :: branches => max (deepest branch + sequenceDepth branch) (deepestBranch branches)

end

/-- The depth of a pattern, which is always a sequence: it is tied to both ends of a path. -/
def depth (g : Glob) : Nat :=
  deepest g + 1

/-- How deeply a pattern may be nested. -/
def maxDepth : Nat :=
  250

end Glob

end DocIndex
