/-!
# The edit distance of two texts

`editDistance` is the least number of characters to insert, delete or replace that turns one text
into the other. It is computed row by row: the row of a prefix of the first text holds its distances
to all prefixes of the second text.

* `similarity` — the distance as a share of the longer text, taken from one.
-/

namespace DocIndex

namespace Text

/-- The rest of the row for one more character `a`. `corner` and `left` are the distances above and
beside the place before, `row` is the rest of the row above. -/
def distancesFrom (a : Char) (corner left : Nat) : List Char → List Nat → List Nat
  | b :: bs, above :: row =>
    let d := min (min (above + 1) (left + 1)) (corner + if a = b then 0 else 1)
    d :: distancesFrom a above d bs row
  | _, _ => []

/-- The row for one more character `a`. -/
def nextDistances (bs : List Char) (row : List Nat) (a : Char) : List Nat :=
  match row with
  | [] => []
  | corner :: row => (corner + 1) :: distancesFrom a corner (corner + 1) bs row

/-- The least number of edits that turn one text into the other. -/
def editDistance (as bs : List Char) : Nat :=
  (as.foldl (nextDistances bs) (List.range (bs.length + 1))).getLastD 0

/-- How similar two texts are, from 0 for nothing in common to 1 for the same text. -/
def similarity (s t : String) : Float :=
  if s.isEmpty && t.isEmpty then 1.0
  else
    1.0 - (editDistance s.toList t.toList).toFloat / (max s.length t.length).toFloat

end Text

end DocIndex
