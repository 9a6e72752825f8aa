/-!
# The boundary of a predicate

`boundary p xs` finds, by halving, where an array stops satisfying `p`. Where every element that
satisfies `p` stands before every element that does not, it is the number of elements that do.
-/

namespace DocIndex

/-- Halves the `size` candidates from `base` on until one is left. -/
def boundaryFrom {α : Type _} (p : α → Bool) (xs : Array α) (base size : Nat) : Nat :=
  if size ≤ 1 then
    match xs[base]? with
    | some x => if p x then base + 1 else base
    | none => base
  else
    let half := size / 2
    let base' :=
      match xs[base + half]? with
      | some x => if p x then base + half else base
      | none => base
    boundaryFrom p xs base' (size - half)
termination_by size
decreasing_by omega

/-- The index where `xs` stops satisfying `p`, found by halving. -/
def boundary {α : Type _} (p : α → Bool) (xs : Array α) : Nat :=
  boundaryFrom p xs 0 xs.size

end DocIndex
