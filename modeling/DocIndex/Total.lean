/-!
# Sums of counts

`total` adds up a list of counts.
-/

namespace DocIndex

/-- The sum of a list of counts. -/
def total : List Nat → Nat
  | [] => 0
  | n :: ns => n + total ns

@[simp] theorem total_nil : total [] = 0 := rfl

@[simp] theorem total_cons (n : Nat) (ns : List Nat) : total (n :: ns) = n + total ns := rfl

@[simp] theorem total_append (ms ns : List Nat) : total (ms ++ ns) = total ms + total ns := by
  induction ms with
  | nil => simp
  | cons m ms ih => simp only [List.cons_append, total_cons, ih]; omega

/-- The length of lists in a row. -/
theorem length_flatMap_eq_total {α β : Type} (f : α → List β) (as : List α) :
    (as.flatMap f).length = total (as.map fun a => (f a).length) := by
  induction as with
  | nil => simp
  | cons a as ih => simp only [List.flatMap_cons, List.length_append, ih, List.map_cons, total_cons]

end DocIndex
