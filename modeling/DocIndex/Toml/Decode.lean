import DocIndex.Toml.Basic

/-!
# Reading the parts of TOML values

Each function here reads one kind of value and answers `none` for all others.

* `Toml.fields?` — a record of named fields, all of which may be missing. It may also be written as
  an array of the fields in their order.
-/

namespace DocIndex

namespace Toml

/-- A text. -/
def text? : Toml → Option String
  | string s => some s
  | _ => none

/-- An array of texts. -/
def texts? : Toml → Option (List String)
  | array items => items.mapM text?
  | tables [] => some []
  | _ => none

/-- A truth value. -/
def boolean? : Toml → Option Bool
  | boolean b => some b
  | _ => none

/-- An integer that is not negative. -/
def nat? : Toml → Option Nat
  | integer (.ofNat n) => some n
  | _ => none

/-- A number. -/
def number? : Toml → Option Float
  | float x => some x
  | integer n => some (Float.ofInt n)
  | _ => none

/-- The values of the fields `names`, in that order. Other fields are passed over, and so are items
behind the last field. A date stands for a record without fields. -/
def fields? (names : List String) : Toml → Option (List (Option Toml))
  | table _ entries => some (names.map fun name => entries.lookup name)
  | array items => some (names.mapIdx fun i _ => items[i]?)
  | tables items => some (names.mapIdx fun i _ => items[i]?.map (table .header))
  | datetime => some (names.map fun _ => none)
  | _ => none

/-- Reads a field; one that is missing has a default. -/
def fieldOr? {α : Type} (read : Toml → Option α) (dflt : α) : Option Toml → Option α
  | none => some dflt
  | some v => read v

end Toml

end DocIndex
