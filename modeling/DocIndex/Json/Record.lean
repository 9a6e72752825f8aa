import DocIndex.Json.Basic

/-!
# Reading the parts of JSON values

Each function here reads one kind of value and answers `none` for all others.

* `Json.record?` — a record of named fields. It may also be written as an array of the fields in
  their order, of which those at the end may be missing.
* `Json.nat?` — a natural number up to a bound.
* `Json.list?` — an array, item by item.
* `Json.map?` — an object, member by member.
-/

namespace DocIndex

/-- The value of decimal digits, if there are no other characters. -/
def decimal? (digits : List Char) : Option Nat :=
  digits.foldlM (fun n c => if c.isDigit then some (n * 10 + (c.toNat - 48)) else none) 0

namespace Json

/-- A text. -/
def text? : Json → Option String
  | string s => some s
  | _ => none

/-- A natural number up to `bound`, written with digits alone. -/
def nat? (bound : Nat) : Json → Option Nat
  | number written => (decimal? written.toList).bind fun n => if n ≤ bound then some n else none
  | _ => none

/-- An array, of which every item can be read. -/
def list? {α : Type} (read : Json → Option α) : Json → Option (List α)
  | array items => items.mapM read
  | _ => none

/-- An object, of which every value can be read. -/
def map? {α : Type} (read : Json → Option α) : Json → Option (List (String × α))
  | object members => members.mapM fun m => (read m.2).map fun a => (m.1, a)
  | _ => none

/-- The value of the field `name`: none if the field is missing, a failure if it is there twice. -/
def field? (members : List (String × Json)) (name : String) : Option (Option Json) :=
  match members.filter (·.1 == name) with
  | [] => some none
  | [m] => some (some m.2)
  | _ => none

/-- The values of the fields `names`, in that order. Other fields are passed over. -/
def record? (names : List String) : Json → Option (List (Option Json))
  | object members => names.mapM (field? members)
  | array items =>
    if items.length ≤ names.length then
      some (items.map some ++ List.replicate (names.length - items.length) none)
    else none
  | _ => none

/-- The names of an object's members; an array has none. -/
def memberNames : Json → List String
  | object members => members.map Prod.fst
  | _ => []

end Json

end DocIndex
