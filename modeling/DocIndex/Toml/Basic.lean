/-!
# TOML values

A document is a table. How a table came about decides whether it can still grow; that is its form.
-/

namespace DocIndex

/-- How a table came about. -/
inductive TableForm
  /-- Written between braces. It is complete. -/
  | inline
  /-- Opened by its own header. -/
  | header
  /-- Only named on the way to the header of another table. -/
  | implied
  /-- Named by the dotted key of an entry. -/
  | dotted
  deriving DecidableEq, Repr, Inhabited

/-- A TOML value. What a date or a time says is not kept. The entries of a table are in the order in
which they are written. -/
inductive Toml
  | string (s : String)
  | integer (n : Int)
  | float (x : Float)
  | boolean (b : Bool)
  | datetime
  | array (items : List Toml)
  | table (form : TableForm) (entries : List (String × Toml))
  /-- Tables whose headers have double brackets. -/
  | tables (items : List (List (String × Toml)))
  deriving Repr, Inhabited

/-- The entries of a table. -/
abbrev Entries := List (String × Toml)

namespace Entries

/-- The entries in which a key has another value; a new key comes last. -/
def put (key : String) (value : Toml) : Entries → Entries
  | [] => [(key, value)]
  | e :: rest => if e.1 == key then (key, value) :: rest else e :: put key value rest

end Entries

end DocIndex
