/-!
# JSON values

A number is kept as it is written. A value in which some text spells no characters can be passed
over, but nothing can be read from it; it is `Json.unreadable`.
-/

namespace DocIndex

/-- A JSON value. The members of an object are in the order in which they are written. -/
inductive Json
  | null
  | bool (b : Bool)
  | number (written : String)
  | string (s : String)
  | array (items : List Json)
  | object (members : List (String × Json))
  | unreadable
  deriving Repr, Inhabited

namespace Json

/-- A natural number. -/
def nat (n : Nat) : Json :=
  .number (toString n)

/-- An array of texts. -/
def strings (ss : List String) : Json :=
  .array (ss.map .string)

end Json

end DocIndex
