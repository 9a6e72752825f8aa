import DocIndex.Outline.Basic

/-!
# Scopes

* `Scope` — what the declarations inside of a pair of braces belong to.
* `Frame` — a scope whose body is being read, with what is left to do behind the body.
* `Outcome` — what the reading of one declaration leads to.
-/

namespace DocIndex

/-- What stands inside of a pair of braces, or at the top of the file, belongs to this. -/
structure Scope where
  /-- The owner of what belongs to no declaration. -/
  owner : CursorId
  /-- The parent of the declarations. -/
  parent : CursorId
  /-- The name of the class, inside of a class. -/
  record : Option String
  /-- The names of the scopes around, from the outside in, this one included. -/
  path : List String
  deriving Repr, Inhabited

namespace Scope

/-- The top of a file. -/
def file : Scope :=
  { owner := 0, parent := 0, record := none, path := [] }

/-- The same scope, with another owner. -/
def ownedBy (scope : Scope) (id : CursorId) : Scope :=
  { scope with owner := id }

/-- The inside of a namespace. -/
def ofNamespace (id : CursorId) (path : List String) : Scope :=
  { owner := id, parent := id, record := none, path }

/-- The inside of a class. -/
def ofRecord (id : CursorId) (name : String) (path : List String) : Scope :=
  { owner := id, parent := id, record := some name, path }

end Scope

/-- What is left to do once the body of a scope has been read. -/
inductive Closing
  /-- The cursor reaches to the closing brace. -/
  | linkage (id : CursorId) (start : Nat)
  /-- All of the cursors reach to the closing brace. -/
  | namespaces (ids : List CursorId) (start : Nat)
  /-- The class may have declarators behind it. -/
  | record (id : CursorId) (start : Nat)
  /-- The class is the first part of a type definition that began at lexeme `outer`. -/
  | typedefRecord (id : CursorId) (start outer : Nat)
  deriving Repr

/-- A scope whose body is being read. -/
structure Frame where
  scope : Scope
  closing : Closing
  deriving Repr

/-- What the reading of a declaration leads to: where reading goes on, and, if the declaration is a
scope, whose body is read there. -/
structure Outcome where
  outline : Outline
  next : Nat
  opened : Option Frame
  deriving Repr

namespace Outline

/-- The declaration is over; reading goes on at `next`. -/
def done (o : Outline) (next : Nat) : Outcome :=
  { outline := o, next, opened := none }

/-- The declaration's body is read from `next` on. -/
def enter (o : Outline) (next : Nat) (scope : Scope) (closing : Closing) : Outcome :=
  { outline := o, next, opened := some { scope, closing } }

end Outline

end DocIndex
