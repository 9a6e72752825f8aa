import DocIndex.Source.Basic
import DocIndex.Source.Cursor

/-!
# Outlines

The outline of a source text is what has been recognised of its structure: the cursors so far, the
owner of each lexeme, and the names that are known to be macros or scopes.

* `Outline.declare` — a new cursor.
* `Outline.claim` — give lexemes to a cursor. The first claim on a lexeme stands.
* `Outline.resolve` — the scope that a qualified name means, looked up from the inside out.
-/

namespace DocIndex

/-- What is wrong with the structure of a text. -/
inductive Flaw
  | unbalanced (opening : String)
  | noSemicolon
  | noSemicolonAfterDeclaration
  | noSemicolonAtEnd
  | noNamespaceBody
  | noClassBody
  | noClosingBrace
  | extraClosingBrace
  deriving DecidableEq, Repr

/-- How a flaw is reported. -/
def Flaw.message : Flaw → String
  | unbalanced opening => "unbalanced '" ++ opening ++ "'"
  | noSemicolon => "expected ';'"
  | noSemicolonAfterDeclaration => "expected ';' after declaration"
  | noSemicolonAtEnd => "expected ';' at end of input"
  | noNamespaceBody => "expected '\x7b' after namespace name"
  | noClassBody => "expected class body after base list"
  | noClosingBrace => "expected '\x7d'"
  | extraClosingBrace => "extraneous closing brace ('\x7d')"

/-- A flaw, and the lexeme in front of which it was met. -/
structure Note where
  index : Nat
  flaw : Flaw
  deriving DecidableEq, Repr

/-- How far a stretch of lexemes reaches, and what is wrong with it. -/
structure Reach where
  index : Nat
  notes : List Note
  deriving DecidableEq, Repr

/-- A cursor that reaches from lexeme `first` up to and with lexeme `last`. -/
structure Draft where
  kind : CursorKind
  spelling : String
  first : Nat
  last : Nat
  parent : Option CursorId
  deriving DecidableEq, Repr, Inhabited

/-- The names that are macros, the latest definition in front; true for one with parameters. -/
abbrev Macros := List (String × Bool)

/-- What has been recognised of a text. -/
structure Outline where
  drafts : Array Draft
  owners : Array (Option CursorId)
  notes : List Note
  macros : Macros
  scopes : List (String × CursorId)
  moduleName : Option String
  deriving Repr, Inhabited

/-- A name in front of which stand the names of its scopes. -/
def qualify (path : List String) (name : String) : String :=
  "::".intercalate (path ++ [name])

namespace Outline

/-- Nothing recognised yet of a text of `size` lexemes, but the file itself. -/
def start (fileName : String) (size : Nat) (macros : Macros) : Outline :=
  { drafts :=
      #[{ kind := .wholeFile, spelling := fileName, first := 0, last := size - 1,
          parent := none }]
    owners := Array.replicate size none
    notes := []
    macros
    scopes := []
    moduleName := none }

/-- Adds a cursor, and tells its number. -/
def declare (o : Outline) (kind : CursorKind) (spelling : String) (first last : Nat)
    (parent : CursorId) : Outline × CursorId :=
  let draft := { kind, spelling, first, last := max last first, parent := some parent }
  ({ o with drafts := o.drafts.push draft }, o.drafts.size)

/-- Gives the `n` lexemes from `first` on to a cursor, as far as they have no owner. -/
def claimFrom (id : CursorId) (first : Nat) :
    Nat → Array (Option CursorId) → Array (Option CursorId)
  | 0, owners => owners
  | n + 1, owners => claimFrom id (first + 1) n (owners.modify first fun o => o <|> some id)

theorem size_claimFrom (id : CursorId) (first n : Nat) (owners : Array (Option CursorId)) :
    (claimFrom id first n owners).size = owners.size := by
  induction n generalizing first owners with
  | zero => rfl
  | succ n ih => rw [claimFrom, ih, Array.size_modify]

theorem getElem?_claimFrom (id : CursorId) (first n : Nat) (owners : Array (Option CursorId))
    (k : Nat) :
    (claimFrom id first n owners)[k]? =
      if first ≤ k ∧ k < first + n then owners[k]?.map (· <|> some id) else owners[k]? := by
  induction n generalizing first owners with
  | zero => rw [claimFrom, if_neg (by omega)]
  | succ n ih =>
    rw [claimFrom, ih, Array.getElem?_modify]
    by_cases hk : first = k
    · subst hk
      rw [if_neg (by omega), if_pos rfl, if_pos (by omega)]
    · rw [if_neg hk]
      by_cases hin : first + 1 ≤ k ∧ k < first + 1 + n
      · rw [if_pos hin, if_pos (by omega)]
      · rw [if_neg hin, if_neg (by omega)]

/-- Gives the lexemes from `first` up to and with `last` to a cursor, as far as they have no
owner. -/
def claim (o : Outline) (first last : Nat) (id : CursorId) : Outline :=
  { o with owners := claimFrom id first (last + 1 - first) o.owners }

/-- Adds a cursor and gives it its lexemes. -/
def add (o : Outline) (kind : CursorKind) (spelling : String) (first last : Nat)
    (parent : CursorId) : Outline :=
  let r := o.declare kind spelling first last parent
  r.1.claim first last r.2

/-- Lets a cursor reach up to and with lexeme `last`. -/
def reachTo (o : Outline) (id : CursorId) (last : Nat) : Outline :=
  { o with drafts := o.drafts.modify id fun d => { d with last } }

/-- Records flaws. -/
def note (o : Outline) (notes : List Note) : Outline :=
  { o with notes := o.notes ++ notes }

/-- The name is a macro from here on. -/
def define (o : Outline) (name : String) (hasParameters : Bool) : Outline :=
  { o with macros := (name, hasParameters) :: o.macros }

/-- The name is no macro from here on. -/
def undefine (o : Outline) (name : String) : Outline :=
  { o with macros := o.macros.filter fun m => m.1 != name }

/-- Opens a scope by its full name. The first scope of a name stands. -/
def openScope (o : Outline) (path : List String) (name : String) (id : CursorId) : Outline :=
  let key := qualify path name
  match o.scopes.lookup key with
  | some _ => o
  | none => { o with scopes := (key, id) :: o.scopes }

/-- The scope `tail` as seen from within the scopes of a path, given from the inside out. -/
def resolveFrom (o : Outline) (tail : String) : List String → Option CursorId
  | [] => o.scopes.lookup tail
  | name :: outer =>
    match o.scopes.lookup (qualify (name :: outer).reverse tail) with
    | some id => some id
    | none => o.resolveFrom tail outer

/-- The scope that a qualifier means within the scopes of a path: the innermost one that fits. -/
def resolve (o : Outline) (path qualifier : List String) : Option CursorId :=
  if qualifier.isEmpty then none
  else o.resolveFrom ("::".intercalate qualifier) path.reverse

/-- Names the module, unless it has a name. -/
def nameModule (o : Outline) (name : String) : Outline :=
  { o with moduleName := o.moduleName <|> some name }

end Outline

end DocIndex
