import Std.Data.TreeMap.Basic

/-!
# Paths

A path is kept as it was written and compared by its components: repeated separators, single dots
and a separator at the end do not count, except for a dot in front.

* `Path.components` — what a path names, step by step.
* `Path.join`, `Path.relativeTo?` — below a directory, and the way back.
* `Path.fileName?` — the last component, if it is a name.
-/

namespace DocIndex

/-- A path, as written. -/
structure Path where
  text : String
  deriving DecidableEq, Repr, Inhabited

namespace Path

/-- One step of a path. -/
inductive Component
  | root
  | current
  | parent
  | named (name : String)
  deriving DecidableEq, Repr, Inhabited

namespace Component

/-- The root comes first, then a dot, then two dots, then names. -/
def rank : Component → Nat
  | root => 0
  | current => 1
  | parent => 2
  | named _ => 3

/-- The name of a component that has one. -/
def label : Component → String
  | named name => name
  | _ => ""

/-- Components are ordered by rank, and names by their characters. -/
instance : Ord Component :=
  ⟨compareLex (compareOn rank) (compareOn label)⟩

instance : Std.TransOrd Component :=
  inferInstanceAs (Std.TransCmp (compareLex (compareOn rank) (compareOn label)))

end Component

/-- The stretches between separators. -/
def pieces (cs : List Char) : List (List Char) :=
  match cs with
  | [] => [[]]
  | c :: rest =>
    if c = '/' then [] :: pieces rest
    else
      match pieces rest with
      | p :: ps => (c :: p) :: ps
      | [] => [[c]]

/-- What a stretch between separators names; nothing, if it is empty or a dot. -/
def pieceComponent? (piece : List Char) : Option Component :=
  if piece = [] || piece = ['.'] then none
  else if piece = ['.', '.'] then some .parent
  else some (.named (String.ofList piece))

/-- What comes before the pieces of a path: the root, or a dot in front. -/
def lead (cs : List Char) : List Component :=
  match cs with
  | '/' :: _ => [.root]
  | ['.'] => [.current]
  | '.' :: '/' :: _ => [.current]
  | _ => []

/-- The components of a path, in order. -/
def components (p : Path) : List Component :=
  let cs := p.text.toList
  lead cs ++ (pieces cs).filterMap pieceComponent?

/-- Paths are ordered by their components. -/
instance : Ord Path :=
  ⟨compareOn components⟩

instance : Std.TransOrd Path :=
  inferInstanceAs (Std.TransCmp (compareOn components))

/-- Both paths have the same components. -/
def same (a b : Path) : Bool :=
  a.components = b.components

/-- The path starts at the root. -/
def isAbsolute (p : Path) : Bool :=
  p.components.head? == some .root

/-- `p` below the directory `base`; an absolute path stays as it is. -/
def join (base p : Path) : Path :=
  if p.isAbsolute || base.text.isEmpty then p
  else if base.text.toList.getLast? = some '/' then ⟨base.text ++ p.text⟩
  else ⟨base.text ++ "/" ++ p.text⟩

/-- The last component, if it is a name. -/
def fileName? (p : Path) : Option String :=
  match p.components.getLast? with
  | some (.named name) => some name
  | _ => none

/-- The text without separators and dots that end it. `keep` characters in front stay. -/
def dropTail (keep : Nat) (cs : List Char) : List Char :=
  let body := cs.drop keep
  let ps := (pieces body).reverse.dropWhile fun p => (pieceComponent? p).isNone
  cs.take keep ++ List.intercalate ['/'] ps.reverse

/-- The text without the `n` components in front, and without separators and dots around what is
left. -/
def dropFront : Nat → List (List Char) → List (List Char)
  | 0, ps => ps.dropWhile fun p => (pieceComponent? p).isNone
  | _ + 1, [] => []
  | n + 1, p :: ps => if (pieceComponent? p).isNone then dropFront (n + 1) ps else dropFront n ps

/-- The way from `base` to `p`, if `base` is `p` or above it. -/
def relativeTo? (p base : Path) : Option Path :=
  let steps := base.components
  if !steps.isPrefixOf p.components then none
  else
    let cs := p.text.toList
    match steps with
    | [] => some ⟨String.ofList (dropTail (lead cs).length cs)⟩
    | _ =>
      let rest := dropFront (steps.length - (lead cs).length) (pieces (cs.drop (lead cs).length))
      some ⟨String.ofList (dropTail 0 (List.intercalate ['/'] rest))⟩

end Path

end DocIndex
