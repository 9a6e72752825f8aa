import DocIndex.Comment.Basic
import DocIndex.Error

/-!
# Files on disk

A `Disk` is a tree of directories and files together with the directory that paths start from.

* `Disk.walk` — from a place in the tree along the pieces of a path. Two dots lead up; a piece that
  is empty or a dot leads nowhere, but only from a directory.
* `Disk.read`, `Disk.modified?`, `Disk.directory?`, `Disk.canonical` — what is at the end of a path.
* `Disk.write` — a file into a directory that is there. `Disk.put` makes the directories, too.
* `Disk.touch`, `Disk.delete` — changes a file's time, drops a file or a directory.
-/

namespace DocIndex

/-- A file with its bytes and the time when it was last changed, or a directory with the names in
it. -/
inductive Node
  | file (bytes : List UInt8) (modified : Timestamp)
  | directory (entries : List (String × Node))
  deriving Repr, Inhabited

namespace Node

/-- The node of a name within a directory. -/
def child? (name : String) : Node → Option Node
  | file _ _ => none
  | directory entries => (entries.find? fun e => e.1 == name).map Prod.snd

/-- The names of a directory with one of them replaced, or added behind all others. -/
def putEntry (name : String) (node : Node) : List (String × Node) → List (String × Node)
  | [] => [(name, node)]
  | e :: rest => if e.1 == name then (name, node) :: rest else e :: putEntry name node rest

/-- The directory in which a name stands for a node. -/
def put (above : Node) (name : String) (node : Node) : Node :=
  match above with
  | file bytes modified => file bytes modified
  | directory entries => directory (putEntry name node entries)

/-- The directory without a name. -/
def drop (name : String) : Node → Node
  | file bytes modified => file bytes modified
  | directory entries => directory (entries.filter fun e => e.1 != name)

/-- The node is a directory. -/
def isDirectory : Node → Bool
  | file _ _ => false
  | directory _ => true

end Node

/-- A place in a tree: the nodes on the way to it with their names, the last one in front. The root
has no name. -/
abbrev Trail := List (String × Node)

namespace Trail

/-- The node at the end. -/
def node (t : Trail) : Node :=
  match t with
  | [] => .directory []
  | e :: _ => e.2

/-- The names on the way from the root. -/
def names (t : Trail) : List String :=
  (t.map Prod.fst).reverse.drop 1

/-- One step along a piece of a path. -/
def step (t : Trail) (piece : String) : Except DiskFault Trail :=
  if !t.node.isDirectory then .error .notDirectory
  else if piece.isEmpty || piece == "." then .ok t
  else if piece == ".." then .ok (if t.length ≤ 1 then t else t.drop 1)
  else
    match t.node.child? piece with
    | some n => .ok ((piece, n) :: t)
    | none => .error .notFound

/-- The tree in which the node at the end of the trail is another one. -/
def rebuild (node : Node) : Trail → Node
  | [] => node
  | [_] => node
  | (name, _) :: above :: rest => rebuild (above.2.put name node) (above :: rest)

end Trail

/-- A tree of files, and the way from its root to the directory that paths start from. -/
structure Disk where
  root : Node
  current : List String
  deriving Repr, Inhabited

/-- The stretches between the separators of a path. -/
def Path.stretches (p : Path) : List String :=
  (Path.pieces p.text.toList).map String.ofList

namespace Disk

variable (d : Disk)

/-- Where paths that start at the root start from. -/
def top : Trail :=
  [("", d.root)]

/-- The place at the end of some pieces. -/
def walk (start : Trail) (pieces : List String) : Except DiskFault Trail :=
  pieces.foldlM Trail.step start

/-- Where a path starts from. -/
def start (p : Path) : Except DiskFault Trail :=
  if p.text.isEmpty then .error .notFound
  else if p.isAbsolute then .ok d.top
  else walk d.top d.current

/-- The place at the end of a path. -/
def locate (p : Path) : Except DiskFault Trail := do
  walk (← d.start p) p.stretches

/-- There is something at the end of a path. -/
def has (p : Path) : Bool :=
  match d.locate p with
  | .ok _ => true
  | .error _ => false

/-- The names in a directory. -/
def directory? (p : Path) : Option (List (String × Node)) :=
  match d.locate p with
  | .ok t =>
    match t.node with
    | .directory entries => some entries
    | .file _ _ => none
  | .error _ => none

/-- The bytes of a file. -/
def read (p : Path) : Except DiskFault (List UInt8) := do
  match (← d.locate p).node with
  | .file bytes _ => return bytes
  | .directory _ => .error .isDirectory

/-- When a file was last changed. Directories are not watched and have no time. -/
def modified? (p : Path) : Option Timestamp :=
  match d.locate p with
  | .ok t =>
    match t.node with
    | .file _ modified => some modified
    | .directory _ => none
  | .error _ => none

/-- The path from the root, without any dots. -/
def canonical (p : Path) : Except DiskFault Path :=
  (d.locate p).map fun t => ⟨"/" ++ "/".intercalate t.names⟩

/-! ## Changes -/

/-- The pieces of a path without those at the end that are empty. -/
def bareStretches (p : Path) : List String :=
  (p.stretches.reverse.dropWhile String.isEmpty).reverse

/-- Writes a file. Its directory must be there. -/
def write (p : Path) (bytes : List UInt8) (now : Timestamp) : Except DiskFault Disk := do
  let pieces := bareStretches p
  match pieces.getLast? with
  | none => .error (if p.text.isEmpty then .notFound else .isDirectory)
  | some name =>
    let above ← walk (← d.start p) pieces.dropLast
    if !above.node.isDirectory then .error .notDirectory
    -- the path of a directory, by its name or by a separator at its end
    else if name == "." || name == ".." || pieces.length < p.stretches.length then
      .error .isDirectory
    else
      match above.node.child? name with
      | some (.directory _) => .error .isDirectory
      | _ => return { d with root := Trail.rebuild (above.node.put name (.file bytes now)) above }

/-- The directory in which the file at the end of some names has given contents; directories are
made where there are none. -/
def putIn (file : Node) : List String → Node → Node
  | [], _ => file
  | name :: rest, node =>
    let within := (node.child? name).getD (.directory [])
    (if node.isDirectory then node else .directory []).put name (putIn file rest within)

/-- The names from the root that a path comes to, step by step, whatever is there. -/
def namesOf (p : Path) : List String :=
  p.components.foldl
    (fun names c =>
      match c with
      | .root => []
      | .current => names
      | .parent => names.dropLast
      | .named name => names ++ [name])
    d.current

/-- Puts a file, with the directories on the way. -/
def put (p : Path) (bytes : List UInt8) (modified : Timestamp) : Disk :=
  { d with root := putIn (.file bytes modified) (d.namesOf p) d.root }

/-- Gives a file another time. -/
def touch (p : Path) (modified : Timestamp) : Disk :=
  match d.locate p with
  | .ok t =>
    match t.node with
    | .file bytes _ => { d with root := Trail.rebuild (.file bytes modified) t }
    | .directory _ => d
  | .error _ => d

/-- Drops a file, or a directory with all that is in it. -/
def delete (p : Path) : Disk :=
  match d.locate p with
  | .ok ((name, _) :: above :: rest) =>
    { d with root := Trail.rebuild (above.2.drop name) (above :: rest) }
  | _ => d

end Disk

end DocIndex
