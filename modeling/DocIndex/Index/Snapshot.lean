import DocIndex.Comment.Stored
import DocIndex.Index.Basic
import DocIndex.Json.Printer
import DocIndex.Json.Reader

/-!
# Snapshots

How an index is written down, and read back.

* `Index.snapshot` — the index as text. It fails where a file was changed before 1970.
* `Index.ofSnapshot` — the index that some bytes spell, or none if another version of the format
  wrote them. Files are added one by one, so that a snapshot whose comments contradict each other
  fails just as the files themselves would.
-/

namespace DocIndex

open Std (TreeMap TreeSet)

/-- The version of the format. -/
def snapshotVersion : Nat :=
  1

namespace Index

/-- The files, as they are written down. -/
def filesJson? (files : TreeMap Path FileComments) : Option Json :=
  (files.toList.mapM fun (e : Path × FileComments) =>
    e.2.toJson?.map fun j => (e.1.text, j)).map .object

/-- What documents rest on, as it is written down. -/
def referencesJson (references : TreeMap String (TreeSet Path)) : Json :=
  .object
    (references.toList.map fun e => (e.1, .strings (e.2.toList.map Path.text)))

/-- The index, as it is written down. -/
def toJson? (x : Index) : Option Json :=
  (filesJson? x.files).map fun files =>
    .object
      [("version", .nat snapshotVersion),
        ("files", files),
        ("references", referencesJson x.references),
        ("pending", .strings x.pending.toList)]

/-- The text of a snapshot. -/
def snapshot (x : Index) : Except Error String :=
  match x.toJson? with
  | some j => .ok j.compact
  | none => .error (.snapshot .early)

/-! ## Reading back -/

/-- A set from a list; of two equal items the first one stays. -/
def setOf {α : Type} [Ord α] (items : List α) : TreeSet α :=
  items.foldl TreeSet.insert ∅

/-- A map with an entry. The spelling of a path that is there stays. -/
def putFile (files : TreeMap Path FileComments) (entry : Path × FileComments) :
    TreeMap Path FileComments :=
  files.insert (files.getKeyD entry.1 entry.1) entry.2

/-- Reads the files of a snapshot. -/
def filesOfJson? (j : Json) : Option (TreeMap Path FileComments) :=
  (j.map? FileComments.ofJson?).map fun entries =>
    (entries.map fun e => (⟨e.1⟩, e.2)).foldl putFile ∅

/-- Reads paths. -/
def pathsOfJson? (j : Json) : Option (TreeSet Path) :=
  (j.list? Json.text?).map fun paths => setOf (paths.map Path.mk)

/-- Reads what documents rest on. -/
def referencesOfJson? (j : Json) : Option (TreeMap String (TreeSet Path)) :=
  (j.map? pathsOfJson?).map fun entries => entries.foldl (fun m e => m.insert e.1 e.2) ∅

/-- What a snapshot holds. -/
structure Stored where
  version : Nat
  files : TreeMap Path FileComments
  references : TreeMap String (TreeSet Path)
  pending : Documents

/-- Reads a snapshot; the documents held back may be missing. -/
def Stored.ofJson? (j : Json) : Option Stored := do
  match ← j.record? ["version", "files", "references", "pending"] with
  | [some version, some files, some references, pending] =>
    return {
      version := ← version.nat? 0xFFFFFFFF
      files := ← filesOfJson? files
      references := ← referencesOfJson? references
      pending := setOf (← (pending.getD (.array [])).list? Json.text?) }
  | _ => none

/-- The index that a snapshot spells. -/
def ofStored (s : Stored) : Except Error Index := do
  let x ← s.files.toList.foldlM (fun x e => x.add e.1 e.2) empty
  return { x with references := s.references, pending := s.pending }

/-- Reads an index from the bytes of a snapshot; none is as good as a snapshot of another
version. -/
def ofSnapshot (bytes : List UInt8) : Except Error (Option Index) :=
  match (Json.read? bytes).bind Stored.ofJson? with
  | none => .error (.snapshot .malformed)
  -- the version counts only once all of the snapshot could be read
  | some s => if s.version = snapshotVersion then (ofStored s).map some else .ok none

end Index

end DocIndex
