import DocIndex.Disk
import DocIndex.Index.Snapshot

/-!
# Keeping an index on disk

* `Index.save` — writes an index into a file.
* `Index.load` — reads it back. Where there is no file, there is no index.
-/

namespace DocIndex

namespace Index

/-- Writes a snapshot of the index. -/
def save (x : Index) (d : Disk) (path : Path) (now : Timestamp) : Except Error Disk := do
  let text ← x.snapshot
  (d.write path text.toUTF8.toList now).mapError (.disk path)

/-- Reads the index that a file holds. -/
def load (d : Disk) (path : Path) : Except Error (Option Index) :=
  match d.read path with
  | .ok bytes => ofSnapshot bytes
  | .error .notFound => .ok none
  | .error fault => .error (.disk path fault)

end Index

end DocIndex
