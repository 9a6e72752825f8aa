import DocIndex.Comment.File
import DocIndex.Index.Basic
import DocIndex.Index.Snapshot
import DocIndex.Project.Config

/-!
# Bringing an index up to date

`Index.update` makes an index agree with files on disk. Files that are no longer watched or were
changed are removed; then every watched file that is missing is scanned, and what it holds is added.
It answers with the documents that rested on removed files.

Where a scan or an addition fails, the index holds these documents back, and the next update that
succeeds answers with them.
-/

namespace DocIndex

open Std (TreeSet)

/-- The arguments for a file: those of its way from the root. -/
def Config.argsAt (c : Config) (root path : Path) : List String :=
  c.argsOf ((path.relativeTo? root).getD path)

/-- What an update leads to, and what was told on the way. -/
structure Update where
  index : Index
  result : Except Error Documents
  logs : List LogLine

namespace Index

variable (x : Index)

/-- The file at a path has the time that the index knows. -/
def isCurrent (d : Disk) (path : Path) (content : FileComments) : Bool :=
  d.modified? path == some content.modified

/-- The indexed files that are no longer watched or were changed. -/
def stalePaths (d : Disk) (watched : TreeSet Path) : List Path :=
  (x.files.toList.filter fun e => !(watched.contains e.1 && isCurrent d e.1 e.2)).map Prod.fst

/-- The index without a file, holding back the documents that rested on it. -/
def discard (path : Path) : Index :=
  let (y, documents) := x.remove path
  y.defer documents

/-- The watched files that are not in the index. -/
def missingPaths (watched : List Path) : List Path :=
  watched.filter fun p => (x.file? p).isNone

/-- Adds files one after another, up to the first that fails. The second part tells why it
failed. -/
def addScans (x : Index) : List (Path × FileScan) → Index × Option Error
  | [] => (x, none)
  | (path, scan) :: rest =>
    match scan.result.bind (x.add path) with
    | .ok y => addScans y rest
    | .error e => (x, some e)

/-- What is told of scans: a single one is told in full, several at once are not. -/
def scanLogs (scans : List (Path × FileScan)) : List LogLine :=
  match scans with
  | [(_, scan)] => scan.logs
  | _ => []

/-- What is told of an update that succeeds, unless it did nothing. -/
def updateLogs (scanned removed : Nat) (documents : Documents) : List LogLine :=
  if scanned = 0 && removed = 0 then []
  else
    [{ level := .info
       message :=
        toString scanned ++ " files scanned, " ++ toString removed ++ " removed, " ++
          toString documents.size ++ " documents invalidated" }]

/-- Makes the index agree with the watched files. -/
def update (c : Config) (root : Path) (d : Disk) (watched : List Path) : Update :=
  -- removing comes first, so that a comment which moved to another file is no duplicate
  let stale := x.stalePaths d (setOf watched)
  let y := stale.foldl discard x
  let scans :=
    (y.missingPaths watched).map fun p => (p, d.scan p (c.argsAt root p) c.scan)
  match y.addScans scans with
  | (z, some e) => { index := z, result := .error e, logs := scanLogs scans }
  | (z, none) =>
    let (z, documents) := z.releasePending
    { index := z
      result := .ok documents
      logs := scanLogs scans ++ updateLogs scans.length stale.length documents }

end Index

end DocIndex
