import DocIndex.Comment.Scan
import DocIndex.Disk
import DocIndex.Source.Decode

/-!
# Scanning a file on disk

`Disk.scan` reads the file at a path and pairs its comments with what they document.
-/

namespace DocIndex

/-- What the scan of a file on disk leads to, and what was told on the way. -/
structure FileScan where
  result : Except Error FileComments
  logs : List LogLine

/-- Scans the file at a path. -/
def Disk.scan (d : Disk) (path : Path) (args : List String) (options : ScanOptions) : FileScan :=
  match d.read path with
  | .error fault => { result := .error (.disk path fault), logs := [] }
  | .ok bytes =>
    let modified := (d.modified? path).getD { seconds := 0, nanoseconds := 0 }
    let scan := (parseBytes path bytes args).scan modified options
    { result := scan.result.mapError .scan, logs := scan.logs }

end DocIndex
