import DocIndex.Comment.Run

/-!
# What can go wrong

The causes for which an operation fails, and how each is told.
-/

namespace DocIndex

/-- Why a file cannot be read or written. -/
inductive DiskFault
  | notFound
  | notDirectory
  | isDirectory
  deriving DecidableEq, Repr

/-- How a fault is told. -/
def DiskFault.message : DiskFault → String
  | notFound => "No such file or directory (os error 2)"
  | notDirectory => "Not a directory (os error 20)"
  | isDirectory => "Is a directory (os error 21)"

/-- How a comment that cannot be read is told. -/
def ScanError.message : ScanError → String
  | interleaved location =>
    location.text ++ ": documentation comments may not be interleaved with block comments"
  | occupied pending => "a token is pending already: " ++ pending.spelling

/-- Why a snapshot cannot be written or read. -/
inductive SnapshotFault
  /-- A file was last changed before 1970. -/
  | early
  /-- The text spells no snapshot. -/
  | malformed
  deriving DecidableEq, Repr

/-- How a fault is told. -/
def SnapshotFault.message : SnapshotFault → String
  | early => "SystemTime must be later than UNIX_EPOCH"
  | malformed => "malformed snapshot"

/-- Why an operation fails. -/
inductive Error
  /-- A file cannot be read or written. -/
  | disk (path : Path) (fault : DiskFault)
  /-- The comments of a file cannot be read. -/
  | scan (cause : ScanError)
  /-- Two comments document the same thing. -/
  | duplicate (context : DocContext) (signature : String) (existing incoming : Location)
  /-- The file is in the index. -/
  | alreadyIndexed (path : Path)
  /-- A snapshot cannot be written or read. -/
  | snapshot (fault : SnapshotFault)
  deriving DecidableEq, Repr

namespace Error

/-- The scope of a context, if there is one. -/
def inScope (namespacePath : String) : String :=
  if namespacePath.isEmpty then "" else " in " ++ namespacePath

/-- How an error is told. -/
def message : Error → String
  | disk path fault => path.text ++ ": " ++ fault.message
  | scan cause => cause.message
  | duplicate context signature existing incoming =>
    "duplicate /// for " ++ context.directive.name ++ " `" ++ signature ++ "`" ++
      inScope context.namespacePath ++ ":\n  " ++ existing.text ++ "\n  vs\n  " ++ incoming.text
  | alreadyIndexed path =>
    path.text ++ " is already indexed; remove it before adding it again"
  | snapshot fault => "unreadable index cache: " ++ fault.message

/-- What lies behind an error, if it is not the whole of it. -/
def cause? : Error → Option String
  | disk _ fault => some fault.message
  | snapshot fault => some fault.message
  | _ => none

end Error

end DocIndex
