import DocIndex.Glob.Reader
import DocIndex.Project.Config

/-!
# The files of a project

`Config.watched` lists the files that a configuration selects below the root of a project, in order.

* `Filters` — which paths to pass over and which to take.
* `Filters.select` — the files of some directory entries that are taken.
-/

namespace DocIndex

/-- Which paths to pass over and which to take. -/
structure Filters where
  /-- Passes over a file, or a directory with all that is in it. -/
  ignores : Path → Bool
  /-- Passes over a file. -/
  ignoresFile : Path → Bool
  /-- Takes a file. -/
  takes : Path → Bool

namespace Filters

variable (f : Filters)

mutual

/-- The files that are taken of those at or below a path. -/
def selectAt (path : Path) (node : Node) : List Path :=
  if f.ignores path then []
  else
    match node with
    | .file _ _ => if !f.ignoresFile path && f.takes path then [path] else []
    | .directory entries => select path entries

/-- The files that are taken of those below a directory with these entries. -/
def select (directory : Path) (entries : List (String × Node)) : List Path :=
  match entries with
  | [] => []
  | (name, node) :: entries =>
    selectAt (directory.join ⟨name⟩) node ++ select directory entries

end

end Filters

/-- One of the patterns accepts the last component of a path, or its way from the root. -/
def acceptsPath (globs : List Glob) (root path : Path) : Bool :=
  (path.fileName?.any (Glob.anyAccepts globs)) ||
    ((path.relativeTo? root).any fun p => Glob.anyAccepts globs p.text)

/-- What a configuration says of the paths below a root. -/
def Config.filters (c : Config) (root : Path) : Filters :=
  let ignored := Glob.readAll c.ignored
  let ignoredFiles := Glob.readAll c.ignoredFiles
  let sources := Glob.readAll c.sources
  { ignores := acceptsPath ignored root
    ignoresFile := acceptsPath ignoredFiles root
    takes := acceptsPath sources root }

/-- The files of a project that are taken, in order. -/
def Filters.files (f : Filters) (d : Disk) (root : Path) : List Path :=
  (f.select root ((d.directory? root).getD [])).mergeSort fun a b => (compare a b).isLE

/-- The files that a configuration selects below a root, in order. -/
def Config.watched (c : Config) (d : Disk) (root : Path) : List Path :=
  (c.filters root).files d root

end DocIndex
