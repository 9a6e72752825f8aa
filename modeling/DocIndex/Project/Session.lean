import DocIndex.Index.Cache
import DocIndex.Index.Query
import DocIndex.Project.Update
import DocIndex.Project.Walk

/-!
# Sessions

A `Session` is the work on one project from the reading of its cached index to its writing.

* `Session.start` — with the cached index, if there is one that can be read.
* `Session.refresh`, `Session.refreshWith` — brings the index up to date.
* `Session.close` — writes the index into the cache.
-/

namespace DocIndex

/-- The work on one project. -/
structure Session where
  root : Path
  config : Config
  index : Index

/-- Where the index of a project is cached, if anywhere. -/
def Config.cacheFile? (c : Config) (root : Path) : Option Path :=
  if c.cache.text.isEmpty then none else some (root.join c.cache)

/-- The cached index of a project, if there is one that can be read. -/
def Config.cached? (c : Config) (d : Disk) (root : Path) : Option Index :=
  (c.cacheFile? root).bind fun path =>
    match Index.load d path with
    | .ok x => x
    -- the cache only saves work: one that cannot be read is as good as none
    | .error _ => none

namespace Session

/-- A session that starts from the cached index, or else from an empty one. -/
def start (d : Disk) (root : Path) (config : Config) : Session :=
  { root, config, index := (config.cached? d root).getD .empty }

variable (s : Session)

/-- Brings the index up to date with the watched files. -/
def refreshWith (d : Disk) (watched : List Path) : Session × Update :=
  let u := s.index.update s.config s.root d watched
  ({ s with index := u.index }, u)

/-- Brings the index up to date with the files that the configuration selects. -/
def refresh (d : Disk) : Session × Update :=
  s.refreshWith d (s.config.watched d s.root)

/-- Looks up a comment. -/
def query (context : DocContext) (signature : String) : Answer :=
  s.index.query s.config.query context signature

/-- Looks up a comment on behalf of a document. -/
def lookup (document : String) (context : DocContext) (signature : String) :
    Session × Answer :=
  let (x, answer) := s.index.lookup s.config.query document context signature
  ({ s with index := x }, answer)

/-- Forgets what a document rests on. -/
def forget (document : String) : Session :=
  { s with index := s.index.forget document }

/-- Ends the session: the disk with the index in the cache, if there is a cache. -/
def close (d : Disk) (now : Timestamp) : Except Error Disk :=
  match s.config.cacheFile? s.root with
  | none => .ok d
  | some path => s.index.save d path now

end Session

end DocIndex
