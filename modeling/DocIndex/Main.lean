import DocIndex.Program

/-!
# The command line program

Takes as much of the file system into a `Disk` as a command depends on, runs the command, and writes
back the file that it wrote.
-/

namespace DocIndex

/-- The time of a file. -/
def timestampOf (t : IO.FS.SystemTime) : Timestamp :=
  { seconds := t.sec, nanoseconds := t.nsec.toNat }

/-- What is at a place of the file system, files without their bytes. -/
partial def outlineAt (entry : IO.FS.DirEntry) : IO (Option Node) := do
  try
    let data ← entry.path.metadata
    if data.type == .dir then
      let mut entries := []
      for inner in ← entry.path.readDir do
        if let some node ← outlineAt inner then
          entries := (inner.fileName, node) :: entries
      return some (.directory entries)
    else
      return some (.file [] (timestampOf data.modified))
  catch _ =>
    return none

/-- The names on the way to an absolute path. -/
def namesOnWay (path : String) : List String :=
  (path.splitOn "/").filter fun name => !name.isEmpty

/-- The disk with what the file system has at a path. A path that leads through links is kept as it
is written, too. -/
def showing (d : Disk) (p : Path) : IO Disk := do
  try
    let real := (← IO.FS.realPath p.text).toString
    if let some node ← outlineAt { root := "/", fileName := real } then
      let e := { d with root := Disk.putIn node (namesOnWay real) d.root }
      return if e.has p then e else { e with root := Disk.putIn node (d.namesOf p) e.root }
    return d
  catch _ =>
    return d

/-- The disk with the bytes of a file. -/
def withBytes (d : Disk) (p : Path) : IO Disk := do
  try
    let bytes ← IO.FS.readBinFile p.text
    return d.put p bytes.toList ((d.modified? p).getD { seconds := 0, nanoseconds := 0 })
  catch _ =>
    return d

/-- The paths that a command is given. -/
def Command.given (c : Command) : List Path :=
  match c with
  | .scan file _ output => [file, Config.fileName] ++ output.config.toList
  | .index root output | .query _ _ _ _ root output | .members _ root output =>
    root :: output.config.toList
  | .watch root config => root :: config.toList
  | .init => [Config.fileName]

/-- The part of the file system that a command depends on, files without their bytes but for the
configuration. -/
def outlineFor (c : Command) : IO Disk := do
  let current := namesOnWay (← IO.currentDir).toString
  let empty : Disk := { root := Disk.putIn (.directory []) current (.directory []), current }
  let seen ← c.given.foldlM showing empty
  (c.settings? seen).toList.foldlM withBytes seen

/-- The part of the file system that a command depends on. -/
def diskFor (c : Command) : IO Disk := do
  let outline ← outlineFor c
  (c.reads outline).foldlM withBytes outline

/-- The least level that is told at a verbosity. -/
def told (verbosity : Nat) (l : LogLine) : Bool :=
  match l.level with
  | .error | .warn => true
  | .info | .debug => verbosity > 0

/-- Prints what a command led to and writes its file. -/
def finish (r : RunResult) (verbosity : Nat) : IO UInt32 := do
  for line in r.logs do
    if told verbosity line then
      IO.eprintln (line.level.name ++ " " ++ line.message)
  if let some p := r.written then
    if let .ok bytes := r.disk.read p then
      IO.FS.writeBinFile p.text (ByteArray.mk bytes.toArray)
  IO.print r.output
  IO.eprint r.errors
  return UInt32.ofNat r.exit

/-- Brings a session up to date whenever a watched file has changed. -/
partial def watchFrom (c : Command) (s : Session) (seen : List (Path × Option Timestamp)) :
    IO Unit := do
  IO.sleep 250
  let outline ← outlineFor c
  let now := s.sighting outline
  if now == seen then watchFrom c s seen
  else
    let (t, output, errors) := s.again (← (c.reads outline).foldlM withBytes outline)
    IO.print output
    IO.eprint errors
    watchFrom c t now

/-- Runs a command. Watching goes on until the program is ended. -/
def runCommand (i : Invocation) : IO UInt32 := do
  let d ← diskFor i.command
  let r := i.command.run d { seconds := 0, nanoseconds := 0 }
  let exit ← finish r i.verbosity
  if let .watch root config := i.command then
    if let .ok o := Project.start r.disk (r.disk.resolve root) config then
      watchFrom i.command o.session (o.session.sighting r.disk)
  return exit

/-- Runs the command line. -/
def runMain (words : List String) : IO UInt32 := do
  match Invocation.read words with
  | .error s => finish (s.result default) 0
  | .ok i => runCommand i

end DocIndex

/-- The program. -/
def main (words : List String) : IO UInt32 :=
  DocIndex.runMain words
