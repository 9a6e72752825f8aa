import DocIndex.CommandLine.Argument
import DocIndex.CommandLine.Help
import DocIndex.CommandLine.Reader
import DocIndex.Project.Session
import DocIndex.Report.Render

/-!
# The program

What a command does on a disk. A command on a project takes up the cached index, brings it up to
date, reports, and writes the index back.

* `Project.start` — the session that a command works in, up to date.
* `Command.run` — what a command leads to.
* `runProgram` — what a whole command line leads to.
* `Command.settings?`, `Command.reads` — the files that a command depends on.
-/

namespace DocIndex

/-- Why a command fails. -/
inductive Failure
  /-- The configuration cannot be loaded. -/
  | config (fault : Config.Fault)
  | work (error : Error)
  /-- A configuration to start from cannot be written. -/
  | disk (fault : DiskFault)
  deriving DecidableEq, Repr

namespace Failure

/-- How a failure is told. -/
def message : Failure → String
  | config fault => fault.message
  | work error => error.message
  | disk fault => fault.message

/-- What lies behind a failure, if it is not the whole of it. -/
def cause? : Failure → Option String
  | work error => error.cause?
  | config _ | disk _ => none

/-- A failure as it is printed. -/
def text (f : Failure) : String :=
  "Error: " ++ f.message ++ "\n" ++
    (f.cause?.map fun cause => "\nCaused by:\n    " ++ cause ++ "\n").getD ""

end Failure

/-! ## Watching -/

namespace Session

variable (s : Session)

/-- The files that are watched, and their times. -/
def sighting (d : Disk) : List (Path × Option Timestamp) :=
  (s.config.watched d s.root).map fun p => (p, d.modified? p)

/-- What is printed when a watched project was brought up to date. -/
def againText (x : Index) : String :=
  "Re-indexed: " ++ toString x.size ++ " documented declarations in " ++
    toString x.files.size ++ " files\n"

/-- Brings a watched project up to date: the session, the documents to be made again as they are
printed, and what is told. A failure is told, and the watching goes on. -/
def again (d : Disk) : Session × String × String :=
  let (t, update) := s.refresh d
  match update.result with
  | .ok documents => (t, String.join (documents.toList.map (· ++ "\n")), againText t.index)
  | .error e => (t, "", e.message ++ "\n")

end Session

/-! ## Running -/

/-- What a command line leads to. -/
structure RunResult where
  disk : Disk
  exit : Nat := 0
  /-- What is printed. -/
  output : String := ""
  /-- What is printed as an error. -/
  errors : String := ""
  /-- The file that was written, if any. -/
  written : Option Path := none
  logs : List LogLine := []

namespace RunResult

/-- A failure, after some output. -/
def failed (d : Disk) (output : String) (f : Failure) : RunResult :=
  { disk := d, exit := 1, output, errors := f.text }

end RunResult

/-- The path from the root of the disk; a path that leads nowhere stays as it is. -/
def Disk.resolve (d : Disk) (p : Path) : Path :=
  match d.canonical p with
  | .ok q => q
  | .error _ => p

/-- The directory that paths start from. -/
def Disk.home (d : Disk) : Path :=
  d.resolve ⟨"."⟩

namespace Project

/-- A session that is up to date, the documents to be made again, and what was told. -/
structure Opened where
  session : Session
  invalidated : Documents
  logs : List LogLine

/-- Takes up the work on a project and brings its index up to date. -/
def start (d : Disk) (root : Path) (config : Option Path) : Except Failure Opened := do
  let c ← (Config.load d config root).mapError .config
  let (session, update) := (Session.start d root c).refresh d
  let invalidated ← update.result.mapError .work
  return { session, invalidated, logs := update.logs }

/-- Reports and ends the work on a project. What is reported stays when the ending fails. -/
def close (o : Opened) (d : Disk) (now : Timestamp) (output : String) (exit : Nat) : RunResult :=
  match o.session.close d now with
  | .ok e =>
    { disk := e
      exit
      output
      written := o.session.config.cacheFile? o.session.root
      logs := o.logs }
  | .error e => { RunResult.failed d output (.work e) with logs := o.logs }

/-- Opens a project, reports on it in the session that `work` leaves, and closes it. -/
def report (d : Disk) (now : Timestamp) (root : Path) (output : Output)
    (work : Opened → Session × Report × Nat) : RunResult :=
  let root := d.resolve root
  match Project.start d root output.config with
  | .error f => .failed d "" f
  | .ok o =>
    let (session, report, exit) := work o
    -- the report counts as printed by the time the cache is written
    close { o with session } d now
      (report.render root (output.format.getD session.config.format)) exit

end Project

namespace Command

/-- Tells what the comments of one file document. -/
def runScan (d : Disk) (file : Path) (args : List String) (output : Output) : RunResult :=
  let root := d.home
  let file := d.resolve file
  match Config.load d output.config root with
  | .error f => .failed d "" (.config f)
  | .ok c =>
    let scan := d.scan file (if args.isEmpty then c.argsAt root file else args) c.scan
    match scan.result with
    | .error e => { RunResult.failed d "" (.work e) with logs := scan.logs }
    | .ok content =>
      { disk := d
        output := (Report.scan file content).render root (output.format.getD c.format)
        logs := scan.logs }

/-- Looks up a comment. Without one the command does not succeed. -/
def lookUp (request : Request) (document : Option String) (o : Project.Opened) :
    Session × Report × Nat :=
  let (session, answer) :=
    match document with
    | some document => o.session.lookup document request.context request.argument
    | none => (o.session, o.session.query request.context request.argument)
  (session, .query request answer, if answer.comment?.isNone then 1 else 0)

/-- Writes a configuration to start from, unless there is one. -/
def runInit (d : Disk) (now : Timestamp) : RunResult :=
  let name := Config.fileName
  if d.has name then { disk := d, exit := 1, errors := name.text ++ " already exists\n" }
  else
    match d.write name Config.template.toUTF8.toList now with
    | .error fault => .failed d "" (.disk fault)
    | .ok e => { disk := e, output := "Created " ++ name.text ++ "\n", written := some name }

/-- What is printed when the watching of a project begins. -/
def watchText (root : Path) (x : Index) : String :=
  "Watching " ++ root.text ++ " (" ++ toString x.files.size ++ " files indexed)\n"

/-- Brings the index of a project up to date. Going on to do so is left to who runs the command. -/
def runWatch (d : Disk) (now : Timestamp) (root : Path) (config : Option Path) : RunResult :=
  let root := d.resolve root
  match Project.start d root config with
  | .error f => .failed d "" f
  | .ok o => { Project.close o d now "" 0 with errors := watchText root o.session.index }

/-- What a command leads to at a given time. -/
def run (c : Command) (d : Disk) (now : Timestamp) : RunResult :=
  match c with
  | .scan file args output => runScan d file args output
  | .index root output =>
    Project.report d now root output fun o =>
      (o.session, .index o.session.index o.invalidated, 0)
  | .query directive words scope document root output =>
    let request : Request :=
      { directive
        argument := argumentOfWords words
        namespacePath := scope.namespacePath
        moduleName := scope.moduleName }
    Project.report d now root output (lookUp request document)
  | .members scope root output =>
    Project.report d now root output fun o =>
      (o.session, .members scope (o.session.index.members? scope), 0)
  | .watch root config => runWatch d now root config
  | .init => runInit d now

/-! ## What a command depends on -/

/-- The root of the project that a command works on, and the configuration that is named. -/
def project? (c : Command) (d : Disk) : Option (Path × Option Path) :=
  match c with
  | .scan _ _ output => some (d.home, output.config)
  | .index root output | .query _ _ _ _ root output | .members _ root output =>
    some (d.resolve root, output.config)
  | .watch root config => some (d.resolve root, config)
  | .init => none

/-- The file that holds the configuration, if there is one. -/
def settings? (c : Command) (d : Disk) : Option Path :=
  (c.project? d).bind fun (root, given) => Config.locate? d given root

/-- The files whose bytes a command depends on, given the configuration. -/
def reads (c : Command) (d : Disk) : List Path :=
  match c, c.project? d with
  | .scan file _ _, _ => [d.resolve file]
  | _, none => []
  | _, some (root, given) =>
    match Config.load d given root with
    | .error _ => []
    | .ok config => (config.cacheFile? root).toList ++ config.watched d root

end Command

namespace Stop

/-- How a command line that cannot be followed is told. -/
def message : Stop → String
  | missingVerb => "a command is missing"
  | unknownVerb => "there is no such command"
  | unknownWord => "there is no place for a word"
  | needlessValue => "a switch takes no value"
  | badValue => "a value is missing or not accepted"
  | repeated => "an option is given twice"
  | missingWord => "a word is missing"
  | help topic => helpText topic
  | version => versionText
  | nothing => helpText none

/-- What is printed where there is no command to follow. -/
def result (s : Stop) (d : Disk) : RunResult :=
  match s with
  | help _ | version => { disk := d, output := s.message }
  | nothing => { disk := d, exit := 2, errors := s.message }
  | _ => { disk := d, exit := 2, errors := "error: " ++ s.message ++ "\n" }

end Stop

/-- What the words behind the program's name lead to. -/
def runProgram (d : Disk) (now : Timestamp) (words : List String) : RunResult :=
  match Invocation.read words with
  | .error s => s.result d
  | .ok i => i.command.run d now

end DocIndex
