import DocIndex.Comment.Scan
import DocIndex.Disk
import DocIndex.Report.Basic
import DocIndex.Text.Utf8
import DocIndex.Toml.Decode
import DocIndex.Toml.Reader

/-!
# Configuration

What can be chosen about a project, and where it is read from.

* `Config.ofText?` — reads a configuration. What it does not say has a default.
* `Config.load` — reads the configuration of a project, from a given file or from the one in its
  root. Without either, all defaults hold.
* `Config.template` — a configuration to start from.
-/

namespace DocIndex

open Std (TreeMap)

/-- What can be chosen about a project. -/
structure Config where
  /-- The form of reports, unless a form is asked for. -/
  format : ReportFormat
  /-- The files to scan, as patterns. -/
  sources : List String
  /-- The files and directories to pass over, as patterns. -/
  ignored : List String
  /-- The files to pass over, as patterns. -/
  ignoredFiles : List String
  /-- The arguments for files that have none of their own. -/
  defaultArgs : List String
  /-- The arguments of single files, by their way from the root. -/
  fileArgs : TreeMap Path (List String)
  /-- Where the snapshot is kept, from the root; nowhere, if it is empty. -/
  cache : Path
  scan : ScanOptions
  query : QueryOptions

namespace Config

/-- What holds where nothing is said. -/
def default : Config :=
  { format := .text
    sources :=
      ["**/*.h", "**/*.hh", "**/*.hpp", "**/*.hxx", "**/*.c", "**/*.cc", "**/*.cpp", "**/*.cxx"]
    ignored := [".git", "build", "target", "node_modules"]
    ignoredFiles := []
    defaultArgs := []
    fileArgs := ∅
    cache := ⟨".doccomb-cache.json"⟩
    scan := { explicitNamespace := true }
    query := { maxSuggestions := 3, cutoff := 0.6 } }

instance : Inhabited Config :=
  ⟨default⟩

/-- The arguments for the file at a way from the root. -/
def argsOf (c : Config) (relative : Path) : List String :=
  c.fileArgs.getD relative c.defaultArgs

/-! ## Reading -/

/-- Reads a form: its name, or a table whose one entry is the name and an empty table or array. -/
def format? : Toml → Option ReportFormat
  | .string name => ReportFormat.ofName? name
  | .table _ [(name, .table _ [])] | .table _ [(name, .array [])] => ReportFormat.ofName? name
  | _ => none

/-- A map with the arguments of one more file. The spelling of a path that is there stays. -/
def putArgs (m : TreeMap Path (List String)) (e : Path × List String) :
    TreeMap Path (List String) :=
  m.insert (m.getKeyD e.1 e.1) e.2

/-- Reads the arguments of single files. -/
def fileArgs? : Toml → Option (TreeMap Path (List String))
  | .table _ entries =>
    (entries.mapM fun (e : String × Toml) =>
      e.2.texts?.map fun args => ((⟨e.1⟩ : Path), args)).map fun es => es.foldl putArgs ∅
  | _ => none

/-- Reads what is chosen about scanning. -/
def scan? (v : Toml) : Option ScanOptions := do
  match ← v.fields? ["explicit_directive_namespace"] with
  | [explicitNamespace] =>
    return {
      explicitNamespace :=
        ← Toml.fieldOr? Toml.boolean? default.scan.explicitNamespace explicitNamespace }
  | _ => none

/-- Reads what is chosen about suggestions. -/
def query? (v : Toml) : Option QueryOptions := do
  match ← v.fields? ["max_suggestions", "suggestion_cutoff"] with
  | [maxSuggestions, cutoff] =>
    return {
      maxSuggestions := ← Toml.fieldOr? Toml.nat? default.query.maxSuggestions maxSuggestions
      cutoff := ← Toml.fieldOr? Toml.number? default.query.cutoff cutoff }
  | _ => none

/-- Reads the entries of a configuration. -/
def ofEntries? (entries : Entries) : Option Config := do
  return {
    format := ← Toml.fieldOr? format? default.format (entries.lookup "format")
    sources := ← Toml.fieldOr? Toml.texts? default.sources (entries.lookup "include")
    ignored := ← Toml.fieldOr? Toml.texts? default.ignored (entries.lookup "ignore")
    ignoredFiles :=
      ← Toml.fieldOr? Toml.texts? default.ignoredFiles (entries.lookup "ignore_files")
    defaultArgs := ← Toml.fieldOr? Toml.texts? default.defaultArgs (entries.lookup "default_args")
    fileArgs := ← Toml.fieldOr? fileArgs? default.fileArgs (entries.lookup "file_args")
    cache := ⟨← Toml.fieldOr? Toml.text? default.cache.text (entries.lookup "cache")⟩
    scan := ← Toml.fieldOr? scan? default.scan (entries.lookup "scan")
    query := ← Toml.fieldOr? query? default.query (entries.lookup "query") }

/-- Reads a configuration. -/
def ofText? (cs : List Char) : Option Config :=
  (Toml.read? cs).bind ofEntries?

/-- The part of the configuration to start from that chooses files. -/
def templateFiles : String :=
  "# doccomb configuration

# Which files to scan for /// comments (glob patterns, case-insensitive).
include = [" ++ ", ".intercalate (default.sources.map fun p => "\"" ++ p ++ "\"") ++ "]

# Directories to ignore when scanning
ignore = [" ++ ", ".intercalate (default.ignored.map fun p => "\"" ++ p ++ "\"") ++ "]

# Individual files to skip entirely (supports glob patterns)
# ignore_files = [\"third_party/**\"]

# Front-end arguments for every file, e.g. macros to treat as known
# default_args = [\"-DEXPORT_API\"]
"

/-- The part of the configuration to start from that chooses what is done with files. -/
def templateWork : String :=
  "
# Output format when --format is not given: \"text\" or \"json\"
format = \"text\"

# Where to keep the index between runs. Set to \"\" to disable.
cache = \".doccomb-cache.json\"

# Per-file overrides of default_args
[file_args]
# \"src/legacy.hxx\" = [\"-DLEGACY_API\"]

[scan]
# Explicit `///.. directive:: argument` comments take the namespace of the
# declaration that follows them.
explicit_directive_namespace = true

[query]
max_suggestions = 3
suggestion_cutoff = 0.6
"

/-- A configuration to start from: it says what holds where nothing is said. -/
def template : String :=
  templateFiles ++ templateWork

/-! ## Loading -/

/-- The file in the root of a project that holds its configuration. -/
def fileName : Path :=
  ⟨".doccombrc.toml"⟩

/-- Why a configuration cannot be loaded. -/
inductive Fault
  | disk (fault : DiskFault)
  | notText
  | malformed
  deriving DecidableEq, Repr

/-- How a fault is told. -/
def Fault.message : Fault → String
  | disk fault => fault.message
  | notText => "stream did not contain valid UTF-8"
  | malformed => "Config parse error"

/-- Where the configuration of a project is, if it has one. -/
def locate? (d : Disk) (given : Option Path) (root : Path) : Option Path :=
  match given with
  | some p => some p
  | none =>
    let p := root.join fileName
    if d.has p then some p else none

/-- Loads the configuration of a project. -/
def load (d : Disk) (given : Option Path) (root : Path) : Except Fault Config :=
  match locate? d given root with
  | none => .ok default
  | some p =>
    match d.read p with
    | .error fault => .error (.disk fault)
    | .ok bytes =>
      match Text.decode? bytes with
      | none => .error .notText
      | some cs =>
        match ofText? cs with
        | none => .error .malformed
        | some c => .ok c

end Config

end DocIndex
