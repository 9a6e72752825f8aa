import DocIndex.Report.Basic

/-!
# Command lines

* `Command` — what the program can be asked to do.
* `Invocation` — a command and how much to tell of the work on it.
* `Stop` — why there is no command to follow.
-/

namespace DocIndex

/-- How to report, and by which configuration. -/
structure Output where
  /-- The form, if one is asked for. -/
  format : Option ReportFormat
  /-- The file that holds the configuration, if one is named. -/
  config : Option Path
  deriving DecidableEq, Repr, Inhabited

/-- What the program can be asked to do. -/
inductive Command
  /-- Tells what the comments of one file document. Arguments that are given stand for those of the
  configuration. -/
  | scan (file : Path) (args : List String) (output : Output)
  /-- Brings the index of a project up to date and tells what it holds. -/
  | index (root : Path) (output : Output)
  /-- Looks up a comment, be it on behalf of a document. The words make up the signature. -/
  | query (directive : String) (words : List String) (scope : DocScope) (document : Option String)
      (root : Path) (output : Output)
  /-- Lists what is documented within a scope. -/
  | members (scope : DocScope) (root : Path) (output : Output)
  /-- Keeps the index of a project up to date. -/
  | watch (root : Path) (config : Option Path)
  /-- Writes a configuration to start from. -/
  | init
  deriving DecidableEq, Repr, Inhabited

/-- A command, and how much to tell of the work on it. -/
structure Invocation where
  verbosity : Nat
  command : Command
  deriving DecidableEq, Repr, Inhabited

/-- The words that name what to do. -/
inductive Verb
  | scan
  | index
  | query
  | members
  | watch
  | init
  | help
  deriving DecidableEq, Repr, Inhabited

namespace Verb

/-- All verbs, in the order in which they are told. -/
def all : List Verb :=
  [scan, index, query, members, watch, init, help]

/-- The word for a verb. -/
def name : Verb → String
  | scan => "scan"
  | index => "index"
  | query => "query"
  | members => "members"
  | watch => "watch"
  | init => "init"
  | help => "help"

/-- The verb that a word names. -/
def ofName? (word : String) : Option Verb :=
  all.find? fun v => v.name == word

end Verb

/-- Why there is no command to follow. -/
inductive Stop
  /-- Help is asked for, on a verb or on everything. -/
  | help (topic : Option Verb)
  /-- The version is asked for. -/
  | version
  /-- Nothing is said. -/
  | nothing
  /-- No verb is said. -/
  | missingVerb
  /-- A word that is no verb stands for one. -/
  | unknownVerb
  /-- There is no place for a word. -/
  | unknownWord
  /-- A switch comes with a value. -/
  | needlessValue
  /-- A value is missing or not of the right kind. -/
  | badValue
  /-- An option is given twice. -/
  | repeated
  /-- A word that has to be there is missing. -/
  | missingWord
  deriving DecidableEq, Repr

end DocIndex
