import DocIndex.CommandLine.Basic

/-!
# What stands on a command line

* `Switch` — what is said by being there.
* `Choice` — what is given a value by its name.
* `Slot` — what is given by its place.
* `Verb.choices`, `Verb.slots` — those of each verb.
-/

namespace DocIndex

/-- What is said by being there. -/
inductive Switch
  | verbose
  | help
  | version
  deriving DecidableEq, Repr

namespace Switch

/-- The long name. -/
def long : Switch → String
  | verbose => "verbose"
  | help => "help"
  | version => "version"

/-- The short name. -/
def short : Switch → Char
  | verbose => 'v'
  | help => 'h'
  | version => 'V'

/-- The switches that may stand behind a verb, or in front of it. -/
def available : Option Verb → List Switch
  | none => [verbose, help, version]
  | some _ => [verbose, help]

end Switch

/-- Which texts are values. -/
inductive ValueKind
  | text
  | path
  | format
  deriving DecidableEq, Repr

/-- A text is a value: of a path all but the empty one are, and forms go by their names. -/
def ValueKind.accepts : ValueKind → String → Bool
  | text, _ => true
  | path, value => !value.isEmpty
  | format, value => (ReportFormat.ofName? value).isSome

/-- What is given a value by its name. -/
structure Choice where
  short : Char
  long : String
  kind : ValueKind
  /-- The value that holds if none is given. -/
  standard : Option String
  about : String
  deriving DecidableEq, Repr

/-- How many words a slot takes. -/
inductive Arity
  /-- One word, which has to be there. -/
  | one
  /-- One word or none. -/
  | optional
  /-- One word or more. -/
  | several
  /-- Any number of words, all behind two dashes. -/
  | trailing
  deriving DecidableEq, Repr

/-- What is given by its place. -/
structure Slot where
  name : String
  arity : Arity
  kind : ValueKind
  /-- The value that holds if none is given. -/
  standard : Option String
  about : String
  deriving DecidableEq, Repr

namespace Choice

/-- The form of the report. -/
def format : Choice :=
  ⟨'f', "format", .format, none, "Output format"⟩

/-- The file that holds the configuration. -/
def config : Choice :=
  ⟨'c', "config", .path, none, "Path to config file"⟩

/-- The module. -/
def moduleName : Choice :=
  ⟨'m', "module", .text, some "", "Module name"⟩

/-- The root of the project. -/
def root : Choice :=
  ⟨'r', "root", .path, some ".", "Project root directory"⟩

/-- The document on behalf of which a comment is looked up. -/
def document : Choice :=
  ⟨'d', "document", .text, none, "Record the lookup as a dependency of this document"⟩

/-- The namespace; what is told about it depends on the verb. -/
def scope (about : String) : Choice :=
  ⟨'n', "namespace", .text, some "", about⟩

end Choice

namespace Verb

/-- What a verb is given by name. -/
def choices : Verb → List Choice
  | scan | index => [.format, .config]
  | query =>
    [.scope "Enclosing namespace, `::`-separated", .moduleName, .document, .root, .format, .config]
  | members =>
    [.scope "Namespace, `::`-separated (default: global scope)", .moduleName, .root, .format,
      .config]
  | watch => [.config]
  | init | help => []

/-- What a verb is given by place. -/
def slots : Verb → List Slot
  | scan =>
    [⟨"FILE", .one, .path, none, "Source file to scan"⟩,
      ⟨"ARGS", .trailing, .text, none,
        "Front-end arguments, e.g. -- -DEXPORT_API (default: from config)"⟩]
  | index => [⟨"PATH", .optional, .path, some ".", "Project root directory to scan"⟩]
  | query =>
    [⟨"DIRECTIVE", .one, .text, none,
        "Directive, e.g. function, struct, class, macro, cpp:member"⟩,
      ⟨"ARGUMENT", .several, .text, none, "Declaration signature as written after the directive"⟩]
  | watch => [⟨"PATH", .optional, .path, some ".", "Project root directory to watch"⟩]
  | members | init | help => []

end Verb

end DocIndex
