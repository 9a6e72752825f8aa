import DocIndex.CommandLine.Shape

/-!
# Help

`helpText` tells how to write a command line: the verbs, or what belongs to one of them.
-/

namespace DocIndex

/-- The name of the program. -/
def programName : String :=
  "doccomb"

/-- The version of the program, as it is told. -/
def versionText : String :=
  programName ++ " 0.1.0\n"

/-- What a verb does. -/
def Verb.about : Verb → String
  | .scan => "Scan one file and print what its comments document"
  | .index => "Index a project and report what was found"
  | .query => "Look up the comment documenting a declaration"
  | .members => "List everything documented directly inside a namespace"
  | .watch => "Keep the index current while files change"
  | .init => "Create a default .doccombrc.toml"
  | .help => "Print this message or the help of the given subcommand(s)"

namespace Help

/-- A row of a table: what is written, and what it means. -/
structure Row where
  written : String
  meaning : String

/-- The lines of a table under a title; none, if it has no rows. -/
def table (title : String) (rows : List Row) : List String :=
  let width := ((rows.map fun r => r.written.length).max?).getD 0
  if rows.isEmpty then []
  else
    "" :: (title ++ ":") :: rows.map fun r =>
      "  " ++ r.written ++ String.ofList (List.replicate (width - r.written.length) ' ') ++ "  " ++
        r.meaning

/-- What is told of a standard value. -/
def standardText (standard : Option String) : String :=
  (standard.map fun v => " [default: " ++ v ++ "]").getD ""

/-- What is told of the values of a kind. -/
def valuesText : ValueKind → String
  | .format => " [possible values: text, json]"
  | .text | .path => ""

/-- A name between brackets. -/
def angled (name : String) : String :=
  "<" ++ name ++ ">"

/-- A name between square brackets. -/
def squared (name : String) : String :=
  "[" ++ name ++ "]"

/-- The row of a slot. -/
def slotRow (s : Slot) : Row :=
  { written :=
      match s.arity with
      | .one => angled s.name
      | .optional => squared s.name
      | .several => angled s.name ++ "..."
      | .trailing => squared s.name ++ "..."
    meaning := s.about ++ standardText s.standard }

/-- How a slot is written on a command line. -/
def slotUsage (s : Slot) : String :=
  if s.arity == .trailing then squared ("-- " ++ angled s.name ++ "...") else (slotRow s).written

/-- The row of a choice. -/
def choiceRow (c : Choice) : Row :=
  { written :=
      "-" ++ c.short.toString ++ ", --" ++ c.long ++ " " ++
        angled (String.ofList (c.long.toList.map Char.toUpper))
    meaning := c.about ++ standardText c.standard ++ valuesText c.kind }

/-- The row of a switch. -/
def switchRow : Switch → Row
  | .verbose =>
    ⟨"-v, --verbose...", "Log more (-v debug, -vv trace). RUST_LOG takes precedence"⟩
  | .help => ⟨"-h, --help", "Print help"⟩
  | .version => ⟨"-V, --version", "Print version"⟩

/-- The rows of a verb's options: the first choice, the verbosity, then all others. -/
def optionRows (v : Verb) : List Row :=
  let rows := v.choices.map choiceRow
  rows.take 1 ++ [switchRow .verbose] ++ rows.drop 1 ++ [switchRow .help]

/-- The lines on a verb. -/
def verbLines (v : Verb) : List String :=
  [v.about, "",
    " ".intercalate
      (["Usage:", programName, v.name, "[OPTIONS]"] ++ v.slots.map slotUsage)] ++
    table "Arguments" (v.slots.map slotRow) ++ table "Options" (optionRows v)

/-- The lines on the verb that asks for help. -/
def helpLines : List String :=
  [Verb.help.about, "", "Usage: " ++ programName ++ " help [COMMAND]..."] ++
    table "Arguments" [⟨"[COMMAND]...", "Print help for the subcommand(s)"⟩]

/-- The lines on the whole program. -/
def programLines : List String :=
  ["Index /// documentation comments in C and C++ sources", "",
    "Usage: " ++ programName ++ " [OPTIONS] <COMMAND>"] ++
    table "Commands" (Verb.all.map fun v => ⟨v.name, v.about⟩) ++
    table "Options" ((Switch.available none).map switchRow)

end Help

/-- How to write a command line. -/
def helpText (topic : Option Verb) : String :=
  let lines :=
    match topic with
    | none => Help.programLines
    | some .help => Help.helpLines
    | some v => Help.verbLines v
  String.join (lines.map (· ++ "\n"))

end DocIndex
