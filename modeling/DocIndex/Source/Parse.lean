import DocIndex.Outline.Reading
import DocIndex.Source.Unit

/-!
# Reading source text

`parseText` turns a text into a source unit: cuts it into lexemes, recognises its outline,
and gives cursors and lexemes their places. It always succeeds; what is wrong with the text is told
in diagnostics.

* `Macros.ofArguments` — the macros that arguments define.
-/

namespace DocIndex

/-- How a problem at a place in a file is reported. -/
def diagnostic (path : Path) (place : Place) (severity message : String) : String :=
  path.text ++ ":" ++ toString place.line ++ ":" ++ toString place.column ++ ": " ++ severity ++
    ": " ++ message

namespace Macros

/-- The definition in `NAME`, `NAME=value`, or `NAME(parameters)=value`; a name must not be
empty. -/
def ofDefinition? (definition : List Char) : Option (String × Bool) :=
  let head := definition.takeWhile (· != '=')
  let name := head.takeWhile (· != '(')
  if name.isEmpty then none else some (String.ofList name, head.contains '(')

/-- The definitions that arguments hold, in order: `-D` and a definition, in one argument or in
two. -/
def definitions : List String → List (String × Bool)
  | [] => []
  | arg :: args =>
    match arg.toList with
    | ['-', 'D'] =>
      match args with
      | [] => []
      | next :: args => (ofDefinition? next.toList).toList ++ definitions args
    | '-' :: 'D' :: definition => (ofDefinition? definition).toList ++ definitions args
    | _ => definitions args

/-- The macros that arguments define, the last definition in front. -/
def ofArguments (args : List String) : Macros :=
  (definitions args).reverse

end Macros

namespace Source

/-- A text with its lexemes. -/
def ofLexed (cs : List Char) (l : Lexed) : Source :=
  { lexemes := l.lexemes.toArray, lines := LineTable.ofText cs, length := byteLength cs }

/-- The extent from the start of lexeme `first` to the end of lexeme `last`, or the whole text if
one of them does not exist. -/
def extentOf (s : Source) (first last : Nat) : Extent :=
  match s.lexemes[first]?, s.lexemes[last]? with
  | some a, some b => ⟨s.lines.place a.start, s.lines.place b.stop⟩
  | _, _ => s.extent

/-- The cursor that a draft comes to. -/
def cursorOf (s : Source) (d : Draft) : Cursor :=
  { kind := d.kind
    spelling := d.spelling
    extent := s.extentOf d.first d.last
    parent := d.parent }

/-- The cursors of an outline. The file itself reaches over the whole text. -/
def cursorsOf (s : Source) (o : Outline) : Array Cursor :=
  o.drafts.mapIdx fun i d =>
    if i = 0 then { s.cursorOf d with extent := s.extent } else s.cursorOf d

/-- The token that a lexeme comes to; without an owner it belongs to the file itself. -/
def tokenOf (s : Source) (o : Outline) (i : Nat) (t : Lexeme) : Token :=
  { spelling := t.spelling
    kind := t.kind
    extent := ⟨s.lines.place t.start, s.lines.place t.stop⟩
    cursor := (o.owners.getD i none).getD 0 }

/-- The source unit that a text with its outline comes to. -/
def unitOf (s : Source) (path : Path) (faults : List (Nat × LexFault)) (o : Outline) :
    SourceUnit :=
  { path
    tokens := s.lexemes.mapIdx (s.tokenOf o)
    cursors := s.cursorsOf o
    diagnostics :=
      (faults.map fun f => diagnostic path (s.lines.place f.1) "error" f.2.message) ++
        o.notes.map fun n => diagnostic path (s.placeOf n.index) "error" n.flaw.message
    moduleName := o.moduleName }

end Source

/-- Reads a text as if it were the file at `path`. -/
def parseText (path : Path) (cs : List Char) (args : List String) : SourceUnit :=
  let lexed := Lexed.ofText cs
  let s := Source.ofLexed cs lexed
  s.unitOf path lexed.faults (Outline.ofSource path.text (Macros.ofArguments args) s)

end DocIndex
