import DocIndex.Comment.Directive
import DocIndex.Path
import DocIndex.Source.Cursor

/-!
# Documentation comments

* `Comment` — a run of lines that start with three slashes.
* `Comment.explicit?` — the directive that the first line of a comment may spell out.
* `DocContext` — where a declaration lives; equal contexts and equal signatures make one
  place for documentation.
* `FileComments` — everything that one file holds.
-/

namespace DocIndex

/-- A line of a file. -/
structure Location where
  file : Path
  line : Nat
  deriving DecidableEq, Repr, Inhabited

/-- How a location is shown. -/
def Location.text (l : Location) : String :=
  l.file.text ++ ":" ++ toString l.line

/-- A run of documentation lines. -/
structure Comment where
  file : Path
  /-- The line just behind the last line of the comment. -/
  nextLine : Nat
  /-- The lines as written, slashes included. -/
  text : List String
  /-- What the comment was attached to, if anything. -/
  kind : Option CursorKind
  deriving DecidableEq, Repr, Inhabited

namespace Comment

/-- What a documentation line starts with. -/
def marker : List Char :=
  ['/', '/', '/']

/-- A line without its slashes and the one character behind them. -/
def bareLine (line : String) : String :=
  let cs := line.toList
  String.ofList ((if marker.isPrefixOf cs then cs.drop 3 else cs).drop 1)

/-- The lines without their slashes and the one character behind them. -/
def bareLines (c : Comment) : List String :=
  c.text.map bareLine

/-- Where the comment is said to be: the line behind it. -/
def location (c : Comment) : Location :=
  { file := c.file, line := c.nextLine }

end Comment

/-! ## Explicit directives -/

/-- A directive with its argument, spelled out as `///.. name:: argument`. -/
structure ExplicitDirective where
  directive : Directive
  argument : String
  deriving DecidableEq, Repr

/-- Splits `name:: argument` behind the name, of which `name` has been read backwards. The name is
as short as it can be, but not empty, and holds no blank; the argument is what is left without outer
blanks, all on one line. -/
def splitDirective (name : List Char) : List Char → Option (List Char × List Char)
  | [] => none
  | c :: cs =>
    let rest := Text.trim (cs.drop 1)
    if !name.isEmpty && c = ':' && cs.head? == some ':' && !rest.contains '\n' then
      some (name.reverse, rest)
    else if Text.isBlank c then none
    else splitDirective (c :: name) cs

namespace Comment

/-- The first line sets out to spell out a directive. -/
def announcesDirective (line : String) : Bool :=
  "///..".toList.isPrefixOf line.toList

/-- The directive that a line spells out. -/
def directiveOfLine? (line : String) : Option ExplicitDirective :=
  if announcesDirective line then
    match line.toList.drop 5 with
    | [] => none
    | c :: cs =>
      if Text.isBlank c then
        (splitDirective [] (Text.trimStart cs)).map fun d =>
          { directive := Directive.parse (String.ofList d.1), argument := String.ofList d.2 }
      else none
  else none

/-- The directive that the first line spells out, and the comment without that line. -/
def explicit? (c : Comment) : Option (ExplicitDirective × Comment) :=
  match c.text with
  | [] => none
  | line :: lines => (directiveOfLine? line).map fun d => (d, { c with text := lines })

/-- The first line, if it sets out to spell out a directive but does not. -/
def malformedDirective? (c : Comment) : Option String :=
  match c.text with
  | [] => none
  | line :: _ =>
    if announcesDirective line && (directiveOfLine? line).isNone then some line else none

end Comment

/-! ## Files -/

/-- Where a declaration lives. -/
structure DocContext where
  directive : Directive
  /-- The scopes around, joined by `::`; empty at the top. -/
  namespacePath : String
  moduleName : String
  deriving DecidableEq, Repr, Inhabited

namespace DocContext

/-- Contexts are ordered by directive, then by namespace, then by module. -/
instance : Ord DocContext :=
  ⟨compareLex (compareOn directive) (compareLex (compareOn namespacePath) (compareOn moduleName))⟩

instance : Std.TransOrd DocContext :=
  inferInstanceAs
    (Std.TransCmp
      (compareLex (compareOn directive)
        (compareLex (compareOn namespacePath) (compareOn moduleName))))

instance : Std.LawfulEqOrd DocContext where
  eq_of_compare {a b} h := by
    obtain ⟨hd, h⟩ := Ordering.then_eq_eq.1 h
    obtain ⟨hn, hm⟩ := Ordering.then_eq_eq.1 h
    have hd : a.directive = b.directive := Std.LawfulEqOrd.eq_of_compare hd
    have hn : a.namespacePath = b.namespacePath := Std.LawfulEqOrd.eq_of_compare hn
    have hm : a.moduleName = b.moduleName := Std.LawfulEqOrd.eq_of_compare hm
    cases a; cases b
    simp_all

end DocContext

/-- A comment, and what it documents. -/
structure DirectiveComment where
  context : DocContext
  signature : String
  comment : Comment
  deriving DecidableEq, Repr, Inhabited

/-- A point in time, in seconds and nanoseconds since 1970; the nanoseconds count forward. -/
structure Timestamp where
  seconds : Int
  nanoseconds : Nat
  deriving DecidableEq, Repr, Inhabited

/-- Everything that one file holds. -/
structure FileComments where
  moduleName : String
  directiveComments : List DirectiveComment
  floatingComments : List Comment
  diagnostics : List String
  /-- When the file was last changed. -/
  modified : Timestamp
  deriving DecidableEq, Repr, Inhabited

end DocIndex
