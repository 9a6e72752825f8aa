import DocIndex.Comment.Basic
import DocIndex.Json.Record

/-!
# Storing what a file holds

How comments and files are written down as JSON, and read back.

* `toJson`, `FileComments.toJson?` — the way down. A comment that is attached to nothing has no
  `cursor_kind`; a point in time before 1970 cannot be written down.
* `ofJson?` — the way back. Fields that are not known are passed over, except in a point in time.
  A directive may be written by any of its names.
-/

namespace DocIndex

namespace Comment

/-- The comment, as it is written down. -/
def toJson (c : Comment) : Json :=
  .object
    ([("file", .string c.file.text), ("next_line", .nat c.nextLine), ("text", .strings c.text)] ++
      match c.kind with
      | some k => [("cursor_kind", .string k.name)]
      | none => [])

end Comment

namespace DirectiveComment

/-- A comment with what it documents, as it is written down. -/
def toJson (d : DirectiveComment) : Json :=
  .object
    [("context",
        .object
          [("directive", .string d.context.directive.name),
            ("namespace", .string d.context.namespacePath),
            ("module", .string d.context.moduleName)]),
      ("signature", .string d.signature),
      ("comment", d.comment.toJson)]

end DirectiveComment

/-- A point in time, as it is written down. -/
def Timestamp.toJson? (t : Timestamp) : Option Json :=
  if t.seconds < 0 then none
  else
    some
      (.object
        [("secs_since_epoch", .nat t.seconds.toNat), ("nanos_since_epoch", .nat t.nanoseconds)])

/-- What a file holds, as it is written down. -/
def FileComments.toJson? (f : FileComments) : Option Json :=
  f.modified.toJson?.map fun modified =>
    .object
      [("module", .string f.moduleName),
        ("directive_comments", .array (f.directiveComments.map DirectiveComment.toJson)),
        ("floating_comments", .array (f.floatingComments.map Comment.toJson)),
        ("diagnostics", .strings f.diagnostics),
        ("mtime", modified)]

/-! ## Reading back -/

/-- The largest line number. -/
def maxLine : Nat :=
  0xFFFFFFFF

/-- The kind with a given name, written as a text or as the one member of an object, whose value is
null. -/
def CursorKind.ofJson? : Json → Option CursorKind
  | .string name => CursorKind.ofName? name
  | .object [(name, .null)] => CursorKind.ofName? name
  | _ => none

/-- The kind that a comment is attached to; null stands for none, just as a missing field. -/
def attachedKind? : Option Json → Option (Option CursorKind)
  | none => some none
  | some .null => some none
  | some j => (CursorKind.ofJson? j).map some

/-- Reads a comment. -/
def Comment.ofJson? (j : Json) : Option Comment := do
  match ← j.record? ["file", "next_line", "text", "cursor_kind"] with
  | [some file, some nextLine, some text, kind] =>
    return {
      file := ⟨← file.text?⟩
      nextLine := ← nextLine.nat? maxLine
      text := ← text.list? Json.text?
      kind := ← attachedKind? kind }
  | _ => none

/-- Reads a context; the module may be missing. -/
def DocContext.ofJson? (j : Json) : Option DocContext := do
  match ← j.record? ["directive", "namespace", "module"] with
  | [some directive, some namespacePath, moduleName] =>
    return {
      directive := Directive.parse (← directive.text?)
      namespacePath := ← namespacePath.text?
      moduleName := ← (moduleName.getD (.string "")).text? }
  | _ => none

/-- Reads a comment with what it documents. -/
def DirectiveComment.ofJson? (j : Json) : Option DirectiveComment := do
  match ← j.record? ["context", "signature", "comment"] with
  | [some context, some signature, some comment] =>
    return {
      context := ← DocContext.ofJson? context
      signature := ← signature.text?
      comment := ← Comment.ofJson? comment }
  | _ => none

/-- The nanoseconds of a second. -/
def Timestamp.perSecond : Nat :=
  1000000000

/-- The fields of a point in time. -/
def timestampFields : List String :=
  ["secs_since_epoch", "nanos_since_epoch"]

/-- Reads a point in time. Nanoseconds beyond a second are carried over. -/
def Timestamp.ofJson? (j : Json) : Option Timestamp := do
  guard (j.memberNames.all timestampFields.contains)
  match ← j.record? timestampFields with
  | [some seconds, some nanoseconds] =>
    let n ← nanoseconds.nat? 0xFFFFFFFF
    let s := (← seconds.nat? 0xFFFFFFFFFFFFFFFF) + n / perSecond
    if s < 0x8000000000000000 then return { seconds := Int.ofNat s, nanoseconds := n % perSecond }
    else none
  | _ => none

/-- Reads what a file holds. -/
def FileComments.ofJson? (j : Json) : Option FileComments := do
  match ← j.record?
      ["module", "directive_comments", "floating_comments", "diagnostics", "mtime"] with
  | [some moduleName, some directiveComments, some floatingComments, some diagnostics,
      some modified] =>
    return {
      moduleName := ← moduleName.text?
      directiveComments := ← directiveComments.list? DirectiveComment.ofJson?
      floatingComments := ← floatingComments.list? Comment.ofJson?
      diagnostics := ← diagnostics.list? Json.text?
      modified := ← Timestamp.ofJson? modified }
  | _ => none

end DocIndex
