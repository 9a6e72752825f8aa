import DocIndex.Json.Decimal
import DocIndex.Report.Basic

/-!
# Reports as data

`Report.toJson` gives a report as JSON.
-/

namespace DocIndex

/-- A comment, without its slashes. -/
def commentJson (root : Path) (c : Comment) : Json :=
  .object
    [("file", .string (c.file.shown root)),
      ("line", .nat c.nextLine),
      ("text", .strings c.bareLines)]

/-- A comment and what it documents. -/
def directiveCommentJson (root : Path) (d : DirectiveComment) : Json :=
  .object
    [("directive", .string d.context.directive.name),
      ("namespace", .string d.context.namespacePath),
      ("module", .string d.context.moduleName),
      ("signature", .string d.signature),
      ("comment", commentJson root d.comment)]

/-- What one file holds. -/
def scanJson (path : Path) (content : FileComments) (root : Path) : Json :=
  .object
    [("file", .string (path.shown root)),
      ("module", .string content.moduleName),
      ("directive_comments", .array (content.directiveComments.map (directiveCommentJson root))),
      ("floating_comments", .array (content.floatingComments.map (commentJson root))),
      ("diagnostics", .strings content.diagnostics)]

/-- A file of the index, in numbers. -/
def indexedFileJson (root : Path) (path : Path) (content : FileComments) : Json :=
  .object
    [("file", .string (path.shown root)),
      ("module", .string content.moduleName),
      ("directive_comments", .nat content.directiveComments.length),
      ("floating_comments", .nat content.floatingComments.length),
      ("diagnostics", .strings content.diagnostics)]

/-- What all files hold, in numbers. -/
def indexJson (x : Index) (invalidated : Documents) (root : Path) : Json :=
  let totalOf (count : FileComments → Nat) : Json := .nat (total (x.files.values.map count))
  .object
    [("files", .array (x.files.toList.map fun e => indexedFileJson root e.1 e.2)),
      ("invalidated", .strings invalidated.toList),
      ("summary",
        .object
          [("files", .nat x.files.size),
            ("directive_comments", totalOf fun c => c.directiveComments.length),
            ("floating_comments", totalOf fun c => c.floatingComments.length),
            ("diagnostics", totalOf fun c => c.diagnostics.length)])]

/-- A suggestion. -/
def suggestionJson (root : Path) (s : Suggestion) : Json :=
  .object
    [("signature", .string s.signature),
      ("similarity", .float s.similarity),
      ("file", .string (s.comment.file.shown root)),
      ("line", .nat s.comment.nextLine)]

/-- What a look-up led to. -/
def queryJson (r : Request) (answer : Answer) (root : Path) : Json :=
  .object
    [("found", .bool answer.comment?.isSome),
      ("directive", .string r.shownDirective),
      ("argument", .string r.argument),
      ("namespace", .string r.namespacePath),
      ("module", .string r.moduleName),
      ("comment", (answer.comment?.map (commentJson root)).getD .null),
      ("close_matches", .array (answer.suggestions.map (suggestionJson root)))]

/-- What is documented within a scope. -/
def membersJson (scope : DocScope) (members : Option Members) (root : Path) : Json :=
  .object
    [("namespace", .string scope.namespacePath),
      ("module", .string scope.moduleName),
      ("members",
        .array
          ((members.getD ∅).toList.map fun e =>
            .object
              [("directive", .string e.1.directive.name),
                ("signature", .string e.1.signature),
                ("comment", commentJson root e.2)]))]

/-- A report as data. -/
def Report.toJson (root : Path) : Report → Json
  | scan path content => scanJson path content root
  | index x invalidated => indexJson x invalidated root
  | query request answer => queryJson request answer root
  | members scope found => membersJson scope found root

end DocIndex
