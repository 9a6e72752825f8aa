import DocIndex.Index.Query

/-!
# What is reported

The reports, and the names by which they call files and declarations: files by their way from the
project's root, declarations with their scope in front.
-/

namespace DocIndex

/-- In which form reports are given. -/
inductive ReportFormat
  | text
  | json
  deriving DecidableEq, Repr, Inhabited

namespace ReportFormat

/-- The name of a form. -/
def name : ReportFormat → String
  | text => "text"
  | json => "json"

/-- The form with a given name. -/
def ofName? (name : String) : Option ReportFormat :=
  [text, json].find? fun f => f.name == name

end ReportFormat

/-- What is looked up: a declaration by its directive, its signature and its scope. -/
structure Request where
  /-- The directive, by any of its names. -/
  directive : String
  argument : String
  namespacePath : String
  moduleName : String
  deriving DecidableEq, Repr, Inhabited

namespace Request

/-- The context to look in. -/
def context (r : Request) : DocContext :=
  { directive := Directive.parse r.directive
    namespacePath := r.namespacePath
    moduleName := r.moduleName }

/-- The directive as it is shown: by the name that was asked for. -/
def shownDirective (r : Request) : String :=
  String.ofList (Text.trim r.directive.toList)

end Request

/-- What there is to report. -/
inductive Report
  /-- What one file holds. -/
  | scan (path : Path) (content : FileComments)
  /-- What all files hold, and the documents to be made again. -/
  | index (index : Index) (invalidated : Documents)
  /-- What a look-up led to. -/
  | query (request : Request) (answer : Answer)
  /-- What is documented within a scope. -/
  | members (scope : DocScope) (members : Option Members)

/-- A path as it is shown: from the root on, if it is below it. -/
def Path.shown (p root : Path) : String :=
  ((p.relativeTo? root).getD p).text

/-- A comment's location as it is shown. -/
def Comment.shownLocation (c : Comment) (root : Path) : String :=
  c.file.shown root ++ ":" ++ toString c.nextLine

/-- A name with its scope in front. -/
def qualified (namespacePath name : String) : String :=
  if namespacePath.isEmpty then name else namespacePath ++ "::" ++ name

end DocIndex
