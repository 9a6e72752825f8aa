import DocIndex.Comment.Markup
import DocIndex.Report.Basic
import DocIndex.Report.Style

/-!
# Reports as text

`Report.lines` gives a report line by line, for a terminal.
-/

namespace DocIndex

open Style

/-- A line across. -/
def ruleLine : String :=
  "  " ++ dimmed.paint (String.ofList (List.replicate 50 '━'))

/-- The sign in front of a warning. -/
def warningSign : String :=
  yellow.paint "⚠"

/-- The lines of a comment, indented. -/
def commentLines (c : Comment) : List String :=
  c.bareLines.map fun line => "          " ++ dimmed.paint line

/-- The line that a comment stands before. -/
def lineLabel (c : Comment) : String :=
  "  L" ++ padRight 4 (toString c.nextLine) ++ " "

/-- What one file holds. -/
def scanLines (path : Path) (content : FileComments) (root : Path) : List String :=
  let heading :=
    ["", "  " ++ bold.paint (path.shown root)] ++
      (if content.moduleName.isEmpty then [] else ["  module " ++ cyan.paint content.moduleName]) ++
      [ruleLine]
  let documented :=
    content.directiveComments.flatMap fun d =>
      (lineLabel d.comment ++ cyan.paint d.context.directive.name ++ " " ++
          bold.paint (qualified d.context.namespacePath d.signature)) ::
        commentLines d.comment
  let floating :=
    content.floatingComments.flatMap fun c =>
      (lineLabel c ++ yellow.paint "floating") :: commentLines c
  let warnings := content.diagnostics.map fun d => "  " ++ warningSign ++ " " ++ d
  let count (n : Nat) := bold.paint (toString n)
  let summary :=
    [ruleLine,
      "  " ++ count content.directiveComments.length ++ " documented, " ++
        count content.floatingComments.length ++ " floating",
      ""]
  heading ++ documented ++ floating ++ warnings ++ summary

/-- A name and how often it occurs. -/
def countLine (style : Style) (name : String) (count : Nat) : String :=
  "    " ++ style.paint (padRight 12 name) ++ " " ++ toString count

/-- How often each directive occurs, by name. -/
def directiveCounts (contents : List FileComments) : Std.TreeMap String Nat :=
  (contents.flatMap FileComments.directiveComments).foldl
    (fun m d => m.insert d.context.directive.name (m.getD d.context.directive.name 0 + 1)) ∅

/-- The diagnostics of all files. -/
def diagnosticLines (x : Index) (root : Path) : List String :=
  let noisy := x.files.toList.filter fun e => !e.2.diagnostics.isEmpty
  let count := total (noisy.map fun e => e.2.diagnostics.length)
  if count = 0 then []
  else
    ["",
        "  " ++ warningSign ++ " " ++
          bold.paint (yellow.paint (toString count ++ " front-end diagnostics"))] ++
      noisy.flatMap fun e =>
        ("    " ++ dimmed.paint (e.1.shown root)) :: e.2.diagnostics.map ("      " ++ ·)

/-- What all files hold. -/
def indexLines (x : Index) (invalidated : Documents) (root : Path) : List String :=
  if x.files.isEmpty then
    ["", ruleLine, "  " ++ yellow.paint "no source files found", ruleLine, ""]
  else
    let contents := x.files.values
    let floating := total (contents.map fun c => c.floatingComments.length)
    let count (n : Nat) := bold.paint (toString n)
    ["", ruleLine,
        "  " ++ count x.size ++ " documented declarations across " ++ count x.files.size ++
          " files",
        ruleLine] ++
      (directiveCounts contents).toList.map (fun e => countLine cyan e.1 e.2) ++
      (if floating = 0 then [] else [countLine yellow "floating" floating]) ++
      diagnosticLines x root ++
      (if invalidated.isEmpty then []
        else
          ["", "  " ++ bold.paint "invalidated documents"] ++
            invalidated.toList.map ("    " ++ ·)) ++
      [""]

/-- What a look-up led to. -/
def queryLines (r : Request) (answer : Answer) (root : Path) : List String :=
  match answer with
  | .found c => [c.markup r.shownDirective r.argument]
  | .missed suggestions =>
    [red.paint "✗" ++ " no documentation for " ++ bold.paint (red.paint r.shownDirective) ++ " " ++
          bold.paint (qualified r.namespacePath r.argument)] ++
      (if r.moduleName.isEmpty then [] else ["  in module " ++ r.moduleName]) ++
      (if suggestions.isEmpty then []
        else
          "  close matches:" ::
            suggestions.map fun s =>
              "    " ++ s.signature ++ "  " ++ dimmed.paint (s.comment.shownLocation root))

/-- What is documented within a scope. -/
def membersLines (scope : DocScope) (members : Option Members) (root : Path) : List String :=
  let name := if scope.namespacePath.isEmpty then "global scope" else scope.namespacePath
  match members with
  | none => ["  " ++ yellow.paint ("nothing documented in " ++ name)]
  | some members =>
    let count := dimmed.paint ("(" ++ toString members.size ++ ")")
    ["", "  " ++ bold.paint name ++ " " ++ count, ruleLine] ++
      members.toList.map (fun e =>
        "    " ++ cyan.paint (padRight 12 e.1.directive.name) ++ " " ++ e.1.signature ++ "  " ++
          dimmed.paint (e.2.shownLocation root)) ++
      [""]

/-- The lines of a report. -/
def Report.lines (root : Path) : Report → List String
  | scan path content => scanLines path content root
  | index x invalidated => indexLines x invalidated root
  | query request answer => queryLines request answer root
  | members scope found => membersLines scope found root

end DocIndex
