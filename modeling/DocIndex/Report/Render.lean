import DocIndex.Json.Printer
import DocIndex.Report.Structured
import DocIndex.Report.Text

/-!
# Rendering reports

`Report.render` gives a report in a form, as it is printed. Each line is ended.
-/

namespace DocIndex

/-- The lines, each of them ended. -/
def endLines (lines : List String) : String :=
  String.join (lines.map (· ++ "\n"))

/-- A report as it is printed. -/
def Report.render (r : Report) (root : Path) : ReportFormat → String
  | .text => endLines (r.lines root)
  | .json => endLines [(r.toJson root).pretty]

end DocIndex
