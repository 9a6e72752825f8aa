import DocIndex.Comment.Basic

/-!
# Markup

The markup for one documented declaration: the directive's line, an empty line, and the comment's
lines, indented by two spaces.
-/

namespace DocIndex

/-- A line of a comment within markup. A blank line is left empty. -/
def markupLine (line : String) : String :=
  if line.toList.all Text.isBlank then "" else "  " ++ line

/-- The markup of a comment under a directive's name, written as given. -/
def Comment.markup (c : Comment) (directive argument : String) : String :=
  "\n".intercalate
    ((".. " ++ directive ++ ":: " ++ argument) :: "" :: c.bareLines.map markupLine)

end DocIndex
