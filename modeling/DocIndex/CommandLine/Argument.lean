/-!
# A directive's argument

An argument that was given as several words is one text; a backslash that stands alone only carried
a line on.
-/

namespace DocIndex

/-- The words of a directive's argument as one text, without the backslashes that carry lines on. -/
def argumentOfWords (words : List String) : String :=
  " ".intercalate (words.filter (· != "\\"))

end DocIndex
