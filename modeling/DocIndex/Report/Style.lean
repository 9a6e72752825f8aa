/-!
# Text styles

How text is marked for a terminal: each style has a sequence that turns it on and one that turns it
off. Padding is part of the text, so that it stands between the two.
-/

namespace DocIndex

/-- How a piece of text is to look. -/
inductive Style
  | bold
  | dimmed
  | red
  | yellow
  | cyan
  deriving DecidableEq, Repr

namespace Style

/-- The number that turns the style on. -/
def onCode : Style → String
  | bold => "1"
  | dimmed => "2"
  | red => "31"
  | yellow => "33"
  | cyan => "36"

/-- The number that turns the style off: a colour gives way to the default colour, all else to plain
text. -/
def offCode : Style → String
  | bold | dimmed => "0"
  | red | yellow | cyan => "39"

/-- The sequence with a given number. -/
def sequence (code : String) : String :=
  "\x1b[" ++ code ++ "m"

/-- The text in a style. -/
def paint (s : Style) (text : String) : String :=
  sequence s.onCode ++ text ++ sequence s.offCode

end Style

/-- The text, filled up with spaces to `width` characters. -/
def padRight (width : Nat) (text : String) : String :=
  text ++ String.ofList (List.replicate (width - text.length) ' ')

end DocIndex
