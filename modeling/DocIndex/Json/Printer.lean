import DocIndex.Json.Basic
import DocIndex.Text.Quoted

/-!
# Printing JSON

* `Json.compact` — on one line, without blanks.
* `Json.pretty` — a line for each item and member, indented by two spaces.

Text is written as it is, but for quotes, backslashes and controls.
-/

namespace DocIndex

namespace Json

/-- Four hexadecimal digits. -/
def hexDigits4 (n : Nat) : List Char :=
  let digits := Text.hexDigits n
  List.replicate (4 - digits.length) '0' ++ digits

/-- How a character is written within a text. -/
def escape (c : Char) : List Char :=
  if c = '"' then ['\\', '"']
  else if c = '\\' then ['\\', '\\']
  else if c = '\x08' then ['\\', 'b']
  else if c = '\x0c' then ['\\', 'f']
  else if c = '\n' then ['\\', 'n']
  else if c = '\r' then ['\\', 'r']
  else if c = '\t' then ['\\', 't']
  else if c.toNat < 0x20 then ['\\', 'u'] ++ hexDigits4 c.toNat
  else [c]

/-- A text as it is written. -/
def quote (s : String) : String :=
  String.ofList ('"' :: s.toList.flatMap escape ++ ['"'])

/-- A value as it is written, its parts left out. -/
def scalar : Json → String
  | null => "null"
  | bool true => "true"
  | bool false => "false"
  | number written => written
  | string s => quote s
  | array _ => "[]"
  | object _ => "\x7b\x7d"
  | unreadable => "null"

mutual

/-- The value on one line, without blanks. -/
def compact : Json → String
  | array items => "[" ++ compactItems items ++ "]"
  | object members => "\x7b" ++ compactMembers members ++ "\x7d"
  | j => scalar j

/-- Items with commas between them. -/
def compactItems : List Json → String
  | [] => ""
  | [j] => compact j
  | j :: k :: rest => compact j ++ "," ++ compactItems (k :: rest)

/-- Members with commas between them. -/
def compactMembers : List (String × Json) → String
  | [] => ""
  | [(key, j)] => quote key ++ ":" ++ compact j
  | (key, j) :: m :: rest => quote key ++ ":" ++ compact j ++ "," ++ compactMembers (m :: rest)

end

/-- The start of a line that is indented by `depth` steps. -/
def newline (depth : Nat) : String :=
  String.ofList ('\n' :: List.replicate (2 * depth) ' ')

mutual

/-- The value with a line for each item and member, its own line being indented by `depth`
steps. -/
def prettyAt (depth : Nat) : Json → String
  | array (j :: items) =>
    "[" ++ newline (depth + 1) ++ prettyAt (depth + 1) j ++ prettyItems (depth + 1) items ++
      newline depth ++ "]"
  | object ((key, j) :: members) =>
    "\x7b" ++ newline (depth + 1) ++ quote key ++ ": " ++ prettyAt (depth + 1) j ++
      prettyMembers (depth + 1) members ++ newline depth ++ "\x7d"
  | j => scalar j

/-- Items behind the first one. -/
def prettyItems (depth : Nat) : List Json → String
  | [] => ""
  | j :: rest => "," ++ newline depth ++ prettyAt depth j ++ prettyItems depth rest

/-- Members behind the first one. -/
def prettyMembers (depth : Nat) : List (String × Json) → String
  | [] => ""
  | (key, j) :: rest =>
    "," ++ newline depth ++ quote key ++ ": " ++ prettyAt depth j ++ prettyMembers depth rest

end

/-- The value with a line for each item and member. -/
def pretty (j : Json) : String :=
  prettyAt 0 j

end Json

end DocIndex
