import DocIndex.Toml.Number
import DocIndex.Toml.Table
import DocIndex.Toml.Text

/-!
# Reading TOML

`Toml.read?` reads a document: entries and headers, a line each. Values may go over lines only
within brackets and between three quotes.
-/

namespace DocIndex

namespace Toml

/-- How deep values may be nested, and how many parts a dotted key may have. -/
def maxDepth : Nat :=
  79

/-! ## Blanks -/

/-- What is left behind spaces and tabs. -/
def skipSpaces (cs : List Char) : List Char :=
  cs.dropWhile isSpace

/-- What is left behind a comment, if there is one. -/
def skipComment : List Char → List Char
  | '#' :: cs => cs.dropWhile isPlain
  | cs => cs

/-- What is left behind the end of a line, with a comment in front of it. The text may also end
here. -/
def dropLineEnd? (cs : List Char) : Option (List Char) :=
  match skipComment (skipSpaces cs) with
  | [] => some []
  | cs => dropNewline? cs

/-- What is left behind blanks, comments and ends of lines. -/
def skipLines : Nat → List Char → List Char
  | 0, cs => cs
  | fuel + 1, cs =>
    match dropNewline? (skipComment (skipSpaces cs)) with
    | some rest => skipLines fuel rest
    | none => skipSpaces cs

/-- What is left behind blanks, comments and ends of lines. -/
def skipBlanks (cs : List Char) : List Char :=
  skipLines cs.length cs

/-! ## Keys -/

/-- The character may stand in a key without quotes. -/
def isBare (c : Char) : Bool :=
  c.isAlphanum || c = '_' || c = '-'

/-- Reads one part of a key. -/
def readPart? (cs : List Char) : Option (String × List Char) :=
  let bare := cs.takeWhile isBare
  if bare.isEmpty then readQuoted? cs else some (String.ofList bare, cs.drop bare.length)

/-- Reads a key, part by part, with the blanks around it. -/
def readParts? : Nat → List Char → Option (List String × List Char)
  | 0, _ => none
  | fuel + 1, cs => do
    let (part, cs) ← readPart? (skipSpaces cs)
    match skipSpaces cs with
    | '.' :: cs =>
      let (parts, cs) ← readParts? fuel cs
      return (part :: parts, cs)
    | cs => return ([part], cs)

/-- Reads a key of at most `maxDepth` parts. -/
def readKey? (cs : List Char) : Option (List String × List Char) :=
  readParts? maxDepth cs

/-! ## Values -/

/-- The character may stand in a number, a date, or a word such as `true`. -/
def isWordChar (c : Char) : Bool :=
  c.isAlphanum || c = '_' || c = '+' || c = '-' || c = '.' || c = ':'

/-- What is left behind a time of day and its offset, a space being in front. -/
def dropSpacedTime? : List Char → Option (List Char)
  | ' ' :: cs =>
    let word := cs.takeWhile isWordChar
    if (dropTime? word).any isOffset then some (cs.drop word.length) else none
  | _ => none

/-- Reads a value that is neither a text nor in brackets. A date may be followed by a space and a
time. -/
def readWord? (cs : List Char) : Option (Toml × List Char) :=
  let word := cs.takeWhile isWordChar
  let rest := cs.drop word.length
  if word = ['t', 'r', 'u', 'e'] then some (.boolean true, rest)
  else if word = ['f', 'a', 'l', 's', 'e'] then some (.boolean false, rest)
  -- the space belongs to the value only if a time of day follows it
  else if dropDate? word = some [] then some (.datetime, (dropSpacedTime? rest).getD rest)
  else (ofWord? word).map fun v => (v, rest)

mutual

/-- Reads a value within `depth` brackets. -/
def readValue? (depth : Nat) : Nat → List Char → Option (Toml × List Char)
  | 0, _ => none
  | fuel + 1, cs =>
    match cs with
    | '"' :: _ | '\'' :: _ => (readText? cs).map fun (s, cs) => (.string s, cs)
    | '[' :: cs =>
      if maxDepth ≤ depth then none
      else do
        let (items, cs) ← readItems? (depth + 1) fuel cs
        return (.array items, cs)
    | '\x7b' :: cs =>
      if maxDepth ≤ depth then none
      else do
        let (lines, cs) ← readEntries? (depth + 1) fuel cs
        return (.table .inline (← tableOfEntries? lines), cs)
    | cs => readWord? cs

/-- Reads the items of an array, up to and with its bracket. A comma may stand behind the last
one. -/
def readItems? (depth : Nat) : Nat → List Char → Option (List Toml × List Char)
  | 0, _ => none
  | fuel + 1, cs =>
    match skipBlanks cs with
    | ']' :: cs => some ([], cs)
    | cs => do
      let (item, cs) ← readValue? depth fuel cs
      match skipBlanks cs with
      | ']' :: cs => return ([item], cs)
      | ',' :: cs => do
        let (items, cs) ← readItems? depth fuel cs
        return (item :: items, cs)
      | _ => none

/-- Reads the entries of a table between braces, up to and with its brace. -/
def readEntries? (depth : Nat) : Nat → List Char → Option (List KeyedValue × List Char)
  | 0, _ => none
  | fuel + 1, cs =>
    match skipSpaces cs with
    | '\x7d' :: cs => some ([], cs)
    | cs => readEntriesFrom? depth fuel cs

/-- Reads entries up to and with the brace, at least one. -/
def readEntriesFrom? (depth : Nat) : Nat → List Char → Option (List KeyedValue × List Char)
  | 0, _ => none
  | fuel + 1, cs => do
    let (key, cs) ← readKey? cs
    match cs with
    | '=' :: cs =>
      let (value, cs) ← readValue? depth fuel (skipSpaces cs)
      match skipSpaces cs with
      | '\x7d' :: cs => return ([{ key, value }], cs)
      | ',' :: cs => do
        let (entries, cs) ← readEntriesFrom? depth fuel cs
        return ({ key, value } :: entries, cs)
      | _ => none
    | _ => none

end

/-! ## Lines -/

/-- Reads a header behind its first bracket. -/
def readHeader? (cs : List Char) : Option (Line × List Char) :=
  match cs with
  | '[' :: cs => do
    match ← readKey? cs with
    | (path, ']' :: ']' :: cs) => return (.element path, cs)
    | _ => none
  | cs => do
    match ← readKey? cs with
    | (path, ']' :: cs) => return (.header path, cs)
    | _ => none

/-- Reads an entry. -/
def readEntry? (cs : List Char) : Option (Line × List Char) := do
  match ← readKey? cs with
  | (key, '=' :: cs) =>
    let cs := skipSpaces cs
    let (value, cs) ← readValue? 0 (3 * cs.length + 3) cs
    return (.entry { key, value }, cs)
  | _ => none

/-- Reads the lines of a document. -/
def readDocument? : Nat → List Char → Option (List Line)
  | 0, _ => none
  | fuel + 1, cs =>
    match skipBlanks cs with
    | [] => some []
    -- a comment without an end of line behind it ends the document
    | '#' :: cs => do
      let cs ← dropLineEnd? ('#' :: cs)
      readDocument? fuel cs
    | '[' :: cs => do
      let (line, cs) ← readHeader? cs
      let lines ← readDocument? fuel (← dropLineEnd? cs)
      return line :: lines
    | cs => do
      let (line, cs) ← readEntry? cs
      let lines ← readDocument? fuel (← dropLineEnd? cs)
      return line :: lines

/-- The text without a byte order mark in front. -/
def dropMark : List Char → List Char
  | '\uFEFF' :: cs => cs
  | cs => cs

/-- Reads a document. -/
def read? (cs : List Char) : Option Entries :=
  let cs := dropMark cs
  (readDocument? (cs.length + 1) cs).bind tableOfLines?

end Toml

end DocIndex
