/-!
# Texts in TOML

A text stands between double quotes, where backslashes escape, or between single quotes, where
nothing does. Between three quotes each it may go over lines.

* `Toml.readQuoted?` — a text on one line.
* `Toml.readText?` — a text of any kind.
-/

namespace DocIndex

namespace Toml

/-- The character may stand in a text or a comment as it is. -/
def isPlain (c : Char) : Bool :=
  c = '\t' || ('\x20' ≤ c && c ≤ '\x7e') || '\x80' ≤ c

/-- The value of a hexadecimal digit. -/
def hexValue? (c : Char) : Option Nat :=
  if '0' ≤ c && c ≤ '9' then some (c.toNat - '0'.toNat)
  else if 'A' ≤ c && c ≤ 'F' then some (c.toNat - 'A'.toNat + 10)
  else if 'a' ≤ c && c ≤ 'f' then some (c.toNat - 'a'.toNat + 10)
  else none

/-- The character that hexadecimal digits name. -/
def charOfHex? (digits : List Char) : Option Char := do
  let n ← digits.foldlM (fun n c => (hexValue? c).map (n * 16 + ·)) 0
  if h : n.isValidChar then some (Char.ofNatAux n h) else none

/-- The character named by `count` hexadecimal digits, and what is left behind them. -/
def readCode? (count : Nat) (cs : List Char) : Option (Char × List Char) :=
  let digits := cs.take count
  if digits.length = count then (charOfHex? digits).map fun c => (c, cs.drop count) else none

/-- What the escape behind a backslash stands for, and what is left behind it. -/
def readEscape? : List Char → Option (Char × List Char)
  | 'b' :: cs => some ('\x08', cs)
  | 't' :: cs => some ('\t', cs)
  | 'n' :: cs => some ('\n', cs)
  | 'f' :: cs => some ('\x0c', cs)
  | 'r' :: cs => some ('\r', cs)
  | '"' :: cs => some ('"', cs)
  | '\\' :: cs => some ('\\', cs)
  | 'u' :: cs => readCode? 4 cs
  | 'U' :: cs => readCode? 8 cs
  | _ => none

/-- The character is a space or a tab. -/
def isSpace (c : Char) : Bool :=
  c = ' ' || c = '\t'

/-- What is left behind the end of a line. -/
def dropNewline? : List Char → Option (List Char)
  | '\n' :: cs => some cs
  | '\r' :: '\n' :: cs => some cs
  | _ => none

/-- What is left behind spaces and ends of lines. -/
def dropLines : List Char → List Char
  | '\r' :: '\n' :: cs => dropLines cs
  | c :: cs => if isSpace c || c = '\n' then dropLines cs else c :: cs
  | [] => []

/-- What is left behind a backslash that takes back the end of its line, and all blanks that
follow. -/
def dropContinuation? (cs : List Char) : Option (List Char) :=
  (dropNewline? (cs.dropWhile isSpace)).map dropLines

/-! ## On one line -/

/-- Reads a text on one line, up to and with its closing quote. -/
def readLine? (quote : Char) : Nat → List Char → Option (List Char × List Char)
  | 0, _ => none
  | fuel + 1, cs =>
    match cs with
    | [] => none
    | c :: rest =>
      if c = quote then some ([], rest)
      else if c = '\\' && quote = '"' then do
        let (c, rest) ← readEscape? rest
        let (text, rest) ← readLine? quote fuel rest
        return (c :: text, rest)
      else if isPlain c then do
        let (text, rest) ← readLine? quote fuel rest
        return (c :: text, rest)
      else none

/-- Reads a text on one line, with its quotes. -/
def readQuoted? : List Char → Option (String × List Char)
  | [] => none
  | quote :: cs =>
    if quote = '"' || quote = '\'' then
      (readLine? quote (cs.length + 1) cs).map fun (text, rest) => (String.ofList text, rest)
    else none

/-! ## Over lines -/

/-- Reads a text over lines, up to and with the three quotes that close it. One or two more quotes
in front of them belong to the text. An end of line is always read as a line feed. -/
def readLines? (quote : Char) : Nat → List Char → Option (List Char × List Char)
  | 0, _ => none
  | fuel + 1, cs =>
    match cs with
    | [] => none
    | c :: rest =>
      if c = quote then
        let n := (cs.takeWhile (· = quote)).length
        if n < 3 then do
          let (text, rest) ← readLines? quote fuel (cs.drop n)
          return (List.replicate n quote ++ text, rest)
        else if n ≤ 5 then some (List.replicate (n - 3) quote, cs.drop n)
        else none
      else if c = '\\' && quote = '"' then
        match dropContinuation? rest with
        | some rest => readLines? quote fuel rest
        | none => do
          let (c, rest) ← readEscape? rest
          let (text, rest) ← readLines? quote fuel rest
          return (c :: text, rest)
      else if isPlain c then do
        let (text, rest) ← readLines? quote fuel rest
        return (c :: text, rest)
      else do
        let (text, rest) ← readLines? quote fuel (← dropNewline? cs)
        return ('\n' :: text, rest)

/-- Reads a text of any kind, with its quotes. An end of line right behind three quotes does not
count. -/
def readText? (cs : List Char) : Option (String × List Char) :=
  match cs with
  | a :: b :: c :: rest =>
    if a = b && b = c && (a = '"' || a = '\'') then
      let rest := (dropNewline? rest).getD rest
      (readLines? a (rest.length + 1) rest).map fun (text, rest) => (String.ofList text, rest)
    else readQuoted? cs
  | _ => readQuoted? cs

end Toml

end DocIndex
