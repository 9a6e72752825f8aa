import DocIndex.Glob.Depth
import DocIndex.Text.Utf8

/-!
# Reading glob patterns

`Glob.read?` reads a pattern: `?` and `*` stand for bytes, `**` for directories where it is a whole
component, brackets for one byte of some, braces for one of several patterns, and a backslash takes
the next character as it is.
-/

namespace DocIndex

namespace Glob

/-- The pieces that a character stands for, the last one in front. -/
def literal (c : Char) : List GlobPiece :=
  (Text.encode [c]).reverse.map .byte

/-! ## Brackets -/

/-- The byte ranges of a range of characters. Bytes are taken one by one: the last one of the first
character and the first one of the last character make a range. -/
def byteRanges (first last : Char) : List (UInt8 × UInt8) :=
  let as := Text.encode [first]
  let bs := Text.encode [last]
  let single (b : UInt8) := (b, b)
  if first = last then as.map single
  else
    as.dropLast.map single ++ [(as.getLastD 0, bs.headD 0)] ++ (bs.drop 1).map single

/-- The character ranges within brackets, and what is left behind the closing one. `start` holds at
the first character, `waiting` if the last range waits for its end; the ranges so far are in reverse
order. -/
def readRanges? (start waiting : Bool) (ranges : List (Char × Char)) :
    List Char → Option (List (Char × Char) × List Char)
  | [] => none
  | c :: cs =>
    if c = ']' && !start then
      some ((if waiting then ('-', '-') :: ranges else ranges).reverse, cs)
    else if c = '-' && !start && !waiting then readRanges? false true ranges cs
    else if waiting then
      match ranges with
      | (first, _) :: rest =>
        if c < first then none else readRanges? false false ((first, c) :: rest) cs
      | [] => none
    else readRanges? false false ((c, c) :: ranges) cs

/-- Reads what stands within brackets, behind the opening one. -/
def readClass? (cs : List Char) : Option (GlobPiece × List Char) :=
  let negated := cs.head? = some '!' || cs.head? = some '^'
  (readRanges? true false [] (if negated then cs.drop 1 else cs)).map fun (ranges, cs) =>
    (.oneOf negated (ranges.flatMap fun r => byteRanges r.1 r.2), cs)

/-! ## Stars -/

/-- The pieces so far, the last one in front, with two stars behind them. `inside` holds within
braces, `before` is the character in front of the stars, and `cs` is what follows them. Also given
is what is left, and the last character that was read. -/
def readStars (inside : Bool) (pieces : List GlobPiece) (before : Option Char) (cs : List Char) :
    List GlobPiece × Char × List Char :=
  let plain := (.anything :: .anything :: pieces, '*', cs)
  match pieces with
  | [] =>
    match cs with
    | [] => ([.above], '*', [])
    | '/' :: cs => ([.above], '/', cs)
    | _ => plain
  | last :: rest =>
    -- the separator in front becomes part of the piece for the two stars
    let merged (p : GlobPiece) :=
      match last with
      | .above => .above :: rest
      | .within => .within :: rest
      | _ => p :: rest
    if before != some '/' && !(inside && (before == some ',' || before == some '\x7b')) then plain
    else
      match cs with
      | [] => (merged .within, '*', [])
      | '/' :: cs => (merged .between, '/', cs)
      | c :: _ =>
        if inside && (c = ',' || c = '\x7d') then (merged .within, '*', cs) else plain

/-! ## Patterns -/

/-- The pattern takes no bytes, whatever the path. -/
def isVoid (g : Glob) : Bool :=
  g.all fun p =>
    match p with
    | .choice [] => true
    | _ => false

mutual

/-- Reads pieces behind those in `pieces`, the last of which is in front. Within braces it stops at
a comma or a closing brace. -/
def readPieces? (inside : Bool) : Nat → List GlobPiece → Option Char → List Char →
    Option (Glob × List Char)
  | 0, _, _, _ => none
  | fuel + 1, pieces, before, cs =>
    match cs with
    | [] => if inside then none else some (pieces.reverse, [])
    | '?' :: cs => readPieces? inside fuel (.anyByte :: pieces) (some '?') cs
    | '*' :: '*' :: cs =>
      let (pieces, last, cs) := readStars inside pieces before cs
      readPieces? inside fuel pieces (some last) cs
    | '*' :: cs => readPieces? inside fuel (.anything :: pieces) (some '*') cs
    | '[' :: cs => do
      let (piece, cs) ← readClass? cs
      readPieces? inside fuel (piece :: pieces) (some ']') cs
    | '\x7b' :: cs => do
      let (branches, cs) ← readBranches? fuel cs
      let piece := GlobPiece.choice (branches.filter fun b => !isVoid b)
      readPieces? inside fuel (piece :: pieces) (some '\x7d') cs
    | '\x7d' :: rest => if inside then some (pieces.reverse, '\x7d' :: rest) else none
    | ',' :: rest =>
      if inside then some (pieces.reverse, ',' :: rest)
      else readPieces? inside fuel (literal ',' ++ pieces) (some ',') rest
    | '\\' :: cs =>
      match cs with
      | [] => none
      | c :: cs => readPieces? inside fuel (literal c ++ pieces) (some c) cs
    | c :: cs => readPieces? inside fuel (literal c ++ pieces) (some c) cs

/-- Reads the patterns within braces, behind the opening one. -/
def readBranches? : Nat → List Char → Option (List Glob × List Char)
  | 0, _ => none
  | fuel + 1, cs => do
    match ← readPieces? true fuel [] none cs with
    | (branch, ',' :: cs) =>
      let (branches, cs) ← readBranches? fuel cs
      return (branch :: branches, cs)
    | (branch, _ :: cs) => return ([branch], cs)
    | (_, []) => none

end

/-- Reads a pattern. A pattern of two stars alone accepts every path. -/
def read? (s : String) : Option Glob :=
  let cs := s.toList
  (readPieces? false (2 * cs.length + 2) [] none cs).map fun (g, _) =>
    match g with
    | [.above] => [.anything]
    | _ => g

/-- The patterns that texts spell. A text that spells none counts for nothing. The patterns are one
set: if one of them is nested too deeply, none of them counts. -/
def readAll (texts : List String) : List Glob :=
  let globs := texts.filterMap read?
  if globs.all fun g => depth g ≤ maxDepth then globs else []

/-- One of the patterns accepts the bytes of a text. -/
def anyAccepts (globs : List Glob) (text : String) : Bool :=
  globs.any fun g => g.accepts text.toUTF8.toList

end Glob

end DocIndex
