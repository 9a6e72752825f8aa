import DocIndex.Text.Blank
import DocIndex.Text.Quoted
import DocIndex.Source.Lexeme
import DocIndex.Source.Place

/-!
# Cutting a text into lexemes

A text is cut into stretches, one after the other and without a gap: blanks, lexemes, and faults.
At each point the longest rule wins. A fault takes what an unclosed literal had eaten well, the
opening of a malformed raw string, all the rest for a comment or raw string that never closes, and
a single character anywhere else; cutting goes on right after it.

* `front` — what stands at the front of a text, and how many characters of it.
* `stretches` — the whole text, cut.
* `Lexed.ofText` — its lexemes and faults, with their offsets.
-/

namespace DocIndex

/-- What a text holds that is no lexeme. -/
inductive LexFault
  | unterminatedComment
  | malformedRawString
  | unexpected (text : String)
  deriving DecidableEq, Repr

/-- What a stretch of text is. -/
inductive Role
  | blank
  | lexeme (kind : LexemeKind)
  | fault
  deriving DecidableEq, Repr

/-- A stretch of text and what it is. -/
structure Stretch where
  role : Role
  text : List Char
  deriving DecidableEq, Repr

namespace Lexer

/-! ## Blanks and comments -/

/-- A character that only lays the text out. -/
def isLayout (c : Char) : Bool :=
  c = ' ' || c = '\t' || c = '\r' || c = '\n' || c = '\x0b' || c = '\x0c'

/-- The number of characters that go on with a run of layout: more layout, continued lines, and at
the end a backslash that continues no line. -/
def layoutTail : List Char → Nat
  | [] => 0
  | '\\' :: '\r' :: '\n' :: cs => layoutTail cs + 3
  | '\\' :: '\n' :: cs => layoutTail cs + 2
  | '\\' :: _ => 1
  | c :: cs => if isLayout c then layoutTail cs + 1 else 0

/-- The number of characters of layout at the front. A backslash counts only if it continues a line
or stands directly behind layout. -/
def layoutLength : List Char → Nat
  | [] => 0
  | '\\' :: '\r' :: '\n' :: cs => layoutTail cs + 3
  | '\\' :: '\n' :: cs => layoutTail cs + 2
  | c :: cs => if isLayout c then layoutTail cs + 1 else 0

/-- The number of characters up to the end of the line. -/
def lineLength (cs : List Char) : Nat :=
  (cs.takeWhile fun c => c != '\r' && c != '\n').length

/-- The number of characters before the first occurrence of a word. -/
def before? (word : List Char) : List Char → Option Nat
  | [] => if word.isEmpty then some 0 else none
  | c :: cs => if word.isPrefixOf (c :: cs) then some 0 else (before? word cs).map (· + 1)

/-! ## Words and numbers -/

/-- The character may begin an identifier. -/
def isWordStart (c : Char) : Bool :=
  c.isAlpha || c = '_'

/-- The character may continue an identifier. -/
def isWordPart (c : Char) : Bool :=
  c.isAlphanum || c = '_'

/-- The character may continue a number. -/
def isNumberPart (c : Char) : Bool :=
  isWordPart c || c = '.' || c = '\''

/-- The letter may announce an exponent, so that a sign may follow it. -/
def isExponentMark (c : Char) : Bool :=
  c = 'e' || c = 'E' || c = 'p' || c = 'P'

/-- The number of characters that continue a number. -/
def numberLength : List Char → Nat
  | [] => 0
  | [c] => if isNumberPart c then 1 else 0
  | c :: d :: cs =>
    if isExponentMark c && (d = '+' || d = '-') then numberLength cs + 2
    else if isNumberPart c then numberLength (d :: cs) + 1
    else 0

/-! ## Literals -/

/-- How a string or character literal is written: raw, or between two marks. -/
inductive LiteralForm
  | raw
  | between (mark : Char)
  deriving DecidableEq, Repr

/-- The opening of a literal without encoding: its length and its form. -/
def openingMark? : List Char → Option (Nat × LiteralForm)
  | 'R' :: '"' :: _ => some (2, .raw)
  | '"' :: _ => some (1, .between '"')
  | '\'' :: _ => some (1, .between '\'')
  | _ => none

/-- The opening of a literal, with its encoding if it names one. -/
def opening? : List Char → Option (Nat × LiteralForm)
  | 'u' :: '8' :: cs => (openingMark? cs).map fun m => (m.1 + 2, m.2)
  | 'u' :: cs => (openingMark? cs).map fun m => (m.1 + 1, m.2)
  | 'U' :: cs => (openingMark? cs).map fun m => (m.1 + 1, m.2)
  | 'L' :: cs => (openingMark? cs).map fun m => (m.1 + 1, m.2)
  | cs => openingMark? cs

/-- The body of a literal up to `mark`: how many characters, and whether the mark was found. It is
not found before the end of the line; an escape is never cut in two. -/
def bodyLength (mark : Char) : List Char → Nat × Bool
  | [] => (0, false)
  | '\\' :: c :: cs =>
    -- a backslash escapes no end of line, and is not part of the body then
    if c = '\n' then (0, false)
    else
      let b := bodyLength mark cs
      (b.1 + 2, b.2)
  | c :: cs =>
    if c = mark then (1, true)
    else if c = '\n' || c = '\\' then (0, false)
    else
      let b := bodyLength mark cs
      (b.1 + 1, b.2)

/-- The text may stand between `R"` and `(`. -/
def isDelimiter (cs : List Char) : Bool :=
  byteLength cs ≤ 16 &&
    cs.all fun c => !Text.isBlank c && c != '\\' && c != ')' && c != '"'

/-- What follows the opening of a raw string: the rest of the string, or a fault. -/
def rawTail (cs : List Char) : Role × Nat :=
  match before? ['('] cs with
  | none => (.fault, 0)
  | some n =>
    let delimiter := cs.take n
    if isDelimiter delimiter then
      let closing := ')' :: delimiter ++ ['"']
      match before? closing (cs.drop (n + 1)) with
      | some m => (.lexeme .literal, n + 1 + m + closing.length)
      | none => (.fault, cs.length)
    else (.fault, 0)

/-- The literal whose opening has `n` characters. -/
def literal (n : Nat) (form : LiteralForm) (cs : List Char) : Role × Nat :=
  match form with
  | .raw =>
    let t := rawTail (cs.drop n)
    (t.1, n + t.2)
  | .between mark =>
    let b := bodyLength mark (cs.drop n)
    (if b.2 then .lexeme .literal else .fault, n + b.1)

/-! ## Punctuation -/

/-- The punctuators of more than one character, the longest first. -/
def longPunctuators : List (List Char) :=
  [['-', '>', '*'], ['.', '.', '.'], ['<', '=', '>'], ['<', '<', '='], ['>', '>', '='],
    [':', ':'], ['-', '>'], ['.', '*'], ['+', '+'], ['-', '-'], ['<', '<'], ['>', '>'],
    ['<', '='], ['>', '='], ['=', '='], ['!', '='], ['&', '&'], ['|', '|'], ['+', '='],
    ['-', '='], ['*', '='], ['/', '='], ['%', '='], ['&', '='], ['|', '='], ['^', '='],
    ['#', '#']]

/-- The punctuators of one character. -/
def shortPunctuators : List Char :=
  ['\x7b', '\x7d', '(', ')', '[', ']', ';', ':', ',', '.', '?', '~', '!', '+', '-', '*', '/', '%',
    '^', '&', '|', '=', '<', '>', '#', '@', '\\']

/-- The length of the punctuator at the front, if one stands there. -/
def punctuator? (cs : List Char) : Option Nat :=
  match longPunctuators.find? (·.isPrefixOf cs) with
  | some p => some p.length
  | none =>
    match cs with
    | c :: _ => if shortPunctuators.contains c then some 1 else none
    | [] => none

/-! ## The whole text -/

/-- The text is the front of a number. -/
def startsNumber : List Char → Bool
  | '.' :: c :: _ => c.isDigit
  | c :: _ => c.isDigit
  | [] => false

/-- The kind of a word. -/
def wordKind (word : List Char) : LexemeKind :=
  if isKeyword (String.ofList word) then .keyword else .identifier

/-- What stands at the front of `c :: cs`, and how many characters of it, at least one. -/
def front (c : Char) (cs : List Char) : Role × Nat :=
  let all := c :: cs
  if layoutLength all > 0 then (.blank, layoutLength all)
  else if ['/', '/'].isPrefixOf all then (.lexeme .comment, lineLength all)
  else if ['/', '*'].isPrefixOf all then
    match before? ['*', '/'] (all.drop 2) with
    | some n => (.lexeme .comment, n + 4)
    | none => (.fault, all.length)
  else
    -- before words, since an encoding without its mark is a word
    match opening? all with
    | some (n, form) => literal n form all
    | none =>
      if isWordStart c then
        let word := all.takeWhile isWordPart
        (.lexeme (wordKind word), word.length)
      else if startsNumber all then
        let mark := if c = '.' then 2 else 1
        (.lexeme .literal, mark + numberLength (all.drop mark))
      else
        match punctuator? all with
        | some n => (.lexeme .punctuation, n)
        | none => (.fault, 1)

/-- A text, cut into stretches. -/
def stretches : List Char → List Stretch
  | [] => []
  | c :: cs =>
    let f := front c cs
    { role := f.1, text := c :: cs.take (f.2 - 1) } :: stretches (cs.drop (f.2 - 1))
termination_by cs => cs.length
decreasing_by simp only [List.length_drop, List.length_cons]; omega

end Lexer

namespace LexFault

/-- What is wrong with a stretch that is no lexeme. -/
def ofText (cs : List Char) : LexFault :=
  if ['/', '*'].isPrefixOf cs then .unterminatedComment
  else if (Lexer.before? ['R', '"'] cs).isSome then .malformedRawString
  else .unexpected (String.ofList cs)

/-- How a fault is reported. -/
def message : LexFault → String
  | .unterminatedComment => "unterminated /* comment"
  | .malformedRawString => "malformed raw string literal"
  | .unexpected text => "unexpected character " ++ Text.quoted text

end LexFault

/-- A text's lexemes, and what it holds that is no lexeme with its offset, both in order. -/
structure Lexed where
  lexemes : List Lexeme
  faults : List (Nat × LexFault)
  deriving Repr

namespace Lexed

/-- Reads stretches off from `offset` on; `gap` is the text since the last lexeme, backwards. -/
def ofStretches (offset : Nat) (gap : List Char) : List Stretch → Lexed
  | [] => ⟨[], []⟩
  | s :: rest =>
    let next := offset + byteLength s.text
    match s.role with
    | .blank => ofStretches next (s.text.reverse ++ gap) rest
    | .fault =>
      let l := ofStretches next (s.text.reverse ++ gap) rest
      { l with faults := (offset, LexFault.ofText s.text) :: l.faults }
    | .lexeme kind =>
      let l := ofStretches next [] rest
      let t : Lexeme :=
        { kind
          spelling := String.ofList s.text
          start := offset
          gap := String.ofList gap.reverse }
      { l with lexemes := t :: l.lexemes }

/-- The lexemes and faults of a text. -/
def ofText (cs : List Char) : Lexed :=
  ofStretches 0 [] (Lexer.stretches cs)

end Lexed

end DocIndex
