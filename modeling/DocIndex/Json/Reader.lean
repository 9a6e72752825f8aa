import DocIndex.Json.Basic
import DocIndex.Text.Utf8

/-!
# Reading JSON

`Json.read?` reads one value from bytes, with blanks around it and nothing else. The grammar is that
of JSON without extensions. What the escapes and bytes of a text spell is found out only after it
has been read, so that a text which spells no characters makes its value `Json.unreadable` and not
the whole document invalid.
-/

namespace DocIndex

namespace Json

/-- A byte that may stand between the parts of a value. -/
def isBlankByte (b : UInt8) : Bool :=
  b = 0x20 || b = 0x09 || b = 0x0A || b = 0x0D

/-- What is left behind blanks. -/
def skipBlanks (bytes : List UInt8) : List UInt8 :=
  bytes.dropWhile isBlankByte

/-! ## Texts -/

/-- A part of a text as it is written: a byte of it, or a code unit given by number. -/
inductive TextPart
  | byte (b : UInt8)
  | unit (n : Nat)
  deriving DecidableEq, Repr

/-- The value of a hexadecimal digit. -/
def hexValue? (b : UInt8) : Option Nat :=
  if 0x30 ≤ b && b ≤ 0x39 then some (b.toNat - 0x30)
  else if 0x41 ≤ b && b ≤ 0x46 then some (b.toNat - 0x41 + 10)
  else if 0x61 ≤ b && b ≤ 0x66 then some (b.toNat - 0x61 + 10)
  else none

/-- The number that four hexadecimal digits spell, and what is left behind them. -/
def readHex4? : List UInt8 → Option (Nat × List UInt8)
  | a :: b :: c :: d :: rest => do
    let a ← hexValue? a
    let b ← hexValue? b
    let c ← hexValue? c
    let d ← hexValue? d
    return (((a * 16 + b) * 16 + c) * 16 + d, rest)
  | _ => none

/-- The byte that a letter behind a backslash stands for. -/
def shortEscape? (b : UInt8) : Option UInt8 :=
  if b = 0x22 || b = 0x5C || b = 0x2F then some b
  else if b = 0x62 then some 0x08
  else if b = 0x66 then some 0x0C
  else if b = 0x6E then some 0x0A
  else if b = 0x72 then some 0x0D
  else if b = 0x74 then some 0x09
  else none

/-- Reads a text up to and with the quote that ends it. -/
def readText? : Nat → List UInt8 → Option (List TextPart × List UInt8)
  | 0, _ => none
  | fuel + 1, bytes =>
    match bytes with
    | [] => none
    | b :: rest =>
      if b = 0x22 then some ([], rest)
      else if b < 0x20 then none
      else if b = 0x5C then
        match rest with
        | [] => none
        | e :: rest =>
          if e = 0x75 then do
            let (n, rest) ← readHex4? rest
            let (parts, rest) ← readText? fuel rest
            return (.unit n :: parts, rest)
          else do
            let e ← shortEscape? e
            let (parts, rest) ← readText? fuel rest
            return (.byte e :: parts, rest)
      else do
        let (parts, rest) ← readText? fuel rest
        return (.byte b :: parts, rest)

/-- The bytes that a text comes to. A code unit of a surrogate pair counts only before or behind the
other one. -/
def bytesOfParts? : List TextPart → Option (List UInt8)
  | [] => some []
  | .byte b :: rest => (bytesOfParts? rest).map (b :: ·)
  | .unit n :: rest =>
    if 0xD800 ≤ n && n < 0xDC00 then
      match rest with
      | .unit m :: rest =>
        if 0xDC00 ≤ m && m < 0xE000 then
          let c := Char.ofNat (0x10000 + (n - 0xD800) * 0x400 + (m - 0xDC00))
          (bytesOfParts? rest).map (Text.encode [c] ++ ·)
        else none
      | _ => none
    else if 0xDC00 ≤ n && n < 0xE000 then none
    else (bytesOfParts? rest).map (Text.encode [Char.ofNat n] ++ ·)

/-- The characters that a text spells. -/
def textOfParts? (parts : List TextPart) : Option String := do
  let bytes ← bytesOfParts? parts
  let cs ← Text.decode? bytes
  return String.ofList cs

/-! ## Numbers -/

/-- The byte is a decimal digit. -/
def isDigitByte (b : UInt8) : Bool :=
  0x30 ≤ b && b ≤ 0x39

/-- The length of the digits at the front, if there is one. -/
def digits? (bytes : List UInt8) : Option Nat :=
  let n := (bytes.takeWhile isDigitByte).length
  if n = 0 then none else some n

/-- The length of an integer without sign. It does not start with a zero, unless it is one. -/
def integerLength? (bytes : List UInt8) : Option Nat := do
  let n ← digits? bytes
  if bytes.head? = some 0x30 && n ≠ 1 then none else some n

/-- The length of a fraction, its point included; none is as good as an empty one. -/
def fractionLength? (bytes : List UInt8) : Option Nat :=
  match bytes with
  | b :: rest => if b = 0x2E then (digits? rest).map (· + 1) else some 0
  | [] => some 0

/-- The length of an exponent, its letter included; none is as good as an empty one. -/
def exponentLength? (bytes : List UInt8) : Option Nat :=
  match bytes with
  | b :: rest =>
    if b = 0x65 || b = 0x45 then
      match rest with
      | s :: digits =>
        if s = 0x2B || s = 0x2D then (digits? digits).map (· + 2) else (digits? rest).map (· + 1)
      | [] => none
    else some 0
  | [] => some 0

/-- The length of the number at the front. -/
def numberLength? (bytes : List UInt8) : Option Nat := do
  let sign := if bytes.head? = some 0x2D then 1 else 0
  let i ← integerLength? (bytes.drop sign)
  let f ← fractionLength? (bytes.drop (sign + i))
  let e ← exponentLength? (bytes.drop (sign + i + f))
  return sign + i + f + e

/-- The ASCII characters of some bytes. -/
def asciiText (bytes : List UInt8) : String :=
  String.ofList (bytes.map fun b => Char.ofNat b.toNat)

/-- Reads a number, which is kept as it is written. -/
def readNumber? (bytes : List UInt8) : Option (Json × List UInt8) :=
  (numberLength? bytes).map fun n => (.number (asciiText (bytes.take n)), bytes.drop n)

/-- Reads a word that stands for a value. -/
def readWord? (bytes : List UInt8) : Option (Json × List UInt8) :=
  if "null".toUTF8.toList.isPrefixOf bytes then some (.null, bytes.drop 4)
  else if "true".toUTF8.toList.isPrefixOf bytes then some (.bool true, bytes.drop 4)
  else if "false".toUTF8.toList.isPrefixOf bytes then some (.bool false, bytes.drop 5)
  else none

/-! ## Values -/

/-- An object of members whose keys spell characters, or an unreadable one. -/
def ofMembers (members : List (Option String × Json)) : Json :=
  match members.mapM fun m => m.1.map fun key => (key, m.2) with
  | some members => .object members
  | none => .unreadable

mutual

/-- Reads a value, blanks in front of it included. -/
def readValue? : Nat → List UInt8 → Option (Json × List UInt8)
  | 0, _ => none
  | fuel + 1, bytes =>
    match skipBlanks bytes with
    | [] => none
    | b :: rest =>
      if b = 0x22 then do
        -- only a value that is looked at has to spell characters
        let (parts, rest) ← readText? (rest.length + 1) rest
        return (((textOfParts? parts).map .string).getD .unreadable, rest)
      else if b = 0x5B then do
        let (items, rest) ← readItems? fuel rest
        return (.array items, rest)
      else if b = 0x7B then do
        let (members, rest) ← readMembers? fuel rest
        return (ofMembers members, rest)
      else if b = 0x2D || isDigitByte b then readNumber? (b :: rest)
      else readWord? (b :: rest)

/-- Reads the items of an array up to and with its closing bracket. -/
def readItems? : Nat → List UInt8 → Option (List Json × List UInt8)
  | 0, _ => none
  | fuel + 1, bytes =>
    match skipBlanks bytes with
    | 0x5D :: rest => some ([], rest)
    | bytes => readItemsFrom? fuel bytes

/-- Reads items up to and with the closing bracket, at least one. -/
def readItemsFrom? : Nat → List UInt8 → Option (List Json × List UInt8)
  | 0, _ => none
  | fuel + 1, bytes => do
    let (item, rest) ← readValue? fuel bytes
    match skipBlanks rest with
    | 0x5D :: rest => return ([item], rest)
    | 0x2C :: rest => do
      let (items, rest) ← readItemsFrom? fuel rest
      return (item :: items, rest)
    | _ => none

/-- Reads the members of an object up to and with its closing brace. -/
def readMembers? : Nat → List UInt8 → Option (List (Option String × Json) × List UInt8)
  | 0, _ => none
  | fuel + 1, bytes =>
    match skipBlanks bytes with
    | 0x7D :: rest => some ([], rest)
    | bytes => readMembersFrom? fuel bytes

/-- Reads members up to and with the closing brace, at least one. -/
def readMembersFrom? : Nat → List UInt8 → Option (List (Option String × Json) × List UInt8)
  | 0, _ => none
  | fuel + 1, bytes =>
    match skipBlanks bytes with
    | 0x22 :: rest => do
      let (parts, rest) ← readText? (rest.length + 1) rest
      match skipBlanks rest with
      | 0x3A :: rest => do
        let (j, rest) ← readValue? fuel rest
        match skipBlanks rest with
        | 0x7D :: rest => return ([(textOfParts? parts, j)], rest)
        | 0x2C :: rest => do
          let (members, rest) ← readMembersFrom? fuel rest
          return ((textOfParts? parts, j) :: members, rest)
        | _ => none
      | _ => none
    | _ => none

end

/-- Reads one value from bytes. -/
def read? (bytes : List UInt8) : Option Json := do
  let (j, rest) ← readValue? (3 * bytes.length + 3) bytes
  if (skipBlanks rest).isEmpty then some j else none

end Json

end DocIndex
