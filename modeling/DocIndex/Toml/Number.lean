import DocIndex.Toml.Basic

/-!
# Numbers and dates in TOML

What a word that starts with a digit or a sign stands for: `Toml.ofWord?`. Underscores may stand
between two digits.
-/

namespace DocIndex

namespace Toml

/-! ## Digits -/

/-- The value of a digit in a base. -/
def digit? (base : Nat) (c : Char) : Option Nat :=
  let n :=
    if '0' ≤ c && c ≤ '9' then c.toNat - '0'.toNat
    else if 'A' ≤ c && c ≤ 'F' then c.toNat - 'A'.toNat + 10
    else if 'a' ≤ c && c ≤ 'f' then c.toNat - 'a'.toNat + 10
    else base
  if n < base then some n else none

/-- The values of digits, behind another digit. Each underscore stands before a digit. -/
def digitsFrom? (base : Nat) : List Char → Option (List Nat)
  | [] => some []
  | '_' :: c :: cs => do return (← digit? base c) :: (← digitsFrom? base cs)
  | c :: cs => do return (← digit? base c) :: (← digitsFrom? base cs)

/-- The values of digits, at least one. -/
def digits? (base : Nat) : List Char → Option (List Nat)
  | [] => none
  | c :: cs => do return (← digit? base c) :: (← digitsFrom? base cs)

/-- The number that digits come to. -/
def ofDigits (base : Nat) (digits : List Nat) : Nat :=
  digits.foldl (fun n d => n * base + d) 0

/-- Decimal digits without a zero in front, unless it is the only one. -/
def wholeDigits? (cs : List Char) : Option (List Nat) := do
  let ds ← digits? 10 cs
  if ds.head? = some 0 && ds.length ≠ 1 then none else some ds

/-- A sign in front, and what is left behind it. -/
def splitSign : List Char → Bool × List Char
  | '-' :: cs => (true, cs)
  | '+' :: cs => (false, cs)
  | cs => (false, cs)

/-! ## Integers -/

/-- An integer, if it fits into 64 bits. -/
def fitting? (n : Int) : Option Int :=
  if -0x8000000000000000 ≤ n && n < 0x8000000000000000 then some n else none

/-- The integer that a word spells. -/
def integer? (word : List Char) : Option Int :=
  match word with
  | '0' :: 'x' :: cs => (digits? 16 cs).bind fun ds => fitting? (ofDigits 16 ds)
  | '0' :: 'o' :: cs => (digits? 8 cs).bind fun ds => fitting? (ofDigits 8 ds)
  | '0' :: 'b' :: cs => (digits? 2 cs).bind fun ds => fitting? (ofDigits 2 ds)
  | _ => do
    let (negative, cs) := splitSign word
    let n : Int := ofDigits 10 (← wholeDigits? cs)
    fitting? (if negative then -n else n)

/-! ## Floats -/

/-- The float `digits · 10^exponent`. Numbers that are far too large or too small for a float are
not worked out. -/
def scaledFloat (digits : List Nat) (exponent : Int) : Float :=
  let n := ofDigits 10 digits
  let magnitude := (digits.dropWhile (· = 0)).length + exponent
  if n = 0 || magnitude < -400 then 0.0
  else if 400 < magnitude then 1.0 / 0.0
  else Float.ofScientific n (exponent < 0) exponent.natAbs

/-- The exponent behind its letter. -/
def exponent? (cs : List Char) : Option Int := do
  let (negative, cs) := splitSign cs
  let n : Int := ofDigits 10 (← digits? 10 cs)
  return if negative then -n else n

/-- A float without its sign: digits, and a fraction or an exponent or both. -/
def unsignedFloat? (cs : List Char) : Option Float := do
  let isMark (c : Char) := c = 'e' || c = 'E'
  let mantissa := cs.takeWhile fun c => !isMark c
  let whole := mantissa.takeWhile (· ≠ '.')
  let ds ← wholeDigits? whole
  let fraction ←
    match mantissa.drop whole.length with
    | [] => some []
    | _ :: cs => digits? 10 cs
  let exponent ←
    match cs.drop mantissa.length with
    | [] => some 0
    | _ :: cs => exponent? cs
  if whole.length = cs.length then none
  else some (scaledFloat (ds ++ fraction) (exponent - fraction.length))

/-- The float that a word spells. A number that is too large is refused, but not below zero. -/
def float? (word : List Char) : Option Float :=
  let (negative, cs) := splitSign word
  let signed (x : Float) := if negative then -x else x
  if cs = ['i', 'n', 'f'] then some (signed (1.0 / 0.0))
  else if cs = ['n', 'a', 'n'] then some (0.0 / 0.0)
  else
    (unsignedFloat? cs).bind fun x => if x.isInf && !negative then none else some (signed x)

/-! ## Dates and times -/

/-- The number that exactly `count` digits come to, and what is left behind them. -/
def readFixed? (count : Nat) (cs : List Char) : Option (Nat × List Char) :=
  if (cs.take count).length = count then
    ((cs.take count).mapM (digit? 10)).map fun ds => (ofDigits 10 ds, cs.drop count)
  else none

/-- The number of days in a month. -/
def daysInMonth (year month : Nat) : Nat :=
  if month = 2 then
    if (year % 4 = 0 && year % 100 ≠ 0) || year % 400 = 0 then 29 else 28
  else if month = 4 || month = 6 || month = 9 || month = 11 then 30
  else 31

/-- What is left behind a date. -/
def dropDate? (cs : List Char) : Option (List Char) := do
  match ← readFixed? 4 cs with
  | (year, '-' :: cs) =>
    match ← readFixed? 2 cs with
    | (month, '-' :: cs) =>
      let (day, cs) ← readFixed? 2 cs
      if 1 ≤ month && month ≤ 12 && 1 ≤ day && day ≤ daysInMonth year month then some cs else none
    | _ => none
  | _ => none

/-- What is left behind hours and minutes. -/
def dropMinutes? (cs : List Char) : Option (List Char) := do
  match ← readFixed? 2 cs with
  | (hour, ':' :: cs) =>
    let (minute, cs) ← readFixed? 2 cs
    if hour ≤ 23 && minute ≤ 59 then some cs else none
  | _ => none

/-- What is left behind a time of day. -/
def dropTime? (cs : List Char) : Option (List Char) := do
  match ← dropMinutes? cs with
  | ':' :: cs =>
    let (second, cs) ← readFixed? 2 cs
    if 60 < second then none
    else
      match cs with
      | '.' :: cs =>
        let fraction := cs.takeWhile Char.isDigit
        if fraction.isEmpty then none else some (cs.drop fraction.length)
      | _ => some cs
  | _ => none

/-- The text is nothing, or an offset from universal time. -/
def isOffset : List Char → Bool
  | [] => true
  | ['Z'] | ['z'] => true
  | c :: cs => (c = '+' || c = '-') && dropMinutes? cs = some []

/-- The text is a date, a time, or both with a letter between them. -/
def isDatetime (word : List Char) : Bool :=
  match dropDate? word with
  | some [] => true
  | some (c :: cs) => (c = 'T' || c = 't') && (dropTime? cs).any isOffset
  | none => dropTime? word = some []

/-! ## Words -/

/-- What a word stands for. -/
def ofWord? (word : List Char) : Option Toml :=
  if isDatetime word then some .datetime
  else
    match float? word with
    | some x => some (.float x)
    | none => (integer? word).map .integer

end Toml

end DocIndex
