import DocIndex.Decimal.Shortest
import DocIndex.Json.Basic

/-!
# Floats in JSON

A float is written by the shortest decimal that rounds to it. It is positional up to `10^16` and
down to `10^-5`, and always has a point there; otherwise it has an exponent. What is not finite is
null.
-/

namespace DocIndex

namespace Json

/-- The decimal digits of a number. -/
def decimalDigits (n : Nat) : List Char :=
  Nat.toDigits 10 n

/-- A decimal as it is written. -/
def decimalText (s : Decimal.Scaled) : List Char :=
  let digits := decimalDigits s.digits
  let zeros (n : Int) := List.replicate n.toNat '0'
  let magnitude := digits.length + s.exponent
  if 0 ≤ s.exponent && magnitude ≤ 16 then digits ++ zeros s.exponent ++ ['.', '0']
  else if 0 < magnitude && magnitude ≤ 16 then
    digits.take magnitude.toNat ++ '.' :: digits.drop magnitude.toNat
  else if -5 < magnitude && magnitude ≤ 0 then ['0', '.'] ++ zeros (-magnitude) ++ digits
  else
    let mantissa := if digits.length = 1 then digits else digits.take 1 ++ '.' :: digits.drop 1
    mantissa ++ 'e' :: (toString (magnitude - 1)).toList

/-- The binary parts of a float: the sign, the exponent with its bias, and the fraction. -/
def floatParts (x : Float) : Bool × Nat × Nat :=
  let bits := x.toBits.toNat
  (0x8000000000000000 ≤ bits, bits >>> 52 % 0x800, bits % 0x10000000000000)

/-- A float. -/
def float (x : Float) : Json :=
  let (negative, exponent, fraction) := floatParts x
  if exponent = 0x7FF then null
  else
    let sign := if negative then ['-'] else []
    let text :=
      if exponent = 0 && fraction = 0 then ['0', '.', '0']
      else if exponent = 0 then decimalText (Decimal.shortest fraction (-1074) false)
      else
        decimalText
          (Decimal.shortest (0x10000000000000 + fraction) (exponent - 1075)
            (fraction = 0 && 1 < exponent))
    number (String.ofList (sign ++ text))

end Json

end DocIndex
