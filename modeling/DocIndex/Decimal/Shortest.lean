/-!
# The shortest decimal of a float

A finite float is `m · 2^q`. Every real between the midpoints to its two neighbours rounds to it;
the midpoints themselves do where `m` is even.

* `Decimal.shortest` — of all decimals `d · 10^k` that round to the float, one with the fewest
  digits, and among those the nearest.

The search goes down the powers of ten. On each of these grids only the two points next to the float
can be the answer, and on the first grid with a point that rounds to the float the nearest such
point is taken.
-/

namespace DocIndex

namespace Decimal

/-- A natural number `digits` times a power of ten. -/
structure Scaled where
  digits : Nat
  exponent : Int
  deriving DecidableEq, Repr, Inhabited

/-- The numerator of `n · 2^q` over `denominator q`. -/
def numerator (n : Nat) (q : Int) : Nat :=
  n <<< q.toNat

/-- What `numerator n q` is to be divided by. -/
def denominator (q : Int) : Nat :=
  1 <<< (-q).toNat

/-- The reals that round to a float, in units of a quarter of its last binary place: the float is
`value · 2^q`, and the ends belong to it exactly if `closed`. -/
structure Interval where
  low : Nat
  value : Nat
  high : Nat
  q : Int
  closed : Bool
  deriving Repr

/-- The interval of `m · 2^q`. The neighbour below is only half as far away if `narrow`. -/
def Interval.of (m : Nat) (q : Int) (narrow : Bool) : Interval :=
  { low := 4 * m - (if narrow then 1 else 2)
    value := 4 * m
    high := 4 * m + 2
    q := q - 2
    closed := m % 2 == 0 }

namespace Interval

variable (i : Interval)

/-- Compares `n · 2^q` with `d · 10^k`. -/
def compareWith (n : Nat) (s : Scaled) : Ordering :=
  compare (numerator n i.q * Nat.pow 10 (-s.exponent).toNat)
    (s.digits * Nat.pow 10 s.exponent.toNat * denominator i.q)

/-- The decimal rounds to the float. -/
def holds (s : Scaled) : Bool :=
  let below := i.compareWith i.low s
  let above := i.compareWith i.high s
  if i.closed then below.isLE && above.isGE else below == .lt && above == .gt

/-- The point of the grid `10^k` at or just below the float. -/
def floorAt (k : Int) : Scaled :=
  { digits :=
      numerator i.value i.q * Nat.pow 10 (-k).toNat / (Nat.pow 10 k.toNat * denominator i.q)
    exponent := k }

/-- Twice the float, compared with the sum of the two points `d · 10^k` and `(d + 1) · 10^k`. -/
def compareMiddle (s : Scaled) : Ordering :=
  i.compareWith (2 * i.value) { s with digits := 2 * s.digits + 1 }

/-- The point of a grid that is nearest to the float, among those that round to it. Of two points
that are as near, the even one is taken. -/
def pointAt? (k : Int) : Option Scaled :=
  let a := i.floorAt k
  let b := { a with digits := a.digits + 1 }
  match i.holds a, i.holds b with
  | false, false => none
  | true, false => some a
  | false, true => some b
  | true, true =>
    match i.compareMiddle a with
    | .lt => some a
    | .gt => some b
    | .eq => some (if a.digits % 2 == 0 then a else b)

/-- The first point on the grids from `10^k` down. -/
def search : Nat → Int → Scaled
  | 0, k => i.floorAt k
  | fuel + 1, k =>
    match i.pointAt? k with
    | some s => s
    | none => search fuel (k - 1)

end Interval

/-- The shortest decimal that rounds to `m · 2^q`, a number of at most 53 binary digits. The first
grid is coarser than the float, and seventeen digits always suffice. -/
def shortest (m : Nat) (q : Int) (narrow : Bool) : Scaled :=
  let digits := (Nat.log2 m : Int) + 1
  (Interval.of m q narrow).search 21 (((digits + q) * 30103).fdiv 100000 + 2)

end Decimal

end DocIndex
