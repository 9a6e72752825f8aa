/-!
# Glob patterns

A pattern is a list of pieces, each of which takes some bytes off the front of a path. The case of
ASCII letters does not count. No piece but `byte` and `oneOf` tells a separator from any other byte.

* `Glob.accepts` — the pattern takes all bytes of a path.
-/

namespace DocIndex

/-- A part of a pattern. -/
inductive GlobPiece
  | byte (b : UInt8)
  | anyByte
  /-- Any bytes. -/
  | anything
  /-- Directories in front, or none. -/
  | above
  /-- What is within a directory. -/
  | within
  /-- A separator, with directories behind it or none. -/
  | between
  /-- A byte of some ranges, or of none of them. -/
  | oneOf (negated : Bool) (ranges : List (UInt8 × UInt8))
  /-- One of several patterns. Where there are none, no bytes. -/
  | choice (branches : List (List GlobPiece))
  deriving Repr, Inhabited

/-- A pattern. -/
abbrev Glob := List GlobPiece

namespace Glob

/-- The byte between directories. -/
def separator : UInt8 :=
  0x2F

/-- The lower-case letter of an upper-case one. -/
def lower (b : UInt8) : UInt8 :=
  if 0x41 ≤ b && b ≤ 0x5A then b + 0x20 else b

/-- The upper-case letter of a lower-case one. -/
def upper (b : UInt8) : UInt8 :=
  if 0x61 ≤ b && b ≤ 0x7A then b - 0x20 else b

/-- A range holds the byte, in lower or in upper case. -/
def inRanges (ranges : List (UInt8 × UInt8)) (b : UInt8) : Bool :=
  ranges.any fun (first, last) =>
    (first ≤ lower b && lower b ≤ last) || (first ≤ upper b && upper b ≤ last)

/-- What is left of some bytes behind any number of them. -/
def tails : List UInt8 → List (List UInt8)
  | [] => [[]]
  | b :: bs => (b :: bs) :: tails bs

/-- What is left behind any separator. -/
def tailsBehindSeparators (bs : List UInt8) : List (List UInt8) :=
  (tails bs).filterMap fun t =>
    match t with
    | b :: rest => if b = separator then some rest else none
    | [] => none

mutual

/-- A piece takes bytes off the front, and `rest` holds of what is left. -/
def takes (piece : GlobPiece) (rest : List UInt8 → Bool) (bs : List UInt8) : Bool :=
  match piece with
  | .byte b =>
    match bs with
    | c :: bs => lower b == lower c && rest bs
    | [] => false
  | .anyByte =>
    match bs with
    | _ :: bs => rest bs
    | [] => false
  | .anything => (tails bs).any rest
  | .above => rest bs || (tailsBehindSeparators bs).any rest
  | .within =>
    match bs with
    | b :: bs => b == separator && (tails bs).any rest
    | [] => false
  | .between =>
    match bs with
    | b :: bs => b == separator && (rest bs || (tailsBehindSeparators bs).any rest)
    | [] => false
  | .oneOf negated ranges =>
    match bs with
    | b :: bs => inRanges ranges b != negated && rest bs
    | [] => false
  | .choice branches => (branches.isEmpty && rest bs) || takesOneOf branches rest bs

/-- The pieces take bytes off the front, one after the other, and `rest` holds of what is left. -/
def takesAll (pieces : List GlobPiece) (rest : List UInt8 → Bool) (bs : List UInt8) : Bool :=
  match pieces with
  | [] => rest bs
  | piece :: pieces => takes piece (takesAll pieces rest) bs

/-- One of the branches takes bytes off the front, and `rest` holds of what is left. -/
def takesOneOf (branches : List (List GlobPiece)) (rest : List UInt8 → Bool) (bs : List UInt8) :
    Bool :=
  match branches with
  | [] => false
  | branch :: branches => takesAll branch rest bs || takesOneOf branches rest bs

end

/-- The pattern takes all bytes. -/
def accepts (g : Glob) (bs : List UInt8) : Bool :=
  takesAll g List.isEmpty bs

end Glob

end DocIndex
