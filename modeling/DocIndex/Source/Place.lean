import DocIndex.Bisect
import DocIndex.Total

/-!
# Places in a text

* `Place` — a line, a column and an offset.
* `Extent` — from one place up to another.
* `LineTable` — where the lines of a text start; `LineTable.place` turns an offset into a place.

Lines and columns count from 1, offsets from 0; columns and offsets are in bytes of UTF-8.
-/

namespace DocIndex

/-- A position in a text. -/
structure Place where
  line : Nat
  column : Nat
  offset : Nat
  deriving DecidableEq, Repr, Inhabited

/-- A stretch of text; `stop` is the place just past its last byte. -/
structure Extent where
  start : Place
  stop : Place
  deriving DecidableEq, Repr, Inhabited

/-- The number of bytes that spell a text. -/
def byteLength (cs : List Char) : Nat :=
  total (cs.map Char.utf8Size)

/-- The offsets just past each line feed, for a text whose first character is at `offset`. -/
def lineStartsFrom (offset : Nat) : List Char → List Nat
  | [] => []
  | c :: cs =>
    let next := offset + c.utf8Size
    if c = '\n' then next :: lineStartsFrom next cs else lineStartsFrom next cs

/-- The offsets at which the lines of a text start, in increasing order. -/
structure LineTable where
  starts : Array Nat
  deriving Repr, Inhabited

namespace LineTable

/-- The lines of a text. -/
def ofText (cs : List Char) : LineTable :=
  ⟨(0 :: lineStartsFrom 0 cs).toArray⟩

/-- The place at an offset: the last line that starts no later, and the distance from its start. -/
def place (lines : LineTable) (offset : Nat) : Place :=
  let line := boundary (· ≤ offset) lines.starts - 1
  { line := line + 1
    column := offset - lines.starts.getD line 0 + 1
    offset }

end LineTable

end DocIndex
