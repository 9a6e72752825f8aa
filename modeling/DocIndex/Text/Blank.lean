/-!
# Blank characters

* `isBlank` — Unicode's `White_Space` property.
* `trimStart`, `trimEnd`, `trim` — a text without its outer blanks.

The classes of `Char` in the core library know ASCII alone; comments may hold any text, so
trimming here follows the full property.
-/

namespace DocIndex

namespace Text

/-- Unicode's `White_Space` property. -/
def isBlank (c : Char) : Bool :=
  let n := c.toNat
  (0x09 ≤ n && n ≤ 0x0D) || n == 0x20 || n == 0x85 || n == 0xA0 || n == 0x1680 ||
    (0x2000 ≤ n && n ≤ 0x200A) || n == 0x2028 || n == 0x2029 || n == 0x202F ||
    n == 0x205F || n == 0x3000

/-- The text from its first character that is not blank. -/
def trimStart (cs : List Char) : List Char :=
  cs.dropWhile isBlank

/-- The text up to its last character that is not blank. -/
def trimEnd (cs : List Char) : List Char :=
  (cs.reverse.dropWhile isBlank).reverse

/-- The text between its outer blanks. -/
def trim (cs : List Char) : List Char :=
  trimEnd (trimStart cs)

end Text

end DocIndex
