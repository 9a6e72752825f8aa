import DocIndex.Total

/-!
# Reading bytes as text

`decode` reads bytes as UTF-8. A sequence that is cut short or malformed counts as one piece that
spells nothing, as long as the bytes so far could still have begun a character.

* `Text.decode` — the pieces, one by one.
* `Text.decodeLossy` — the text, with U+FFFD for each piece that spells nothing.
* `Text.firstInvalid?` — the offset of the first byte that is not part of a character.
-/

namespace DocIndex

namespace Text

/-- The byte continues a character. -/
def isContinuation (b : UInt8) : Bool :=
  0x80 ≤ b && b ≤ 0xBF

/-- The byte may be the second of three, after `first`. -/
def isSecondOfThree (first b : UInt8) : Bool :=
  if first = 0xE0 then 0xA0 ≤ b && b ≤ 0xBF
  else if first = 0xED then 0x80 ≤ b && b ≤ 0x9F
  else isContinuation b

/-- The byte may be the second of four, after `first`. -/
def isSecondOfFour (first b : UInt8) : Bool :=
  if first = 0xF0 then 0x90 ≤ b && b ≤ 0xBF
  else if first = 0xF4 then 0x80 ≤ b && b ≤ 0x8F
  else isContinuation b

/-- The character whose code point has these payloads, in groups of six bits. -/
def ofPayloads (lead : Nat) (rest : List UInt8) : Char :=
  Char.ofNat (rest.foldl (fun n b => n * 64 + (b.toNat - 0x80)) lead)

/-- The piece that starts with byte `b`: the character it spells, if any, and how many of the
bytes after `b` belong to it. -/
def piece (b : UInt8) (rest : List UInt8) : Option Char × Nat :=
  if b < 0x80 then (some (Char.ofNat b.toNat), 0)
  else if 0xC2 ≤ b && b ≤ 0xDF then
    match rest with
    | c :: _ => if isContinuation c then (some (ofPayloads (b.toNat - 0xC0) [c]), 1) else (none, 0)
    | [] => (none, 0)
  else if 0xE0 ≤ b && b ≤ 0xEF then
    match rest with
    | c :: d :: _ =>
      if !isSecondOfThree b c then (none, 0)
      else if isContinuation d then (some (ofPayloads (b.toNat - 0xE0) [c, d]), 2)
      else (none, 1)
    | [c] => (none, if isSecondOfThree b c then 1 else 0)
    | [] => (none, 0)
  else if 0xF0 ≤ b && b ≤ 0xF4 then
    match rest with
    | c :: d :: e :: _ =>
      if !isSecondOfFour b c then (none, 0)
      else if !isContinuation d then (none, 1)
      else if isContinuation e then (some (ofPayloads (b.toNat - 0xF0) [c, d, e]), 3)
      else (none, 2)
    | [c, d] =>
      (none, if !isSecondOfFour b c then 0 else if isContinuation d then 2 else 1)
    | [c] => (none, if isSecondOfFour b c then 1 else 0)
    | [] => (none, 0)
  else (none, 0)

/-- The pieces of some bytes, in order: the character, or `none`, and the number of bytes. -/
def decode : List UInt8 → List (Option Char × Nat)
  | [] => []
  | b :: rest =>
    let p := piece b rest
    (p.1, p.2 + 1) :: decode (rest.drop p.2)
termination_by bytes => bytes.length
decreasing_by simp only [List.length_drop, List.length_cons]; omega

/-- The text that the bytes spell, with U+FFFD for each piece that spells nothing. -/
def decodeLossy (bytes : List UInt8) : List Char :=
  (decode bytes).map fun p => p.1.getD '\uFFFD'

/-- The text that the bytes spell, if every piece of them spells a character. -/
def decode? (bytes : List UInt8) : Option (List Char) :=
  (decode bytes).mapM Prod.fst

/-- The offset of the first byte that is not part of a character. -/
def firstInvalid? (bytes : List UInt8) : Option Nat :=
  let valid := (decode bytes).takeWhile fun p => p.1.isSome
  if valid.length = (decode bytes).length then none
  else some (total (valid.map Prod.snd))

/-- The bytes that spell a text. -/
def encode (cs : List Char) : List UInt8 :=
  (String.ofList cs).toUTF8.toList

end Text

end DocIndex
