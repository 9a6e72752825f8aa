import DocIndex.Proofs.Source.Place
import DocIndex.Proofs.Text.Decoded
import DocIndex.Source.Decode

/-!
# Two ways to a place

A place is looked up in a table of lines, or counted from the bytes in front of it. The table is
right at every offset, so the place is the same either way. Bytes that spell no text are read as one
that begins with what they do spell; so it is the place in that text, too, that is told of the first
byte that is not part of a character.

* `LineTable.Counts` — the places of a table are those that the bytes make.
* `LineTable.counts` — **every table of lines counts the bytes of its text.**
* `places_agree` — **and the place of what cannot be read is counted alike.**
-/

namespace DocIndex

/-! ## Counting -/

/-- Bytes without a line feed move the position along its line; others move it to a later one. -/
theorem bytePosition_append (front more : List UInt8) :
    (bytePosition front).1 < (bytePosition (front ++ more)).1 ∨
      bytePosition (front ++ more) =
        ((bytePosition front).1, (bytePosition front).2 + more.length) := by
  by_cases hmore : lineFeed ∈ more
  · have := List.count_pos_iff.2 hmore
    simp only [bytePosition, List.count_append]
    omega
  · have hpass : ∀ b ∈ more.reverse, (b != lineFeed) = true := fun b hb =>
      bne_iff_ne.2 fun heq => hmore (heq ▸ List.mem_reverse.1 hb)
    refine .inr (Prod.ext ?_ ?_)
    · simp only [bytePosition, List.count_append, List.count_eq_zero.2 hmore]
    · simp only [bytePosition, List.reverse_append, List.takeWhile_append_of_pos hpass,
        List.length_append, List.length_reverse]
      omega

/-- A line and a column take a byte each. -/
theorem bytePosition_le (bytes : List UInt8) :
    (bytePosition bytes).1 + (bytePosition bytes).2 ≤ bytes.length + 2 := by
  have hcut := List.takeWhile_append_dropWhile (p := (· != lineFeed)) (l := bytes.reverse)
  have hnone : (bytes.reverse.takeWhile (· != lineFeed)).count lineFeed = 0 :=
    List.count_eq_zero.2 fun hmem => by
      simpa using List.all_eq_true.1 List.all_takeWhile lineFeed hmem
  have hcount := congrArg (List.count lineFeed) hcut
  have hlength := congrArg List.length hcut
  have hle := List.count_le_length (a := lineFeed) (l := bytes.reverse.dropWhile (· != lineFeed))
  rw [List.count_append, hnone, List.count_reverse] at hcount
  rw [List.length_append, List.length_reverse] at hlength
  simp only [bytePosition]
  omega

/-! ## Tables of lines -/

/-- The table of lines gives the position that the bytes in front of an offset make. -/
theorem place_encode (cs : List Char) {n : Nat} (hn : n ≤ (Text.encode cs).length) :
    (LineTable.ofText cs).place n =
      { line := (bytePosition ((Text.encode cs).take n)).1
        column := (bytePosition ((Text.encode cs).take n)).2
        offset := n } :=
  place_eq (Text.encode_eq_flatMap cs).symm hn

/-- The places that a table of lines gives are counted from bytes: the line by the line feeds in
front of an offset, the column by the bytes behind the last of them. No place is given twice, and
none has large numbers in front of a short text. -/
structure LineTable.Counts (lines : LineTable) (bytes : List UInt8) : Prop where
  place : ∀ n ≤ bytes.length, lines.place n =
    { line := 1 + (bytes.take n).count lineFeed
      column := 1 + ((bytes.take n).reverse.takeWhile (· != lineFeed)).length
      offset := n }
  ordered : ∀ m n, m < n → n ≤ bytes.length →
    (lines.place m).line < (lines.place n).line ∨
      (lines.place m).line = (lines.place n).line ∧ (lines.place m).column < (lines.place n).column
  unique : ∀ m ≤ bytes.length, ∀ n ≤ bytes.length, (lines.place m).line = (lines.place n).line →
    (lines.place m).column = (lines.place n).column → m = n
  small : ∀ n ≤ bytes.length, (lines.place n).line + (lines.place n).column ≤ n + 2

namespace LineTable

/-- Of two offsets the later one is on a later line, or further along the same. -/
theorem place_lt (cs : List Char) {m n : Nat} (hmn : m < n) (hn : n ≤ (Text.encode cs).length) :
    ((ofText cs).place m).line < ((ofText cs).place n).line ∨
      ((ofText cs).place m).line = ((ofText cs).place n).line ∧
        ((ofText cs).place m).column < ((ofText cs).place n).column := by
  rw [place_encode cs hn, place_encode cs (Nat.le_of_lt (Nat.lt_of_lt_of_le hmn hn))]
  have hfront : (Text.encode cs).take n =
      (Text.encode cs).take m ++ ((Text.encode cs).drop m).take (n - m) := by
    rw [← List.take_add, Nat.add_sub_cancel' (Nat.le_of_lt hmn)]
  have hlength : (((Text.encode cs).drop m).take (n - m)).length = n - m := by
    rw [List.length_take, List.length_drop]
    omega
  rw [hfront]
  rcases bytePosition_append ((Text.encode cs).take m) (((Text.encode cs).drop m).take (n - m)) with
    hline | hposition
  · exact .inl hline
  · rw [hposition, hlength]
    exact .inr ⟨rfl, Nat.lt_add_of_pos_right (Nat.sub_pos_of_lt hmn)⟩

/-- **Every table of lines counts the bytes of its text.** -/
theorem counts (cs : List Char) : (ofText cs).Counts (Text.encode cs) where
  place n hn := by
    rw [place_encode cs hn, bytePosition, Nat.add_comm 1, Nat.add_comm 1]
  ordered m n := place_lt cs
  unique m hm n hn hline hcolumn := by
    rcases Nat.lt_trichotomy m n with hlt | heq | hgt
    · have := place_lt cs hlt hn
      omega
    · exact heq
    · have := place_lt cs hgt hm
      omega
  small n hn := by
    have hsmall := bytePosition_le ((Text.encode cs).take n)
    rw [List.length_take, Nat.min_eq_left hn] at hsmall
    rw [place_encode cs hn]
    exact hsmall

end LineTable

/-! ## Bytes that spell no text -/

/-- Bytes that spell no text are spelled up to one of them. -/
theorem Text.SpelledUpTo.lt_length {bytes : List UInt8} {cs : List Char} {n : Nat}
    (h : SpelledUpTo bytes cs n) (hbytes : ∀ cs, encode cs ≠ bytes) : n < bytes.length := by
  refine Nat.lt_of_not_le fun hle => hbytes cs ?_
  rw [← h.front, List.take_of_length_le hle]

/-- **Places are right, and both ways to them agree.** At every offset of every text, in the middle
of characters, on line feeds and at the end, the table of lines gives the place that the bytes
make. Bytes that spell no text are told of with the place, in the text that is read instead, of the
first one that is not part of a character. -/
theorem places_agree :
    (∀ cs : List Char, (LineTable.ofText cs).Counts (Text.encode cs)) ∧
    ∀ (path : Path) (bytes : List UInt8), (∀ cs, Text.encode cs ≠ bytes) →
      ∃ (cs : List Char) (n : Nat), Text.SpelledUpTo bytes cs n ∧ n < bytes.length ∧
        bytePosition (bytes.take n) =
          (((LineTable.ofText (Text.decodeLossy bytes)).place n).line,
            ((LineTable.ofText (Text.decodeLossy bytes)).place n).column) ∧
        decodingDiagnostic? path bytes =
          some (diagnostic path ((LineTable.ofText (Text.decodeLossy bytes)).place n) "warning"
            "invalid UTF-8, decoded with replacement characters") := by
  refine ⟨LineTable.counts, fun path bytes hbytes => ?_⟩
  obtain ⟨cs, more, n, hspelled, hlossy, hfirst⟩ := Text.exists_spelled bytes
  have hn : n < bytes.length := hspelled.lt_length hbytes
  -- the text that is read begins with what the bytes spell
  have hfront : (Text.encode (Text.decodeLossy bytes)).take n = bytes.take n := by
    rw [hlossy, Text.encode_append, hspelled.length, List.take_left, ← hspelled.length,
      hspelled.front]
  have hle : n ≤ (Text.encode (Text.decodeLossy bytes)).length := by
    rw [hlossy, Text.encode_append, List.length_append, hspelled.length]
    omega
  have hplace := place_encode (Text.decodeLossy bytes) hle
  rw [hfront] at hplace
  refine ⟨cs, n, hspelled, hn, by rw [hplace], ?_⟩
  rw [decodingDiagnostic?, hfirst, if_neg (Nat.ne_of_lt hn), hplace]
  rfl

/-- Of `a`, a line feed, `b`, a byte that spells nothing and `c`, that byte is told of, and it is at
the second column of the second line. -/
theorem places_agree_second_line :
    (∀ cs, Text.encode cs ≠ [0x61, 0x0A, 0x62, 0xFF, 0x63]) ∧
    ∃ (cs : List Char) (n : Nat), Text.SpelledUpTo [0x61, 0x0A, 0x62, 0xFF, 0x63] cs n ∧
      decodingDiagnostic? ⟨"a.h"⟩ [0x61, 0x0A, 0x62, 0xFF, 0x63] =
        some (diagnostic ⟨"a.h"⟩ ((LineTable.ofText ['a', '\n', 'b', '\uFFFD', 'c']).place n)
          "warning" "invalid UTF-8, decoded with replacement characters") ∧
      decodingDiagnostic? ⟨"a.h"⟩ [0x61, 0x0A, 0x62, 0xFF, 0x63] =
        some "a.h:2:2: warning: invalid UTF-8, decoded with replacement characters" := by
  have hlossy : Text.decodeLossy [0x61, 0x0A, 0x62, 0xFF, 0x63] =
      ['a', '\n', 'b', '\uFFFD', 'c'] := by
    decide +kernel
  have hbytes : ∀ cs, Text.encode cs ≠ [0x61, 0x0A, 0x62, 0xFF, 0x63] := by
    intro cs hcs
    have hdecode := Text.decode?_encode cs
    rw [hcs, show Text.decode? [0x61, 0x0A, 0x62, 0xFF, 0x63] = none by decide +kernel] at hdecode
    cases hdecode
  obtain ⟨cs, n, hspelled, -, -, htold⟩ := places_agree.2 ⟨"a.h"⟩ _ hbytes
  rw [hlossy] at htold
  exact ⟨hbytes, cs, n, hspelled, htold, by decide +kernel⟩

end DocIndex
