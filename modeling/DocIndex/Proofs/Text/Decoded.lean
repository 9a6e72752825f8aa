import DocIndex.Proofs.Text.Utf8

/-!
# What some bytes spell

Bytes are read as a text as far as they spell one. That is the longest front of theirs that does,
and what is read of the bytes with replacements begins with it.

* `piece_sound` — a piece that spells a character is made of the bytes of that character.
* `exists_spelled` — **the text that is read is the longest that the bytes begin with.**
-/

namespace DocIndex

namespace Text

/-! ## One character -/

theorem toNat_ofNat_of_valid {n : Nat} (h : n.isValidChar) : (Char.ofNat n).toNat = n := by
  rw [Char.ofNat, dif_pos h]
  rfl

theorem ofNat_eq {b : UInt8} {n : Nat} (h : n = b.toNat) : UInt8.ofNat n = b := by
  rw [h, UInt8.ofNat_toNat]

theorem continuation_iff {b : UInt8} :
    isContinuation b = true ↔ 0x80 ≤ b.toNat ∧ b.toNat ≤ 0xBF := by
  simp only [isContinuation, Bool.and_eq_true, decide_eq_true_eq, UInt8.le_iff_toNat_le,
    UInt8.reduceToNat]

/-- The second byte of a longer character continues the first one: behind `low` it is no smaller
than `least`, so that the character is not too short, and behind `high` no larger than `most`. -/
theorem second_bounds {b c low least high most : UInt8} (hne : low ≠ high)
    (hleast : 0x80 ≤ least.toNat) (hmost : most.toNat ≤ 0xBF)
    (h : (if b = low then decide (least ≤ c) && decide (c ≤ 0xBF)
      else if b = high then decide (0x80 ≤ c) && decide (c ≤ most) else isContinuation c) = true) :
    0x80 ≤ c.toNat ∧ c.toNat ≤ 0xBF ∧ (b.toNat = low.toNat → least.toNat ≤ c.toNat) ∧
      (b.toNat = high.toNat → c.toNat ≤ most.toNat) := by
  simp only [UInt8.toNat_inj]
  split at h
  · rename_i hb
    simp only [Bool.and_eq_true, decide_eq_true_eq, UInt8.le_iff_toNat_le, UInt8.reduceToNat] at h
    exact ⟨Nat.le_trans hleast h.1, h.2, fun _ => h.1, fun hb' => absurd (hb.symm.trans hb') hne⟩
  rename_i hlow
  split at h
  · simp only [Bool.and_eq_true, decide_eq_true_eq, UInt8.le_iff_toNat_le, UInt8.reduceToNat] at h
    exact ⟨h.1, Nat.le_trans h.2 hmost, fun hb' => absurd hb' hlow, fun _ => h.2⟩
  · rename_i hhigh
    have hc := continuation_iff.1 h
    exact ⟨hc.1, hc.2, fun hb' => absurd hb' hlow, fun hb' => absurd hb' hhigh⟩

/-- The second of three bytes makes the character neither too short nor a surrogate. -/
theorem secondOfThree {b c : UInt8} (h : isSecondOfThree b c = true) :
    0x80 ≤ c.toNat ∧ c.toNat ≤ 0xBF ∧ (b.toNat = 0xE0 → 0xA0 ≤ c.toNat) ∧
      (b.toNat = 0xED → c.toNat ≤ 0x9F) :=
  second_bounds (by decide) (by decide) (by decide) h

/-- The second of four bytes makes the character neither too short nor larger than the last one. -/
theorem secondOfFour {b c : UInt8} (h : isSecondOfFour b c = true) :
    0x80 ≤ c.toNat ∧ c.toNat ≤ 0xBF ∧ (b.toNat = 0xF0 → 0x90 ≤ c.toNat) ∧
      (b.toNat = 0xF4 → c.toNat ≤ 0x8F) :=
  second_bounds (by decide) (by decide) (by decide) h

theorem encodeChar_one {b : UInt8} (h : b.toNat < 0x80) :
    String.utf8EncodeChar (Char.ofNat b.toNat) = [b] := by
  have hn : (Char.ofNat b.toNat).toNat = b.toNat := toNat_ofNat_of_valid (.inl (by omega))
  unfold String.utf8EncodeChar
  simp only [Char.toNat_val, hn]
  rw [if_pos (by omega), UInt8.ofNat_toNat]

theorem encodeChar_two {b c : UInt8} (hb : 0xC2 ≤ b.toNat ∧ b.toNat ≤ 0xDF)
    (hc : isContinuation c = true) :
    String.utf8EncodeChar (ofPayloads (b.toNat - 0xC0) [c]) = [b, c] := by
  have hc := continuation_iff.1 hc
  obtain ⟨n, hn⟩ : ∃ n, n = (b.toNat - 0xC0) * 64 + (c.toNat - 0x80) := ⟨_, rfl⟩
  have hcode : (ofPayloads (b.toNat - 0xC0) [c]).toNat = n := by
    rw [hn]
    exact toNat_ofNat_of_valid (.inl (by simp only [List.foldl_cons, List.foldl_nil]; omega))
  unfold String.utf8EncodeChar
  simp only [Char.toNat_val, hcode]
  rw [if_neg (by omega), if_pos (by omega), ofNat_eq (b := b) (by omega),
    ofNat_eq (b := c) (by omega)]

theorem encodeChar_three {b c d : UInt8} (hb : 0xE0 ≤ b.toNat ∧ b.toNat ≤ 0xEF)
    (hc : isSecondOfThree b c = true) (hd : isContinuation d = true) :
    String.utf8EncodeChar (ofPayloads (b.toNat - 0xE0) [c, d]) = [b, c, d] := by
  have hc := secondOfThree hc
  have hd := continuation_iff.1 hd
  obtain ⟨n, hn⟩ : ∃ n, n =
      ((b.toNat - 0xE0) * 64 + (c.toNat - 0x80)) * 64 + (d.toNat - 0x80) := ⟨_, rfl⟩
  have hvalid : n < 0xD800 ∨ 0xDFFF < n ∧ n < 0x110000 := by omega
  have hcode : (ofPayloads (b.toNat - 0xE0) [c, d]).toNat = n := by
    rw [hn] at hvalid ⊢
    exact toNat_ofNat_of_valid hvalid
  unfold String.utf8EncodeChar
  simp only [Char.toNat_val, hcode]
  rw [if_neg (by omega), if_neg (by omega), if_pos (by omega), ofNat_eq (b := b) (by omega),
    ofNat_eq (b := c) (by omega), ofNat_eq (b := d) (by omega)]

theorem encodeChar_four {b c d e : UInt8} (hb : 0xF0 ≤ b.toNat ∧ b.toNat ≤ 0xF4)
    (hc : isSecondOfFour b c = true) (hd : isContinuation d = true)
    (he : isContinuation e = true) :
    String.utf8EncodeChar (ofPayloads (b.toNat - 0xF0) [c, d, e]) = [b, c, d, e] := by
  have hc := secondOfFour hc
  have hd := continuation_iff.1 hd
  have he := continuation_iff.1 he
  obtain ⟨n, hn⟩ : ∃ n, n = (((b.toNat - 0xF0) * 64 + (c.toNat - 0x80)) * 64 +
      (d.toNat - 0x80)) * 64 + (e.toNat - 0x80) := ⟨_, rfl⟩
  have hvalid : n < 0xD800 ∨ 0xDFFF < n ∧ n < 0x110000 := by omega
  have hcode : (ofPayloads (b.toNat - 0xF0) [c, d, e]).toNat = n := by
    rw [hn] at hvalid ⊢
    exact toNat_ofNat_of_valid hvalid
  unfold String.utf8EncodeChar
  simp only [Char.toNat_val, hcode]
  rw [if_neg (by omega), if_neg (by omega), if_neg (by omega), ofNat_eq (b := b) (by omega),
    ofNat_eq (b := c) (by omega), ofNat_eq (b := d) (by omega), ofNat_eq (b := e) (by omega)]

/-- **A piece that spells a character is made of its bytes.** -/
theorem piece_sound {b : UInt8} {rest : List UInt8} {c : Char} {k : Nat}
    (h : piece b rest = (some c, k)) : b :: rest = String.utf8EncodeChar c ++ rest.drop k := by
  unfold piece at h
  split at h
  · rename_i hb
    cases h
    rw [encodeChar_one (by simpa [UInt8.lt_iff_toNat_lt] using hb)]
    rfl
  split at h
  · rename_i hb
    simp only [Bool.and_eq_true, decide_eq_true_eq, UInt8.le_iff_toNat_le, UInt8.reduceToNat] at hb
    split at h
    · split at h
      · rename_i hc
        simp only [Prod.mk.injEq, Option.some.injEq] at h
        obtain ⟨rfl, rfl⟩ := h
        rw [encodeChar_two hb hc]
        rfl
      · cases h
    · cases h
  split at h
  · rename_i hb
    simp only [Bool.and_eq_true, decide_eq_true_eq, UInt8.le_iff_toNat_le, UInt8.reduceToNat] at hb
    split at h
    · split at h
      · cases h
      rename_i hc
      split at h
      · rename_i hd
        simp only [Prod.mk.injEq, Option.some.injEq] at h
        obtain ⟨rfl, rfl⟩ := h
        rw [encodeChar_three hb (by simpa using hc) hd]
        rfl
      · cases h
    · cases h
    · cases h
  split at h
  · rename_i hb
    simp only [Bool.and_eq_true, decide_eq_true_eq, UInt8.le_iff_toNat_le, UInt8.reduceToNat] at hb
    split at h
    · split at h
      · cases h
      rename_i hc
      split at h
      · cases h
      rename_i hd
      split at h
      · rename_i he
        simp only [Prod.mk.injEq, Option.some.injEq] at h
        obtain ⟨rfl, rfl⟩ := h
        rw [encodeChar_four hb (by simpa using hc) (by simpa using hd) he]
        rfl
      · cases h
    · cases h
    · cases h
    · cases h
  · cases h

/-! ## The longest front that spells a text -/

/-- The pieces of the bytes of a text: its characters, each with the number of its bytes. -/
def spelledPieces (cs : List Char) : List (Option Char × Nat) :=
  cs.map fun c => (some c, (String.utf8EncodeChar c).length)

theorem decode_encode_append (cs : List Char) (rest : List UInt8) :
    decode (encode cs ++ rest) = spelledPieces cs ++ decode rest := by
  induction cs with
  | nil =>
    rw [encode_nil]
    rfl
  | cons c cs ih =>
    rw [encode_cons, List.append_assoc, decode_encodeChar, ih]
    rfl

theorem total_spelledPieces (cs : List Char) :
    total ((spelledPieces cs).map Prod.snd) = (encode cs).length := by
  induction cs with
  | nil => rw [encode_nil]; rfl
  | cons c cs ih =>
    rw [encode_cons, List.length_append, ← ih]
    rfl

theorem isSome_of_mem_spelledPieces {cs : List Char} {p : Option Char × Nat}
    (h : p ∈ spelledPieces cs) : p.1.isSome = true := by
  obtain ⟨c, -, rfl⟩ := List.mem_map.1 h
  rfl

/-- What comes behind a text that some bytes begin with, where the next piece spells nothing. -/
theorem exists_front (bytes : List UInt8) : ∃ (cs : List Char) (rest : List UInt8),
    bytes = encode cs ++ rest ∧ ∀ p ∈ (decode rest).head?, p.1 = none := by
  fun_induction decode bytes with
  | case1 => exact ⟨[], [], by rw [encode_nil]; rfl, by rw [decode]; simp⟩
  | case2 b rest p ih =>
    cases hp : p.1 with
    | none =>
      refine ⟨[], b :: rest, by rw [encode_nil]; rfl, ?_⟩
      rw [decode]
      simpa [p] using hp
    | some c =>
      have hpiece : piece b rest = (some c, p.2) := Prod.ext hp rfl
      obtain ⟨cs, rest', hrest, hnone⟩ := ih
      refine ⟨c :: cs, rest', ?_, hnone⟩
      rw [piece_sound hpiece, hrest, encode_cons, List.append_assoc]

/-- The bytes spell a text up to offset `n`, and no more of them do. -/
structure SpelledUpTo (bytes : List UInt8) (cs : List Char) (n : Nat) : Prop where
  length : n = (encode cs).length
  front : bytes.take n = encode cs
  longest : ∀ m, n < m → m ≤ bytes.length → ∀ ds, encode ds ≠ bytes.take m

/-- **Bytes are read up to the longest text that they begin with**, and all of it is part of what is
read. -/
theorem exists_spelled (bytes : List UInt8) : ∃ (cs more : List Char) (n : Nat),
    SpelledUpTo bytes cs n ∧ decodeLossy bytes = cs ++ more ∧
      firstInvalid? bytes = if n = bytes.length then none else some n := by
  obtain ⟨cs, rest, hbytes, hnone⟩ := exists_front bytes
  have hdecode : decode bytes = spelledPieces cs ++ decode rest := by
    rw [hbytes, decode_encode_append]
  have hvalid : (decode bytes).takeWhile (fun p => p.1.isSome) = spelledPieces cs := by
    rw [hdecode, List.takeWhile_append_of_pos fun p => isSome_of_mem_spelledPieces]
    cases hrest : decode rest with
    | nil => simp
    | cons p ps =>
      rw [hrest] at hnone
      simp [hnone p rfl]
  have hlength : bytes.length = (encode cs).length + rest.length := by
    rw [hbytes, List.length_append]
  refine ⟨cs, decodeLossy rest, (encode cs).length, ⟨rfl, ?_, fun m hlt hle ds hds => ?_⟩, ?_, ?_⟩
  · rw [hbytes, List.take_left]
  · -- a longer text would have more pieces that spell something
    have hdecode' : decode bytes = spelledPieces ds ++ decode (bytes.drop m) := by
      rw [← decode_encode_append, hds, List.take_append_drop]
    have hpieces : spelledPieces cs =
        spelledPieces ds ++ (decode (bytes.drop m)).takeWhile fun p => p.1.isSome := by
      rw [← hvalid, hdecode']
      exact List.takeWhile_append_of_pos fun p => isSome_of_mem_spelledPieces
    have htotal := congrArg (fun ps => total (ps.map Prod.snd)) hpieces
    simp only [List.map_append, total_append, total_spelledPieces] at htotal
    have hm : (encode ds).length = m := by rw [hds, List.length_take]; omega
    omega
  · rw [decodeLossy, hdecode, List.map_append, spelledPieces, List.map_map]
    exact congrArg (· ++ decodeLossy rest) (List.map_id cs)
  · have hempty : (decode rest).length = 0 ↔ rest.length = 0 := by
      cases rest with
      | nil => simp [decode]
      | cons b rest => simp [decode]
    have hall : (spelledPieces cs).length = (spelledPieces cs ++ decode rest).length ↔
        (encode cs).length = bytes.length := by
      rw [List.length_append]
      omega
    unfold firstInvalid?
    dsimp only
    rw [hvalid, hdecode, total_spelledPieces]
    simp only [hall]

end Text

end DocIndex
