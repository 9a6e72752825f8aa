import DocIndex.Text.Utf8

/-!
# Text comes back from its bytes

* `decode_encodeChar` — the bytes of a character are decoded to it.
* `decode?_encode` — **the bytes of a text spell that text.**
* `encode_append` — the bytes of joined texts.
-/

namespace DocIndex

namespace Text

/-! ## Bytes of a text, character by character -/

theorem toList_loop (bs : ByteArray) (i : Nat) (r : List UInt8) :
    ByteArray.toList.loop bs i r = r.reverse ++ bs.data.toList.drop i := by
  fun_induction ByteArray.toList.loop bs i r with
  | case1 i r h ih =>
    have hi : i < bs.data.toList.length := by simpa using h
    rw [ih, List.reverse_cons, List.append_assoc, List.drop_eq_getElem_cons hi]
    congr 2
    simp only [ByteArray.get!]
    rw [getElem!_pos bs.data i (by simpa using h), Array.getElem_toList]
    rfl
  | case2 i r h =>
    have hi : bs.data.toList.length ≤ i := by simpa using h
    rw [List.drop_eq_nil_of_le hi, List.append_nil]

theorem toList_eq_data (bs : ByteArray) : bs.toList = bs.data.toList := by
  rw [ByteArray.toList, toList_loop]
  rfl

theorem encode_eq_flatMap (cs : List Char) : encode cs = cs.flatMap String.utf8EncodeChar := by
  rw [encode, toList_eq_data]
  exact List.toList_data_toByteArray

theorem toUTF8_toList (s : String) : s.toUTF8.toList = encode s.toList := by
  rw [encode, String.ofList_toList]

theorem encode_append (cs ds : List Char) : encode (cs ++ ds) = encode cs ++ encode ds := by
  rw [encode_eq_flatMap, encode_eq_flatMap, encode_eq_flatMap, List.flatMap_append]

theorem encode_cons (c : Char) (cs : List Char) :
    encode (c :: cs) = String.utf8EncodeChar c ++ encode cs := by
  rw [encode_eq_flatMap, encode_eq_flatMap, List.flatMap_cons]

theorem encode_nil : encode [] = [] := by
  rw [encode_eq_flatMap]
  rfl

/-! ## One character -/

theorem ofPayloads_eq {c : Char} {lead : Nat} {rest : List UInt8}
    (h : rest.foldl (fun n b => n * 64 + (b.toNat - 0x80)) lead = c.toNat) :
    ofPayloads lead rest = c := by
  rw [ofPayloads, h, Char.ofNat_toNat]

theorem toNat_ofNat_of_lt {n : Nat} (h : n < 256) : (UInt8.ofNat n).toNat = n := by
  rw [UInt8.toNat_ofNat']
  omega

theorem isContinuation_ofNat {n : Nat} (h₁ : 0x80 ≤ n) (h₂ : n ≤ 0xBF) :
    isContinuation (UInt8.ofNat n) = true := by
  have hn := toNat_ofNat_of_lt (show n < 256 by omega)
  simp only [isContinuation, Bool.and_eq_true, decide_eq_true_eq, UInt8.le_iff_toNat_le, hn]
  exact ⟨h₁, h₂⟩

variable {c : Char} {rest : List UInt8}

theorem piece_one (h : c.toNat ≤ 0x7f) : piece (UInt8.ofNat c.toNat) rest = (some c, 0) := by
  have ha := toNat_ofNat_of_lt (show c.toNat < 256 by omega)
  have hlow : UInt8.ofNat c.toNat < 0x80 := by
    simp only [UInt8.lt_iff_toNat_lt, ha, UInt8.reduceToNat]
    omega
  unfold piece
  rw [if_pos hlow, ha, Char.ofNat_toNat]

theorem piece_two (h₁ : 0x7f < c.toNat) (h₂ : c.toNat ≤ 0x7ff) :
    piece (UInt8.ofNat (c.toNat / 64 % 0x20 + 0xc0))
      (UInt8.ofNat (c.toNat % 0x40 + 0x80) :: rest) = (some c, 1) := by
  have ha := toNat_ofNat_of_lt (show c.toNat / 64 % 0x20 + 0xc0 < 256 by omega)
  have hb := toNat_ofNat_of_lt (show c.toNat % 0x40 + 0x80 < 256 by omega)
  have hcont := isContinuation_ofNat (show 0x80 ≤ c.toNat % 0x40 + 0x80 by omega) (by omega)
  generalize UInt8.ofNat (c.toNat / 64 % 0x20 + 0xc0) = a at ha
  generalize UInt8.ofNat (c.toNat % 0x40 + 0x80) = b at hb hcont
  have hlow : ¬a < 0x80 := by
    simp only [UInt8.lt_iff_toNat_lt, ha, UInt8.reduceToNat]
    omega
  have htwo : (0xC2 ≤ a && a ≤ 0xDF) = true := by
    simp only [Bool.and_eq_true, decide_eq_true_eq, UInt8.le_iff_toNat_le, ha, UInt8.reduceToNat]
    omega
  have hc : ofPayloads (a.toNat - 0xC0) [b] = c := by
    apply ofPayloads_eq
    simp only [List.foldl_cons, List.foldl_nil, ha, hb]
    omega
  unfold piece
  simp only [if_neg hlow, if_pos htwo, hcont, if_true, hc]

theorem piece_three (h₁ : 0x7ff < c.toNat) (h₂ : c.toNat ≤ 0xffff) :
    piece (UInt8.ofNat (c.toNat / 4096 % 0x10 + 0xe0))
      (UInt8.ofNat (c.toNat / 64 % 0x40 + 0x80) :: UInt8.ofNat (c.toNat % 0x40 + 0x80) :: rest) =
        (some c, 2) := by
  -- no surrogate is a character
  have hvalid : c.toNat < 0xD800 ∨ 0xDFFF < c.toNat ∧ c.toNat < 0x110000 := c.valid
  have ha := toNat_ofNat_of_lt (show c.toNat / 4096 % 0x10 + 0xe0 < 256 by omega)
  have hb := toNat_ofNat_of_lt (show c.toNat / 64 % 0x40 + 0x80 < 256 by omega)
  have hd := toNat_ofNat_of_lt (show c.toNat % 0x40 + 0x80 < 256 by omega)
  have hcont := isContinuation_ofNat (show 0x80 ≤ c.toNat % 0x40 + 0x80 by omega) (by omega)
  generalize UInt8.ofNat (c.toNat / 4096 % 0x10 + 0xe0) = a at ha
  generalize UInt8.ofNat (c.toNat / 64 % 0x40 + 0x80) = b at hb
  generalize UInt8.ofNat (c.toNat % 0x40 + 0x80) = d at hd hcont
  have hlow : ¬a < 0x80 := by
    simp only [UInt8.lt_iff_toNat_lt, ha, UInt8.reduceToNat]
    omega
  have htwo : ¬(0xC2 ≤ a && a ≤ 0xDF) = true := by
    simp only [Bool.and_eq_true, decide_eq_true_eq, UInt8.le_iff_toNat_le, ha, UInt8.reduceToNat]
    omega
  have hthree : (0xE0 ≤ a && a ≤ 0xEF) = true := by
    simp only [Bool.and_eq_true, decide_eq_true_eq, UInt8.le_iff_toNat_le, ha, UInt8.reduceToNat]
    omega
  have hsecond : isSecondOfThree a b = true := by
    simp only [isSecondOfThree, isContinuation, UInt8.toNat_inj.symm, ha, UInt8.reduceToNat]
    split
    · simp only [Bool.and_eq_true, decide_eq_true_eq, UInt8.le_iff_toNat_le, hb,
        UInt8.reduceToNat]
      omega
    · split <;>
        (simp only [Bool.and_eq_true, decide_eq_true_eq, UInt8.le_iff_toNat_le, hb,
          UInt8.reduceToNat]
         omega)
  have hc : ofPayloads (a.toNat - 0xE0) [b, d] = c := by
    apply ofPayloads_eq
    simp only [List.foldl_cons, List.foldl_nil, ha, hb, hd]
    omega
  unfold piece
  simp only [if_neg hlow, if_neg htwo, if_pos hthree, hsecond, hcont, Bool.not_true,
    Bool.false_eq_true, if_false, if_true, hc]

theorem piece_four (h : 0xffff < c.toNat) :
    piece (UInt8.ofNat (c.toNat / 262144 % 0x08 + 0xf0))
      (UInt8.ofNat (c.toNat / 4096 % 0x40 + 0x80) :: UInt8.ofNat (c.toNat / 64 % 0x40 + 0x80) ::
        UInt8.ofNat (c.toNat % 0x40 + 0x80) :: rest) = (some c, 3) := by
  have hvalid : c.toNat < 0xD800 ∨ 0xDFFF < c.toNat ∧ c.toNat < 0x110000 := c.valid
  have ha := toNat_ofNat_of_lt (show c.toNat / 262144 % 0x08 + 0xf0 < 256 by omega)
  have hb := toNat_ofNat_of_lt (show c.toNat / 4096 % 0x40 + 0x80 < 256 by omega)
  have hd := toNat_ofNat_of_lt (show c.toNat / 64 % 0x40 + 0x80 < 256 by omega)
  have he := toNat_ofNat_of_lt (show c.toNat % 0x40 + 0x80 < 256 by omega)
  have hcont := isContinuation_ofNat (show 0x80 ≤ c.toNat / 64 % 0x40 + 0x80 by omega) (by omega)
  have hlast := isContinuation_ofNat (show 0x80 ≤ c.toNat % 0x40 + 0x80 by omega) (by omega)
  generalize UInt8.ofNat (c.toNat / 262144 % 0x08 + 0xf0) = a at ha
  generalize UInt8.ofNat (c.toNat / 4096 % 0x40 + 0x80) = b at hb
  generalize UInt8.ofNat (c.toNat / 64 % 0x40 + 0x80) = d at hd hcont
  generalize UInt8.ofNat (c.toNat % 0x40 + 0x80) = e at he hlast
  have hlow : ¬a < 0x80 := by
    simp only [UInt8.lt_iff_toNat_lt, ha, UInt8.reduceToNat]
    omega
  have htwo : ¬(0xC2 ≤ a && a ≤ 0xDF) = true := by
    simp only [Bool.and_eq_true, decide_eq_true_eq, UInt8.le_iff_toNat_le, ha, UInt8.reduceToNat]
    omega
  have hthree : ¬(0xE0 ≤ a && a ≤ 0xEF) = true := by
    simp only [Bool.and_eq_true, decide_eq_true_eq, UInt8.le_iff_toNat_le, ha, UInt8.reduceToNat]
    omega
  have hfour : (0xF0 ≤ a && a ≤ 0xF4) = true := by
    simp only [Bool.and_eq_true, decide_eq_true_eq, UInt8.le_iff_toNat_le, ha, UInt8.reduceToNat]
    omega
  have hsecond : isSecondOfFour a b = true := by
    simp only [isSecondOfFour, isContinuation, UInt8.toNat_inj.symm, ha, UInt8.reduceToNat]
    split
    · simp only [Bool.and_eq_true, decide_eq_true_eq, UInt8.le_iff_toNat_le, hb,
        UInt8.reduceToNat]
      omega
    · split <;>
        (simp only [Bool.and_eq_true, decide_eq_true_eq, UInt8.le_iff_toNat_le, hb,
          UInt8.reduceToNat]
         omega)
  have hc : ofPayloads (a.toNat - 0xF0) [b, d, e] = c := by
    apply ofPayloads_eq
    simp only [List.foldl_cons, List.foldl_nil, ha, hb, hd, he]
    omega
  unfold piece
  simp only [if_neg hlow, if_neg htwo, if_neg hthree, if_pos hfour, hsecond, hcont, hlast,
    Bool.not_true, Bool.false_eq_true, if_false, if_true, hc]

/-- The bytes of a character are one piece, which spells it. -/
theorem decode_encodeChar (c : Char) (rest : List UInt8) :
    decode (String.utf8EncodeChar c ++ rest) =
      (some c, (String.utf8EncodeChar c).length) :: decode rest := by
  unfold String.utf8EncodeChar
  dsimp only
  split
  · rename_i h
    rw [List.singleton_append, decode]
    simp only [Char.toNat_val, piece_one h, List.drop_zero]
    rfl
  · rename_i h₁
    split
    · rename_i h₂
      rw [List.cons_append, List.singleton_append, decode]
      simp only [Char.toNat_val, piece_two (Nat.lt_of_not_le h₁) h₂]
      rfl
    · rename_i h₂
      split
      · rename_i h₃
        rw [List.cons_append, List.cons_append, List.singleton_append, decode]
        simp only [Char.toNat_val, piece_three (Nat.lt_of_not_le h₂) h₃]
        rfl
      · rename_i h₃
        rw [List.cons_append, List.cons_append, List.cons_append, List.singleton_append, decode]
        simp only [Char.toNat_val, piece_four (Nat.lt_of_not_le h₃)]
        rfl

/-- **The bytes of a text spell that text.** -/
theorem decode?_encode (cs : List Char) : decode? (encode cs) = some cs := by
  induction cs with
  | nil =>
    rw [encode_nil, decode?, decode]
    rfl
  | cons c cs ih =>
    rw [decode?] at ih
    rw [encode_cons, decode?, decode_encodeChar, List.mapM_cons, ih]
    rfl

end Text

end DocIndex
