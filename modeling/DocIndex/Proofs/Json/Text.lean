import DocIndex.Json.Printer
import DocIndex.Json.Reader
import DocIndex.Proofs.Text.Utf8
import Mathlib.Tactic.IntervalCases

/-!
# Texts within JSON come back

* `Json.Spells` — parts of a text, as they are read, spell some characters.
* `spells_escape` — what a character is written as is read as parts that spell it.
* `readText?_escapeAll` — **a text that was printed is read as that text**, whatever comes behind
  it.
-/

namespace DocIndex

namespace Json

open Text

/-- The bytes `written` are read as parts that come to the bytes `meant`. -/
structure Spells (written : List UInt8) (parts : List TextPart) (meant : List UInt8) : Prop where
  read : ∀ fuel bytes rest ps, readText? fuel bytes = some (ps, rest) →
    readText? (fuel + parts.length) (written ++ bytes) = some (parts ++ ps, rest)
  meant_eq : ∀ ps bs, bytesOfParts? ps = some bs → bytesOfParts? (parts ++ ps) = some (meant ++ bs)
  length_le : parts.length ≤ written.length

namespace Spells

theorem nil : Spells [] [] [] where
  read _ _ _ _ h := h
  meant_eq _ _ h := h
  length_le := Nat.le_refl _

theorem append {w₁ w₂ m₁ m₂ : List UInt8} {p₁ p₂ : List TextPart} (h₁ : Spells w₁ p₁ m₁)
    (h₂ : Spells w₂ p₂ m₂) : Spells (w₁ ++ w₂) (p₁ ++ p₂) (m₁ ++ m₂) where
  read fuel bytes rest ps h := by
    have h := h₁.read _ _ _ _ (h₂.read _ _ _ _ h)
    rw [List.append_assoc, List.append_assoc, List.length_append, Nat.add_comm p₁.length,
      ← Nat.add_assoc]
    exact h
  meant_eq ps bs h := by
    rw [List.append_assoc, List.append_assoc]
    exact h₁.meant_eq _ _ (h₂.meant_eq _ _ h)
  length_le := by
    have := h₁.length_le
    have := h₂.length_le
    rw [List.length_append, List.length_append]
    omega

end Spells

/-! ## One character -/

/-- A byte that is written as it is. -/
theorem spells_byte {b : UInt8} (hquote : b ≠ 0x22) (hcontrol : ¬b < 0x20) (hslash : b ≠ 0x5C) :
    Spells [b] [.byte b] [b] where
  read fuel bytes rest ps h := by
    rw [List.singleton_append, List.length_singleton]
    unfold readText?
    dsimp only
    rw [if_neg hquote, if_neg hcontrol, if_neg hslash, h]
    rfl
  meant_eq ps bs h := by
    rw [List.singleton_append, bytesOfParts?, h]
    rfl
  length_le := Nat.le_refl _

theorem spells_bytes {bs : List UInt8}
    (h : ∀ b ∈ bs, b ≠ 0x22 ∧ ¬b < 0x20 ∧ b ≠ 0x5C) : Spells bs (bs.map .byte) bs := by
  induction bs with
  | nil => exact .nil
  | cons b bs ih =>
    obtain ⟨hquote, hcontrol, hslash⟩ := h b List.mem_cons_self
    exact (spells_byte hquote hcontrol hslash).append
      (ih fun b hb => h b (List.mem_cons_of_mem _ hb))

/-- A byte that is written as a backslash and a letter. -/
theorem spells_shortEscape {e b : UInt8} (hunit : e ≠ 0x75) (h : shortEscape? e = some b) :
    Spells [0x5C, e] [.byte b] [b] where
  read fuel bytes rest ps hr := by
    rw [List.cons_append, List.singleton_append, List.length_singleton]
    unfold readText?
    dsimp only
    rw [if_neg (by decide), if_neg (by decide), if_pos rfl, if_neg hunit, h, hr]
    rfl
  meant_eq ps bs hb := by
    rw [List.singleton_append, bytesOfParts?, hb]
    rfl
  length_le := Nat.le_succ _

theorem readHex4?_append {bytes rest : List UInt8} {n : Nat}
    (h : readHex4? bytes = some (n, [])) : readHex4? (bytes ++ rest) = some (n, rest) := by
  match bytes, h with
  | [a, b, c, d], h =>
    rw [List.cons_append, List.cons_append, List.cons_append, List.cons_append, List.nil_append]
    unfold readHex4? at h ⊢
    cases ha : hexValue? a <;> cases hb : hexValue? b <;> cases hc : hexValue? c <;>
      cases hd : hexValue? d <;> simp_all
  | a :: b :: c :: d :: e :: more, h =>
    unfold readHex4? at h
    cases ha : hexValue? a <;> cases hb : hexValue? b <;> cases hc : hexValue? c <;>
      cases hd : hexValue? d <;> simp_all

/-- A control that is written by its number. -/
theorem spells_control {n : Nat} (h : n < 0x20) :
    Spells (0x5C :: 0x75 :: encode (hexDigits4 n)) [.unit n] (encode [Char.ofNat n]) where
  read fuel bytes rest ps hr := by
    have hhex : readHex4? ((hexDigits4 n).flatMap String.utf8EncodeChar) = some (n, []) := by
      have hall : ∀ n < 32,
          readHex4? ((hexDigits4 n).flatMap String.utf8EncodeChar) = some (n, []) := by
        decide +kernel
      exact hall n h
    rw [List.cons_append, List.cons_append, List.length_singleton]
    unfold readText?
    dsimp only
    rw [if_neg (by decide), if_neg (by decide), if_pos rfl, if_pos rfl, encode_eq_flatMap,
      readHex4?_append hhex]
    simp only [hr, Option.bind_eq_bind, Option.bind_some]
    rfl
  meant_eq ps bs hb := by
    rw [List.singleton_append]
    unfold bytesOfParts?
    dsimp only
    rw [if_neg (by simp; omega), if_neg (by simp; omega), hb]
    rfl
  length_le := by simp

theorem byte_of_not_ascii {c : Char} (h : 0x7f < c.toNat) {b : UInt8}
    (hb : b ∈ String.utf8EncodeChar c) : 0x80 ≤ b.toNat := by
  rw [← Char.toNat_val] at h
  unfold String.utf8EncodeChar at hb
  dsimp only at hb
  rw [if_neg (Nat.not_le.2 h)] at hb
  have hvalid : c.toNat < 0xD800 ∨ 0xDFFF < c.toNat ∧ c.toNat < 0x110000 := c.valid
  rw [← Char.toNat_val] at hvalid
  split at hb
  · simp only [List.mem_cons, List.not_mem_nil, or_false] at hb
    rcases hb with rfl | rfl <;> (rw [UInt8.toNat_ofNat']; omega)
  · split at hb
    · simp only [List.mem_cons, List.not_mem_nil, or_false] at hb
      rcases hb with rfl | rfl | rfl <;> (rw [UInt8.toNat_ofNat']; omega)
    · simp only [List.mem_cons, List.not_mem_nil, or_false] at hb
      rcases hb with rfl | rfl | rfl | rfl <;> (rw [UInt8.toNat_ofNat']; omega)

/-- The bytes of a character that is no control, no quote and no backslash are written as they
are. -/
theorem spells_plain {c : Char} (hquote : c ≠ '"') (hslash : c ≠ '\\')
    (hcontrol : ¬c.toNat < 0x20) :
    Spells (encode [c]) ((encode [c]).map .byte) (encode [c]) := by
  apply spells_bytes
  rw [encode_eq_flatMap, List.flatMap_singleton]
  intro b hb
  have hquote' : c.toNat ≠ 0x22 := fun h => hquote (Char.toNat_inj.1 h)
  have hslash' : c.toNat ≠ 0x5C := fun h => hslash (Char.toNat_inj.1 h)
  have hbyte : b.toNat ≠ 0x22 ∧ ¬b.toNat < 0x20 ∧ b.toNat ≠ 0x5C := by
    by_cases hascii : c.toNat ≤ 0x7f
    · unfold String.utf8EncodeChar at hb
      dsimp only at hb
      rw [Char.toNat_val, if_pos hascii, List.mem_singleton] at hb
      subst hb
      rw [UInt8.toNat_ofNat']
      omega
    · have := byte_of_not_ascii (Nat.lt_of_not_le hascii) hb
      omega
  refine ⟨?_, ?_, ?_⟩
  · rintro rfl
    exact hbyte.1 rfl
  · rw [UInt8.lt_iff_toNat_lt]
    exact hbyte.2.1
  · rintro rfl
    exact hbyte.2.2 rfl

/-- **What a character is written as spells it.** -/
theorem spells_escape (c : Char) :
    ∃ parts, Spells (encode (Json.escape c)) parts (encode [c]) := by
  have short {e b : UInt8} {c d : Char} (hw : ['\\', d].flatMap String.utf8EncodeChar = [0x5C, e])
      (hm : [c].flatMap String.utf8EncodeChar = [b]) (hunit : e ≠ 0x75)
      (h : shortEscape? e = some b) : ∃ parts, Spells (encode ['\\', d]) parts (encode [c]) := by
    rw [encode_eq_flatMap, encode_eq_flatMap, hw, hm]
    exact ⟨_, spells_shortEscape hunit h⟩
  unfold Json.escape
  split
  · subst c
    exact short (e := 0x22) (b := 0x22) (by decide) (by decide) (by decide) (by decide)
  split
  · subst c
    exact short (e := 0x5C) (b := 0x5C) (by decide) (by decide) (by decide) (by decide)
  split
  · subst c
    exact short (e := 0x62) (b := 0x08) (by decide) (by decide) (by decide) (by decide)
  split
  · subst c
    exact short (e := 0x66) (b := 0x0C) (by decide) (by decide) (by decide) (by decide)
  split
  · subst c
    exact short (e := 0x6E) (b := 0x0A) (by decide) (by decide) (by decide) (by decide)
  split
  · subst c
    exact short (e := 0x72) (b := 0x0D) (by decide) (by decide) (by decide) (by decide)
  split
  · subst c
    exact short (e := 0x74) (b := 0x09) (by decide) (by decide) (by decide) (by decide)
  split
  · rename_i h
    have hw : encode (['\\', 'u'] ++ hexDigits4 c.toNat) =
        0x5C :: 0x75 :: encode (hexDigits4 c.toNat) := by
      rw [encode_append, encode_eq_flatMap ['\\', 'u']]
      rfl
    have hspells := spells_control h
    rw [Char.ofNat_toNat] at hspells
    exact ⟨_, hw ▸ hspells⟩
  · exact ⟨_, spells_plain ‹_› ‹_› ‹_›⟩

/-! ## A whole text -/

theorem spells_escapeAll (cs : List Char) :
    ∃ parts, Spells (encode (cs.flatMap Json.escape)) parts (encode cs) := by
  induction cs with
  | nil =>
    rw [List.flatMap_nil, encode_nil]
    exact ⟨[], .nil⟩
  | cons c cs ih =>
    obtain ⟨p₁, h₁⟩ := spells_escape c
    obtain ⟨p₂, h₂⟩ := ih
    refine ⟨p₁ ++ p₂, ?_⟩
    rw [List.flatMap_cons, encode_append, ← List.singleton_append, encode_append]
    exact h₁.append h₂

theorem readText?_mono {fuel fuel' : Nat} {bytes rest : List UInt8} {ps : List TextPart}
    (hle : fuel ≤ fuel') (h : readText? fuel bytes = some (ps, rest)) :
    readText? fuel' bytes = some (ps, rest) := by
  induction fuel generalizing fuel' bytes rest ps with
  | zero => cases h
  | succ fuel ih =>
    obtain ⟨more, rfl⟩ : ∃ more, fuel' = more + 1 := ⟨fuel' - 1, by omega⟩
    have hmore : fuel ≤ more := by omega
    have key : ∀ {b : List UInt8} {r : List TextPart × List UInt8},
        readText? fuel b = some r → readText? more b = some r := fun h => ih hmore h
    unfold readText? at h ⊢
    split at h
    · cases h
    · split at h
      · rwa [if_pos ‹_›]
      rw [if_neg ‹_›]
      split at h
      · cases h
      rw [if_neg ‹_›]
      split at h
      · rw [if_pos ‹_›]
        split at h
        · cases h
        split at h
        · rw [if_pos ‹_›]
          obtain ⟨⟨n, r⟩, hn, h⟩ := Option.bind_eq_some_iff.1 h
          obtain ⟨⟨p, r'⟩, hp, h⟩ := Option.bind_eq_some_iff.1 h
          simp only [hn, key hp, Option.bind_eq_bind, Option.bind_some]
          exact h
        · rw [if_neg ‹_›]
          obtain ⟨n, hn, h⟩ := Option.bind_eq_some_iff.1 h
          obtain ⟨⟨p, r'⟩, hp, h⟩ := Option.bind_eq_some_iff.1 h
          simp only [hn, key hp, Option.bind_eq_bind, Option.bind_some]
          exact h
      · rw [if_neg ‹_›]
        obtain ⟨⟨p, r'⟩, hp, h⟩ := Option.bind_eq_some_iff.1 h
        simp only [key hp, Option.bind_eq_bind, Option.bind_some]
        exact h

/-- **A text that was printed is read as that text**, up to and with its closing quote. -/
theorem readText?_escapeAll (cs : List Char) (rest : List UInt8) (fuel : Nat)
    (hf : (encode (cs.flatMap Json.escape)).length < fuel) :
    ∃ parts, readText? fuel (encode (cs.flatMap Json.escape) ++ 0x22 :: rest) = some (parts, rest) ∧
      textOfParts? parts = some (String.ofList cs) := by
  obtain ⟨parts, h⟩ := spells_escapeAll cs
  have hend : readText? 1 (0x22 :: rest) = some ([], rest) := rfl
  refine ⟨parts, ?_, ?_⟩
  · have hread := h.read _ _ _ _ hend
    rw [List.append_nil] at hread
    have := h.length_le
    exact readText?_mono (by omega) hread
  · have hmeant := h.meant_eq [] [] rfl
    rw [List.append_nil, List.append_nil] at hmeant
    rw [textOfParts?, hmeant]
    simp only [Option.bind_eq_bind, Option.bind_some, decode?_encode]
    rfl

end Json

end DocIndex
