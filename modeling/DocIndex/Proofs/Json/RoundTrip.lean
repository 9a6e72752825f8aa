import DocIndex.Proofs.Json.Text
import Mathlib.Data.List.Basic

/-!
# Values within JSON come back

A value is plain if its numbers are natural and all of it can be read. Everything that an index is
written down as is plain.

* `Plain` — what a plain value is made of.
* `reads_of_plain` — a plain value is read from what it was written as, whatever stands behind it, if
  only it does not go on.
* `read?_compact` — **a plain value comes back from its bytes.**
-/

namespace DocIndex

namespace Json

open Text

/-- A value without unreadable parts and with natural numbers alone. -/
inductive Plain : Json → Prop
  | null : Plain null
  | bool (b : Bool) : Plain (bool b)
  | nat (n : Nat) : Plain (nat n)
  | string (s : String) : Plain (string s)
  | array {items : List Json} (h : ∀ j ∈ items, Plain j) : Plain (array items)
  | object {members : List (String × Json)} (h : ∀ m ∈ members, Plain m.2) : Plain (object members)

theorem plain_strings (ss : List String) : Plain (strings ss) := by
  refine .array fun j hj => ?_
  obtain ⟨s, -, rfl⟩ := List.mem_map.1 hj
  exact .string s

/-- The bytes of a value on one line. -/
def written (j : Json) : List UInt8 :=
  encode j.compact.toList

/-- The bytes of items with commas between them. -/
def writtenItems (items : List Json) : List UInt8 :=
  encode (compactItems items).toList

/-- The bytes of a text with its quotes. -/
def writtenText (s : String) : List UInt8 :=
  encode (quote s).toList

/-- The bytes of members with commas between them. -/
def writtenMembers (members : List (String × Json)) : List UInt8 :=
  encode (compactMembers members).toList

/-! ## What is written -/

theorem writtenText_eq (s : String) :
    writtenText s = 0x22 :: encode (s.toList.flatMap Json.escape) ++ [0x22] := by
  have hquote : encode ['"'] = [0x22] := by
    rw [encode_eq_flatMap]
    rfl
  rw [writtenText, quote, String.toList_ofList, ← List.singleton_append, encode_append,
    encode_append, hquote]
  rfl

theorem written_string (s : String) : written (.string s) = writtenText s := by
  rw [written, writtenText]
  unfold compact
  rfl

theorem written_array (items : List Json) :
    written (.array items) = 0x5B :: writtenItems items ++ [0x5D] := by
  have hl : encode "[".toList = [0x5B] := by
    rw [encode_eq_flatMap]
    rfl
  have hr : encode "]".toList = [0x5D] := by
    rw [encode_eq_flatMap]
    rfl
  rw [written, compact, String.toList_append, String.toList_append, encode_append, encode_append,
    hl, hr]
  rfl

theorem written_object (members : List (String × Json)) :
    written (.object members) = 0x7B :: writtenMembers members ++ [0x7D] := by
  have hl : encode "\x7b".toList = [0x7B] := by
    rw [encode_eq_flatMap]
    rfl
  have hr : encode "\x7d".toList = [0x7D] := by
    rw [encode_eq_flatMap]
    rfl
  rw [written, compact, String.toList_append, String.toList_append, encode_append, encode_append,
    hl, hr]
  rfl

theorem encode_comma : encode ",".toList = [0x2C] := by
  rw [encode_eq_flatMap]
  rfl

theorem encode_colon : encode ":".toList = [0x3A] := by
  rw [encode_eq_flatMap]
  rfl

theorem writtenItems_singleton (j : Json) : writtenItems [j] = written j := by
  rw [writtenItems, compactItems, written]

theorem writtenItems_cons (j k : Json) (rest : List Json) :
    writtenItems (j :: k :: rest) = written j ++ 0x2C :: writtenItems (k :: rest) := by
  rw [writtenItems, compactItems, String.toList_append, String.toList_append, encode_append,
    encode_append, encode_comma, List.append_assoc]
  rfl

theorem writtenMembers_singleton (key : String) (j : Json) :
    writtenMembers [(key, j)] = writtenText key ++ 0x3A :: written j := by
  rw [writtenMembers, compactMembers, String.toList_append, String.toList_append, encode_append,
    encode_append, encode_colon, List.append_assoc]
  rfl

theorem writtenMembers_cons (key : String) (j : Json) (m : String × Json)
    (rest : List (String × Json)) :
    writtenMembers ((key, j) :: m :: rest) =
      writtenText key ++ 0x3A :: (written j ++ 0x2C :: writtenMembers (m :: rest)) := by
  rw [writtenMembers, compactMembers]
  simp only [String.toList_append, encode_append, encode_comma, encode_colon, List.append_assoc]
  rfl

/-! ## Numbers -/

/-- The digits of a number do not start with a zero, unless it is zero. -/
theorem head?_toDigits {n : Nat} (h : (Nat.toDigits 10 n).head? = some '0') : n = 0 := by
  induction n using Nat.strongRecOn with
  | _ n ih =>
    rw [Nat.toDigits_eq_if (by decide)] at h
    split at h
    · have hall : ∀ n < 10, ['0'].head? = [Nat.digitChar n].head? → n = 0 := by decide
      exact hall n ‹_› h.symm
    · rw [List.head?_append_of_ne_nil _ Nat.toDigits_ne_nil] at h
      have := ih (n / 10) (by omega) h
      omega

theorem isDigit_toDigits (n : Nat) : ∀ c ∈ Nat.toDigits 10 n, c.isDigit :=
  fun _ hc => Nat.isDigit_of_mem_toDigits (by decide) (by decide) hc

/-- The byte of a decimal digit. -/
theorem byte_of_digit {c : Char} (hc : c.isDigit) :
    String.utf8EncodeChar c = [c.toNat.toUInt8] ∧ isDigitByte c.toNat.toUInt8 ∧
      Char.ofNat c.toNat.toUInt8.toNat = c := by
  have hrange : 48 ≤ c.toNat ∧ c.toNat ≤ 57 := by
    simp only [Char.isDigit, Bool.and_eq_true, decide_eq_true_eq, UInt32.le_iff_toNat_le] at hc
    exact hc
  have hbyte : c.toNat.toUInt8.toNat = c.toNat := by
    rw [Nat.toUInt8_eq, UInt8.toNat_ofNat']
    omega
  refine ⟨?_, ?_, ?_⟩
  · unfold String.utf8EncodeChar
    dsimp only
    rw [if_pos (by rw [Char.toNat_val]; omega)]
    rfl
  · simp only [isDigitByte, Bool.and_eq_true, decide_eq_true_eq, UInt8.le_iff_toNat_le, hbyte]
    exact hrange
  · rw [hbyte, Char.ofNat_toNat]

variable {cs : List Char}

theorem encode_digits (h : ∀ c ∈ cs, c.isDigit) :
    encode cs = cs.map fun c => c.toNat.toUInt8 := by
  induction cs with
  | nil => exact encode_nil
  | cons c cs ih =>
    rw [encode_cons, (byte_of_digit (h c List.mem_cons_self)).1,
      ih fun c hc => h c (List.mem_cons_of_mem _ hc)]
    rfl

theorem isDigitByte_of_mem (h : ∀ c ∈ cs, c.isDigit) {b : UInt8} (hb : b ∈ encode cs) :
    isDigitByte b := by
  rw [encode_digits h] at hb
  obtain ⟨c, hc, rfl⟩ := List.mem_map.1 hb
  exact (byte_of_digit (h c hc)).2.1

theorem asciiText_digits (h : ∀ c ∈ cs, c.isDigit) : asciiText (encode cs) = String.ofList cs := by
  rw [asciiText, encode_digits h, List.map_map]
  congr 1
  refine (List.map_congr_left fun c hc => ?_).trans (List.map_id _)
  exact (byte_of_digit (h c hc)).2.2

/-- Nothing stands there, or what stands between or behind the parts of a value. -/
def Ends (rest : List UInt8) : Prop :=
  ∀ b ∈ rest.head?, b = 0x2C ∨ b = 0x5D ∨ b = 0x7D

theorem ends_nil : Ends [] := by
  intro b hb
  cases hb

theorem ends_cons {b : UInt8} {rest : List UInt8} (h : b = 0x2C ∨ b = 0x5D ∨ b = 0x7D) :
    Ends (b :: rest) := by
  intro b' hb
  cases hb
  exact h

theorem digits?_append {ds rest : List UInt8} (hds : ∀ b ∈ ds, isDigitByte b) (hne : ds ≠ [])
    (hrest : Ends rest) : digits? (ds ++ rest) = some ds.length := by
  have htake : (ds ++ rest).takeWhile isDigitByte = ds := by
    rw [List.takeWhile_append_of_pos hds]
    cases rest with
    | nil => simp
    | cons b rest =>
      have hb : isDigitByte b = false := by
        rcases hrest b rfl with rfl | rfl | rfl <;> decide
      rw [List.takeWhile_cons_of_neg (by simp [hb]), List.append_nil]
  rw [digits?, htake]
  exact if_neg fun h => hne (List.length_eq_zero_iff.1 h)

theorem fractionLength?_ends {rest : List UInt8} (h : Ends rest) :
    fractionLength? rest = some 0 := by
  cases rest with
  | nil => rfl
  | cons b rest =>
    rw [fractionLength?, if_neg]
    rcases h b rfl with rfl | rfl | rfl <;> decide

theorem exponentLength?_ends {rest : List UInt8} (h : Ends rest) :
    exponentLength? rest = some 0 := by
  cases rest with
  | nil => rfl
  | cons b rest =>
    unfold exponentLength?
    dsimp only
    rw [if_neg]
    rcases h b rfl with rfl | rfl | rfl <;> decide

theorem written_nat (n : Nat) : written (.nat n) = encode (Nat.toDigits 10 n) := by
  have hs : (toString n).toList = Nat.toDigits 10 n := Nat.toList_repr
  rw [written, nat, ← hs]
  unfold compact
  rfl

theorem numberLength?_digits (n : Nat) {rest : List UInt8} (hrest : Ends rest) :
    numberLength? (encode (Nat.toDigits 10 n) ++ rest) =
      some (encode (Nat.toDigits 10 n)).length := by
  have hdigit := isDigit_toDigits n
  have hds : ∀ b ∈ encode (Nat.toDigits 10 n), isDigitByte b := fun b hb =>
    isDigitByte_of_mem hdigit hb
  have henc := encode_digits hdigit
  have hne : encode (Nat.toDigits 10 n) ≠ [] := by
    rw [henc]
    exact fun h => Nat.toDigits_ne_nil (List.map_eq_nil_iff.1 h)
  have hzero : (encode (Nat.toDigits 10 n)).head? = some 0x30 →
      (encode (Nat.toDigits 10 n)).length = 1 := by
    intro h
    have hhead : (Nat.toDigits 10 n).head? = some '0' := by
      rw [henc, List.head?_map, Option.map_eq_some_iff] at h
      obtain ⟨c, hc, hb⟩ := h
      have hmem : c ∈ Nat.toDigits 10 n := List.mem_of_mem_head? hc
      rw [hc, ← (byte_of_digit (hdigit c hmem)).2.2, hb]
      rfl
    rw [head?_toDigits hhead, encode_digits (isDigit_toDigits 0), List.length_map,
      Nat.toDigits_zero]
    rfl
  have hsign : (encode (Nat.toDigits 10 n) ++ rest).head? ≠ some 0x2D := by
    intro h
    rw [List.head?_append_of_ne_nil _ hne] at h
    have := hds 0x2D (List.mem_of_mem_head? h)
    revert this
    decide
  generalize encode (Nat.toDigits 10 n) = ds at *
  have hint : integerLength? (ds ++ rest) = some ds.length := by
    rw [integerLength?, digits?_append hds hne hrest, List.head?_append_of_ne_nil _ hne]
    simp only [Option.bind_eq_bind, Option.bind_some]
    rw [if_neg]
    rw [Bool.and_eq_true, decide_eq_true_eq, decide_eq_true_eq]
    exact fun h => h.2 (hzero h.1)
  rw [numberLength?, if_neg hsign]
  simp only [Option.bind_eq_bind, List.drop_zero, Nat.zero_add, hint, Option.bind_some,
    List.drop_left, fractionLength?_ends hrest, Nat.add_zero, exponentLength?_ends hrest]
  rfl

theorem readNumber?_nat (n : Nat) {rest : List UInt8} (hrest : Ends rest) :
    readNumber? (written (.nat n) ++ rest) = some (.nat n, rest) := by
  have hdigit := isDigit_toDigits n
  rw [written_nat, readNumber?, numberLength?_digits n hrest, Option.map_some, List.take_left,
    List.drop_left, asciiText_digits hdigit, nat]
  rw [Nat.toString_eq_ofList_toDigits]

/-! ## Values -/

/-- A value starts with neither a blank nor a closing bracket. -/
theorem written_eq_cons {j : Json} (h : Plain j) :
    ∃ b rest, written j = b :: rest ∧ isBlankByte b = false ∧ b ≠ 0x5D := by
  cases h with
  | null =>
    refine ⟨0x6E, [0x75, 0x6C, 0x6C], ?_, by decide, by decide⟩
    rw [written, encode_eq_flatMap]
    rfl
  | bool b =>
    cases b with
    | false =>
      refine ⟨0x66, [0x61, 0x6C, 0x73, 0x65], ?_, by decide, by decide⟩
      rw [written, encode_eq_flatMap]
      rfl
    | true =>
      refine ⟨0x74, [0x72, 0x75, 0x65], ?_, by decide, by decide⟩
      rw [written, encode_eq_flatMap]
      rfl
  | nat n =>
    have hdigit := isDigit_toDigits n
    have hds : ∀ b ∈ encode (Nat.toDigits 10 n), isDigitByte b := fun b hb =>
      isDigitByte_of_mem hdigit hb
    rw [written_nat]
    cases he : encode (Nat.toDigits 10 n) with
    | nil =>
      rw [encode_digits hdigit] at he
      exact absurd (List.map_eq_nil_iff.1 he) Nat.toDigits_ne_nil
    | cons b rest =>
      have hb : isDigitByte b := hds b (he ▸ List.mem_cons_self)
      refine ⟨b, rest, rfl, ?_, ?_⟩
      · rw [isDigitByte, Bool.and_eq_true, decide_eq_true_eq, UInt8.le_iff_toNat_le] at hb
        have h30 : 48 ≤ b.toNat := hb.1
        simp only [isBlankByte, Bool.or_eq_false_iff, decide_eq_false_iff_not]
        refine ⟨⟨⟨?_, ?_⟩, ?_⟩, ?_⟩ <;>
        · rintro rfl
          revert h30
          decide
      · rintro rfl
        revert hb
        decide
  | string s => exact ⟨_, _, (written_string s).trans (writtenText_eq s), by decide, by decide⟩
  | array => exact ⟨_, _, written_array _, by decide, by decide⟩
  | object => exact ⟨_, _, written_object _, by decide, by decide⟩

theorem skipBlanks_cons {b : UInt8} (hb : isBlankByte b = false) (rest : List UInt8) :
    skipBlanks (b :: rest) = b :: rest :=
  List.dropWhile_cons_of_neg (by simp [hb])

theorem readText?_written (s : String) (rest : List UInt8) :
    ∃ parts, readText? ((encode (s.toList.flatMap Json.escape) ++ [0x22] ++ rest).length + 1)
        (encode (s.toList.flatMap Json.escape) ++ [0x22] ++ rest) = some (parts, rest) ∧
      textOfParts? parts = some s := by
  rw [List.append_assoc, List.singleton_append]
  obtain ⟨parts, hread, htext⟩ := readText?_escapeAll s.toList rest
    ((encode (s.toList.flatMap Json.escape) ++ 0x22 :: rest).length + 1)
    (by rw [List.length_append]; omega)
  rw [String.ofList_toList] at htext
  exact ⟨parts, hread, htext⟩

/-- The value is read from its bytes, whatever stands behind it. -/
def Reads (j : Json) : Prop :=
  ∀ fuel rest, 3 * (written j).length ≤ fuel → Ends rest →
    readValue? fuel (written j ++ rest) = some (j, rest)

theorem reads_string (s : String) : Reads (.string s) := by
  intro fuel rest hf hrest
  obtain ⟨more, rfl⟩ : ∃ more, fuel = more + 1 := by
    rw [written_string, writtenText_eq] at hf
    simp only [List.cons_append, List.length_cons] at hf
    exact ⟨fuel - 1, by omega⟩
  obtain ⟨parts, hread, htext⟩ := readText?_written s rest
  rw [written_string, writtenText_eq, List.cons_append, List.cons_append]
  unfold readValue?
  rw [skipBlanks_cons (by decide)]
  dsimp only
  rw [if_pos rfl]
  simp only [hread, Option.bind_eq_bind, Option.bind_some, htext, Option.map_some,
    Option.getD_some]
  rfl

theorem reads_nat (n : Nat) : Reads (.nat n) := by
  intro fuel rest hf hrest
  have hread := readNumber?_nat n hrest
  obtain ⟨b, more, hw, hblank, -⟩ := written_eq_cons (.nat n)
  have hb : isDigitByte b := by
    refine isDigitByte_of_mem (isDigit_toDigits n) ?_
    rw [← written_nat, hw]
    exact List.mem_cons_self
  have hne : ∀ c : UInt8, isDigitByte c = false → b ≠ c := by
    rintro c hc rfl
    rw [hb] at hc
    cases hc
  rw [hw, List.length_cons] at hf
  rw [hw, List.cons_append] at hread ⊢
  obtain ⟨fuel', rfl⟩ : ∃ fuel', fuel = fuel' + 1 := ⟨fuel - 1, by omega⟩
  unfold readValue?
  rw [skipBlanks_cons hblank]
  dsimp only
  rw [if_neg (hne _ (by decide)), if_neg (hne _ (by decide)), if_neg (hne _ (by decide)),
    if_pos (by rw [hb, Bool.or_true]), hread]

theorem readItemsFrom?_written {items : List Json} (h : ∀ j ∈ items, Reads j)
    (hne : items ≠ []) (fuel : Nat) (rest : List UInt8)
    (hf : 3 * ((writtenItems items).length + 1) ≤ fuel) :
    readItemsFrom? fuel (writtenItems items ++ 0x5D :: rest) = some (items, rest) := by
  induction items generalizing fuel with
  | nil => exact absurd rfl hne
  | cons j items ih =>
    obtain ⟨more, rfl⟩ : ∃ more, fuel = more + 1 := ⟨fuel - 1, by omega⟩
    have hj := h j List.mem_cons_self
    unfold readItemsFrom?
    cases items with
    | nil =>
      rw [writtenItems_singleton] at hf ⊢
      rw [hj more (0x5D :: rest) (by omega) (ends_cons (.inr (.inl rfl)))]
      simp only [Option.bind_eq_bind, Option.bind_some, skipBlanks_cons (b := 0x5D) (by decide)]
      rfl
    | cons k items =>
      rw [writtenItems_cons] at hf ⊢
      rw [List.length_append, List.length_cons] at hf
      rw [List.append_assoc, List.cons_append,
        hj more (0x2C :: _) (by omega) (ends_cons (.inl rfl))]
      simp only [Option.bind_eq_bind, Option.bind_some, skipBlanks_cons (b := 0x2C) (by decide),
        ih (fun j hj => h j (List.mem_cons_of_mem _ hj)) (List.cons_ne_nil _ _)
          more (by omega)]
      rfl

theorem readMembersFrom?_written {members : List (String × Json)}
    (h : ∀ m ∈ members, Reads m.2) (hne : members ≠ []) (fuel : Nat) (rest : List UInt8)
    (hf : 3 * ((writtenMembers members).length + 1) ≤ fuel) :
    readMembersFrom? fuel (writtenMembers members ++ 0x7D :: rest) =
      some (members.map fun m => (some m.1, m.2), rest) := by
  induction members generalizing fuel with
  | nil => exact absurd rfl hne
  | cons m members ih =>
    obtain ⟨key, j⟩ := m
    obtain ⟨more, rfl⟩ : ∃ more, fuel = more + 1 := ⟨fuel - 1, by omega⟩
    have hj : Reads j := h (key, j) List.mem_cons_self
    unfold readMembersFrom?
    cases members with
    | nil =>
      rw [writtenMembers_singleton, List.length_append, List.length_cons] at hf
      rw [writtenMembers_singleton, List.append_assoc, List.cons_append, writtenText_eq,
        List.cons_append, List.cons_append, skipBlanks_cons (by decide)]
      obtain ⟨parts, hread, htext⟩ :=
        readText?_written key (0x3A :: (written j ++ 0x7D :: rest))
      simp only [hread, Option.bind_eq_bind, Option.bind_some, skipBlanks_cons (b := 0x3A)
        (by decide), hj more (0x7D :: rest) (by omega) (ends_cons (.inr (.inr rfl))),
        skipBlanks_cons (b := 0x7D) (by decide), htext]
      rfl
    | cons m members =>
      rw [writtenMembers_cons, List.length_append, List.length_cons, List.length_append,
        List.length_cons] at hf
      rw [writtenMembers_cons, List.append_assoc, List.cons_append, List.append_assoc,
        List.cons_append, writtenText_eq, List.cons_append, List.cons_append,
        skipBlanks_cons (by decide)]
      obtain ⟨parts, hread, htext⟩ := readText?_written key
        (0x3A :: (written j ++ 0x2C :: (writtenMembers (m :: members) ++ 0x7D :: rest)))
      simp only [hread, Option.bind_eq_bind, Option.bind_some, skipBlanks_cons (b := 0x3A)
        (by decide), hj more (0x2C :: _) (by omega) (ends_cons (.inl rfl)),
        skipBlanks_cons (b := 0x2C) (by decide), htext,
        ih (fun j hj => h j (List.mem_cons_of_mem _ hj)) (List.cons_ne_nil _ _)
          more (by omega)]
      rfl

theorem writtenItems_eq_cons {items : List Json} (hplain : ∀ j ∈ items, Plain j)
    (hne : items ≠ []) :
    ∃ b rest, writtenItems items = b :: rest ∧ isBlankByte b = false ∧ b ≠ 0x5D := by
  cases items with
  | nil => exact absurd rfl hne
  | cons j items =>
    obtain ⟨b, rest, hw, hb⟩ := written_eq_cons (hplain j List.mem_cons_self)
    cases items with
    | nil => exact ⟨b, rest, by rw [writtenItems_singleton, hw], hb⟩
    | cons k items =>
      exact ⟨b, _, by rw [writtenItems_cons, hw, List.cons_append], hb⟩

theorem writtenMembers_eq_cons {members : List (String × Json)} (hne : members ≠ []) :
    ∃ rest, writtenMembers members = 0x22 :: rest := by
  cases members with
  | nil => exact absurd rfl hne
  | cons m members =>
    obtain ⟨key, j⟩ := m
    cases members with
    | nil => exact ⟨_, by rw [writtenMembers_singleton, writtenText_eq]; rfl⟩
    | cons m members => exact ⟨_, by rw [writtenMembers_cons, writtenText_eq]; rfl⟩

theorem reads_array {items : List Json} (hplain : ∀ j ∈ items, Plain j)
    (h : ∀ j ∈ items, Reads j) : Reads (.array items) := by
  intro fuel rest hf hrest
  rw [written_array, List.cons_append, List.length_cons, List.length_append,
    List.length_singleton] at hf
  rw [written_array, List.cons_append, List.cons_append, List.append_assoc, List.singleton_append]
  obtain ⟨more, rfl⟩ : ∃ more, fuel = more + 2 := ⟨fuel - 2, by omega⟩
  unfold readValue?
  rw [skipBlanks_cons (by decide)]
  dsimp only
  rw [if_neg (by decide), if_pos rfl]
  unfold readItems?
  by_cases hne : items = []
  · subst hne
    have hnil : writtenItems [] = [] := encode_nil
    rw [hnil, List.nil_append, skipBlanks_cons (by decide)]
    rfl
  · have hread := readItemsFrom?_written h hne more rest (by omega)
    obtain ⟨b, bs, hw, hblank, hb⟩ := writtenItems_eq_cons hplain hne
    rw [hw, List.cons_append] at hread ⊢
    rw [skipBlanks_cons hblank]
    split
    · rename_i he
      exact absurd (List.cons.inj he).1 hb
    · rw [hread]
      rfl

theorem ofMembers_map (members : List (String × Json)) :
    ofMembers (members.map fun m => (some m.1, m.2)) = .object members := by
  have h : (members.map fun m => (some m.1, m.2)).mapM
      (fun m : Option String × Json => m.1.map fun key => (key, m.2)) = some members := by
    rw [List.mapM_map]
    induction members with
    | nil => rfl
    | cons m members ih =>
      rw [List.mapM_cons, ih]
      rfl
  rw [ofMembers, h]

theorem reads_object {members : List (String × Json)} (h : ∀ m ∈ members, Reads m.2) :
    Reads (.object members) := by
  intro fuel rest hf hrest
  rw [written_object, List.cons_append, List.length_cons, List.length_append,
    List.length_singleton] at hf
  rw [written_object, List.cons_append, List.cons_append, List.append_assoc,
    List.singleton_append]
  obtain ⟨more, rfl⟩ : ∃ more, fuel = more + 2 := ⟨fuel - 2, by omega⟩
  unfold readValue?
  rw [skipBlanks_cons (by decide)]
  dsimp only
  rw [if_neg (by decide), if_neg (by decide), if_pos rfl]
  unfold readMembers?
  by_cases hne : members = []
  · subst hne
    have hnil : writtenMembers [] = [] := encode_nil
    rw [hnil, List.nil_append, skipBlanks_cons (by decide)]
    rfl
  · have hread := readMembersFrom?_written h hne more rest (by omega)
    obtain ⟨bs, hw⟩ := writtenMembers_eq_cons hne
    rw [hw, List.cons_append] at hread ⊢
    rw [skipBlanks_cons (by decide)]
    split
    · rename_i he
      exact absurd (List.cons.inj he).1 (by decide)
    · rw [hread]
      exact congrArg (fun j => some (j, rest)) (ofMembers_map members)

/-- The bytes of the words that stand for a value. -/
theorem toUTF8_words :
    "null".toUTF8.toList = [0x6E, 0x75, 0x6C, 0x6C] ∧
      "true".toUTF8.toList = [0x74, 0x72, 0x75, 0x65] ∧
      "false".toUTF8.toList = [0x66, 0x61, 0x6C, 0x73, 0x65] := by
  refine ⟨?_, ?_, ?_⟩ <;>
  · rw [toUTF8_toList, encode_eq_flatMap]
    rfl

theorem reads_of_word {j : Json} {b : UInt8} {bs : List UInt8} (hw : written j = b :: bs)
    (hb : isBlankByte b = false ∧ b ≠ 0x22 ∧ b ≠ 0x5B ∧ b ≠ 0x7B ∧
      ¬(b = 0x2D || isDigitByte b) = true)
    (hread : ∀ rest, readWord? (b :: bs ++ rest) = some (j, rest)) : Reads j := by
  intro fuel rest hf hrest
  rw [hw, List.length_cons] at hf
  obtain ⟨more, rfl⟩ : ∃ more, fuel = more + 1 := ⟨fuel - 1, by omega⟩
  obtain ⟨hblank, hquote, hbracket, hbrace, hnumber⟩ := hb
  rw [hw, List.cons_append]
  unfold readValue?
  rw [skipBlanks_cons hblank]
  dsimp only
  rw [if_neg hquote, if_neg hbracket, if_neg hbrace, if_neg hnumber]
  exact hread rest

theorem reads_null : Reads .null := by
  have hw : written .null = [0x6E, 0x75, 0x6C, 0x6C] := by
    rw [written, encode_eq_flatMap]
    rfl
  refine reads_of_word hw (by decide) fun rest => ?_
  rw [readWord?, toUTF8_words.1]
  rfl

theorem reads_bool (b : Bool) : Reads (.bool b) := by
  cases b with
  | false =>
    have hw : written (.bool false) = [0x66, 0x61, 0x6C, 0x73, 0x65] := by
      rw [written, encode_eq_flatMap]
      rfl
    refine reads_of_word hw (by decide) fun rest => ?_
    rw [readWord?, toUTF8_words.1, toUTF8_words.2.1, toUTF8_words.2.2]
    rfl
  | true =>
    have hw : written (.bool true) = [0x74, 0x72, 0x75, 0x65] := by
      rw [written, encode_eq_flatMap]
      rfl
    refine reads_of_word hw (by decide) fun rest => ?_
    rw [readWord?, toUTF8_words.1, toUTF8_words.2.1]
    rfl

theorem reads_of_plain {j : Json} (h : Plain j) : Reads j := by
  induction h with
  | null => exact reads_null
  | bool b => exact reads_bool b
  | nat n => exact reads_nat n
  | string s => exact reads_string s
  | array h ih => exact reads_array h ih
  | object h ih => exact reads_object ih

/-- **A plain value comes back from its bytes.** -/
theorem read?_compact {j : Json} (h : Plain j) : read? j.compact.toUTF8.toList = some j := by
  have hread := reads_of_plain h (3 * (written j).length + 3) [] (by omega) ends_nil
  rw [List.append_nil] at hread
  rw [toUTF8_toList, read?, ← written, hread]
  rfl

end Json

end DocIndex
