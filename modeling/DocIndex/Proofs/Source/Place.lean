import DocIndex.Source.Place

/-!
# The place of an offset

The lines of a text are kept character by character, but an offset may be in the middle of one. Only
a line feed has the byte `0x0A`, so the lines are those of the bytes.

* `boundary_eq` — halving finds the number of elements in front.
* `lineStartsFrom_eq` — the lines of a text are those of its bytes.
* `place_eq` — **an offset is at the place that the bytes in front of it make.**
* `line_place` — **the line of an offset is told by the line feeds in front of it.**
-/

namespace DocIndex

variable {α : Type}

/-! ## Halving -/

/-- Halving keeps the answer between the candidates that are left. -/
theorem boundaryFrom_eq {p : α → Bool} {xs : Array α} {n : Nat}
    (hp : ∀ k x, xs[k]? = some x → p x = decide (k < n)) {base size : Nat} (hb : base ≤ n)
    (hn : n ≤ base + size) (hs : base + size ≤ xs.size) : boundaryFrom p xs base size = n := by
  fun_induction boundaryFrom p xs base size with
  | case1 base size hsize x hx hpx =>
    have h := hp base x hx
    rw [hpx] at h
    have : base < n := of_decide_eq_true h.symm
    omega
  | case2 base size hsize x hx hpx =>
    have h := hp base x hx
    rw [Bool.not_eq_true] at hpx
    rw [hpx] at h
    have : ¬base < n := of_decide_eq_false h.symm
    omega
  | case3 base size hsize hx =>
    have : xs.size ≤ base := Array.getElem?_eq_none_iff.1 hx
    omega
  | case4 base size hsize half base' ih =>
    have hlt : base + half < xs.size := by omega
    have hx : xs[base + half]? = some xs[base + half] := Array.getElem?_eq_getElem hlt
    have hpx := hp _ _ hx
    by_cases hlow : base + half < n
    · have hbase : base' = base + half := by
        simp [base', hx, hpx, hlow]
      rw [hbase] at ih ⊢
      exact ih (by omega) (by omega) (by omega)
    · have hbase : base' = base := by
        simp [base', hx, hpx, hlow]
      rw [hbase] at ih ⊢
      exact ih hb (by omega) (by omega)

/-- Halving never leaves the array, whatever is asked of its elements. -/
theorem boundaryFrom_le {p : α → Bool} {xs : Array α} {base size : Nat}
    (hs : base + size ≤ xs.size) : boundaryFrom p xs base size ≤ xs.size := by
  fun_induction boundaryFrom p xs base size with
  | case1 base size hsize x hx => exact (Array.getElem?_eq_some_iff.1 hx).1
  | case2 base size hsize x hx => omega
  | case3 base size hsize hx => omega
  | case4 base size hsize half base' ih =>
    have hbase : base' ≤ base + half := by
      simp only [base']
      split
      · split
        · exact Nat.le_refl _
        · exact Nat.le_add_right _ _
      · exact Nat.le_add_right _ _
    exact ih (Nat.le_trans (Nat.add_le_add_right hbase _) (by omega))

theorem boundary_le (p : α → Bool) (xs : Array α) : boundary p xs ≤ xs.size :=
  boundaryFrom_le (Nat.le_of_eq (Nat.zero_add _))

theorem boundary_eq {p : α → Bool} {as bs : List α} (ha : ∀ x ∈ as, p x = true)
    (hb : ∀ x ∈ bs, p x = false) : boundary p (as ++ bs).toArray = as.length := by
  unfold boundary
  refine boundaryFrom_eq (fun k x hx => ?_) (Nat.zero_le _) (by simp) (by simp)
  rw [List.getElem?_toArray] at hx
  by_cases hk : k < as.length
  · rw [List.getElem?_append_left hk] at hx
    rw [ha x (List.mem_of_getElem? hx), decide_eq_true hk]
  · rw [List.getElem?_append_right (by omega)] at hx
    rw [hb x (List.mem_of_getElem? hx), decide_eq_false hk]

/-! ## Lines -/

@[simp] theorem byteLength_nil : byteLength [] = 0 := rfl

@[simp] theorem byteLength_cons (c : Char) (cs : List Char) :
    byteLength (c :: cs) = c.utf8Size + byteLength cs := rfl

@[simp] theorem byteLength_append (cs ds : List Char) :
    byteLength (cs ++ ds) = byteLength cs + byteLength ds := by
  simp [byteLength]

theorem byteLength_pos {cs : List Char} (h : cs ≠ []) : 0 < byteLength cs := by
  obtain ⟨c, cs, rfl⟩ := List.exists_cons_of_ne_nil h
  have := Char.utf8Size_pos c
  rw [byteLength_cons]; omega

theorem utf8ByteSize_ofList (cs : List Char) :
    (String.ofList cs).utf8ByteSize = byteLength cs := by
  induction cs with
  | nil => rfl
  | cons c cs ih =>
    rw [String.ofList_cons, String.utf8ByteSize_append, ih, String.utf8ByteSize_singleton]
    rfl

theorem length_utf8 (cs : List Char) :
    (cs.flatMap String.utf8EncodeChar).length = byteLength cs := by
  induction cs with
  | nil => rfl
  | cons c cs ih =>
    rw [List.flatMap_cons, List.length_append, ih, String.length_utf8EncodeChar, byteLength_cons]

/-! ## Line feeds -/

theorem utf8EncodeChar_lineFeed : String.utf8EncodeChar '\n' = [0x0A] := by
  decide

theorem not_mem_utf8EncodeChar {c : Char} (h : c ≠ '\n') : 0x0A ∉ String.utf8EncodeChar c := by
  have hc : c.toNat ≠ 10 := fun hc => h (Char.toNat_inj.1 hc)
  have hbyte (n : Nat) : 0x0A = UInt8.ofNat n ↔ 10 = n % 256 := by
    rw [← UInt8.toNat_inj, UInt8.toNat_ofNat']
    rfl
  unfold String.utf8EncodeChar
  simp only [Char.toNat_val]
  repeat' split
  all_goals
    simp only [List.mem_cons, List.not_mem_nil, hbyte, or_false]
    omega

/-- The line feeds among the bytes of a text are those of the text. -/
theorem count_utf8 (cs : List Char) :
    (cs.flatMap String.utf8EncodeChar).count 0x0A = cs.count '\n' := by
  induction cs with
  | nil => rfl
  | cons c cs ih =>
    rw [List.flatMap_cons, List.count_append, ih]
    by_cases hc : c = '\n'
    · subst hc
      rw [utf8EncodeChar_lineFeed, List.count_cons_self, List.count_cons_self, List.count_nil]
      omega
    · rw [List.count_eq_zero.2 (not_mem_utf8EncodeChar hc), List.count_cons_of_ne hc]
      omega

/-- The offsets just past each line feed among some bytes, the first of which is at `offset`. -/
def startsBehind (offset : Nat) : List UInt8 → List Nat
  | [] => []
  | b :: bytes =>
    if b = 0x0A then (offset + 1) :: startsBehind (offset + 1) bytes
    else startsBehind (offset + 1) bytes

theorem startsBehind_append (offset : Nat) (bytes more : List UInt8) :
    startsBehind offset (bytes ++ more) =
      startsBehind offset bytes ++ startsBehind (offset + bytes.length) more := by
  induction bytes generalizing offset with
  | nil => rfl
  | cons b bytes ih =>
    have hoffset : offset + 1 + bytes.length = offset + (bytes.length + 1) := by omega
    simp only [List.cons_append, startsBehind, ih, List.length_cons, hoffset]
    split <;> rfl

theorem length_startsBehind (offset : Nat) (bytes : List UInt8) :
    (startsBehind offset bytes).length = bytes.count 0x0A := by
  induction bytes generalizing offset with
  | nil => rfl
  | cons b bytes ih =>
    unfold startsBehind
    split
    · rename_i hb
      rw [hb, List.count_cons_self, List.length_cons, ih]
    · rename_i hb
      rw [List.count_cons_of_ne hb, ih]

theorem startsBehind_of_not_mem {bytes : List UInt8} (h : 0x0A ∉ bytes) (offset : Nat) :
    startsBehind offset bytes = [] :=
  List.length_eq_zero_iff.1 ((length_startsBehind offset bytes).trans (List.count_eq_zero.2 h))

/-- Lines start behind what is in front of them, and within the text. -/
theorem mem_startsBehind {offset start : Nat} {bytes : List UInt8}
    (h : start ∈ startsBehind offset bytes) : offset < start ∧ start ≤ offset + bytes.length := by
  induction bytes generalizing offset with
  | nil => cases h
  | cons b bytes ih =>
    have hrest (h : start ∈ startsBehind (offset + 1) bytes) :
        offset < start ∧ start ≤ offset + (b :: bytes).length := by
      have := ih h
      rw [List.length_cons]; omega
    unfold startsBehind at h
    split at h
    · rcases List.mem_cons.1 h with rfl | h
      · rw [List.length_cons]; omega
      · exact hrest h
    · exact hrest h

/-- **The lines of a text are those of its bytes.** -/
theorem lineStartsFrom_eq (offset : Nat) (cs : List Char) :
    lineStartsFrom offset cs = startsBehind offset (cs.flatMap String.utf8EncodeChar) := by
  induction cs generalizing offset with
  | nil => rfl
  | cons c cs ih =>
    rw [List.flatMap_cons, startsBehind_append, String.length_utf8EncodeChar, ← ih]
    by_cases hc : c = '\n'
    · subst hc
      rw [utf8EncodeChar_lineFeed]
      rfl
    · rw [startsBehind_of_not_mem (not_mem_utf8EncodeChar hc), List.nil_append]
      exact if_neg hc

/-! ## Places -/

/-- The last line starts behind the last line feed. -/
theorem getLast?_startsBehind (bytes : List UInt8) :
    (0 :: startsBehind 0 bytes).getLast? =
      some (bytes.length - (bytes.reverse.takeWhile (· != 0x0A)).length) := by
  -- on the length, since the last byte tells where the last line starts
  induction h : bytes.length generalizing bytes with
  | zero =>
    rw [List.length_eq_zero_iff.1 h]
    rfl
  | succ n ih =>
    obtain rfl | ⟨front, b, rfl⟩ := List.eq_nil_or_concat bytes
    · cases h
    rw [List.length_concat] at h
    have hn : front.length = n := Nat.succ.inj h
    rw [List.concat_eq_append, startsBehind_append, List.reverse_append]
    simp only [List.reverse_cons, List.reverse_nil, List.nil_append, List.cons_append, startsBehind,
      Nat.zero_add, hn]
    split
    · rename_i hb
      rw [hb, ← List.cons_append, List.getLast?_concat, List.takeWhile_cons_of_neg (by simp)]
      rfl
    · rename_i hb
      rw [List.append_nil, ih front hn, List.takeWhile_cons_of_pos (by simpa using hb),
        List.length_cons, Nat.add_sub_add_right]

section

variable {cs : List Char} {bytes : List UInt8} {n : Nat}
  (hbytes : cs.flatMap String.utf8EncodeChar = bytes) (hn : n ≤ bytes.length)

include hbytes hn

/-- An offset cuts the lines into those that start no later and those that start behind it. -/
theorem lineStarts_cut : 0 :: lineStartsFrom 0 cs =
    (0 :: startsBehind 0 (bytes.take n)) ++ startsBehind n (bytes.drop n) := by
  have happend := startsBehind_append 0 (bytes.take n) (bytes.drop n)
  rw [List.take_append_drop, List.length_take, Nat.min_eq_left hn, Nat.zero_add] at happend
  rw [lineStartsFrom_eq, hbytes, happend, List.cons_append]

theorem boundary_lineStarts : boundary (· ≤ n) (0 :: lineStartsFrom 0 cs).toArray =
    (bytes.take n).count 0x0A + 1 := by
  rw [lineStarts_cut hbytes hn]
  refine (boundary_eq ?_ ?_).trans ?_
  · intro start hs
    rcases List.mem_cons.1 hs with rfl | hs
    · exact decide_eq_true (Nat.zero_le _)
    · have hwithin := (mem_startsBehind hs).2
      rw [List.length_take] at hwithin
      exact decide_eq_true (by omega)
  · intro start hs
    have := mem_startsBehind hs
    exact decide_eq_false (by omega)
  · rw [List.length_cons, length_startsBehind]

/-- The line of an offset starts behind the last line feed in front of it. -/
theorem getElem?_lineStarts : (0 :: lineStartsFrom 0 cs)[(bytes.take n).count 0x0A]? =
    some (n - ((bytes.take n).reverse.takeWhile (· != 0x0A)).length) := by
  have hlast := getLast?_startsBehind (bytes.take n)
  rw [List.getLast?_eq_getElem?, List.length_cons, length_startsBehind, List.length_take,
    Nat.min_eq_left hn, Nat.add_sub_cancel] at hlast
  rw [lineStarts_cut hbytes hn, List.getElem?_append_left, hlast]
  rw [List.length_cons, length_startsBehind]
  exact Nat.lt_succ_self _

/-- **An offset is at the place that the bytes in front of it make**, be it at the end of a line, in
the middle of a character or where the text ends. -/
theorem place_eq : (LineTable.ofText cs).place n =
    { line := (bytes.take n).count 0x0A + 1
      column := ((bytes.take n).reverse.takeWhile (· != 0x0A)).length + 1
      offset := n } := by
  have htail : ((bytes.take n).reverse.takeWhile (· != 0x0A)).length ≤ n := by
    have := (List.takeWhile_sublist (l := (bytes.take n).reverse) (· != 0x0A)).length_le
    rw [List.length_reverse, List.length_take] at this
    omega
  unfold LineTable.place LineTable.ofText
  simp only [boundary_lineStarts hbytes hn, Nat.add_sub_cancel, Array.getD_eq_getD_getElem?,
    List.getElem?_toArray, getElem?_lineStarts hbytes hn, Option.getD_some]
  congr 1
  omega

end

/-- **An offset is on the line that the line feeds in front of it make.** -/
theorem line_place (cs ds : List Char) :
    ((LineTable.ofText (cs ++ ds)).place (byteLength cs)).line = cs.count '\n' + 1 := by
  have hfront : ((cs ++ ds).flatMap String.utf8EncodeChar).take (byteLength cs) =
      cs.flatMap String.utf8EncodeChar := by
    rw [List.flatMap_append, ← length_utf8, List.take_left]
  rw [place_eq rfl (by rw [length_utf8, byteLength_append]; omega)]
  dsimp only
  rw [hfront, count_utf8]

end DocIndex
