import DocIndex.Proofs.Commented.Outline

/-!
# Preprocessor lines with one comment more

A preprocessor line in front of the comment may come to end with it: the comment is then the last
lexeme of the line, and says nothing.

* `lineEnd_past`, `lineEnd_before` — where a line ends.
* `readDirective_alike` — what a line defines.
-/

namespace DocIndex

namespace Source.Commented

variable {s s' : Source} {k i : Nat} (h : s.Commented s' k)
include h

/-! ## Ends of lines -/

theorem goesOn_past (hi : i + 1 ≠ k) :
    (decide (past k i + 1 < s'.size) && s'.lineContinues (past k i)) =
      (decide (i + 1 < s.size) && s.lineContinues i) := by
  rw [h.continues i hi, ← past_succ hi, decide_eq_decide.2 h.lt_size_past]

theorem lineEnd_past (hi : k ≤ i) : s'.lineEnd (past k i) = past k (s.lineEnd i) := by
  fun_induction lineEnd s i with
  | case1 i hnext ih =>
    rw [lineEnd, h.goesOn_past (by omega), if_pos hnext, ← past_succ (by omega), ih (by omega)]
  | case2 i hnext => rw [lineEnd, h.goesOn_past (by omega), if_neg hnext]

/-- A line that ends in front of the comment ends there or with the comment. -/
theorem lineEnd_before (hi : s.lineEnd i < k) :
    s'.lineEnd i = s.lineEnd i ∨ s.lineEnd i + 1 = k ∧ s'.lineEnd i = k := by
  fun_induction lineEnd s i with
  | case1 i hnext ih =>
    have hle := le_lineEnd (s := s) (i + 1)
    have hgoes := h.goesOn_past (show i + 1 ≠ k by omega)
    rw [past_of_lt (show i < k by omega)] at hgoes
    rw [lineEnd, hgoes, if_pos hnext]
    exact ih hi
  | case2 i hnext =>
    by_cases hk : i + 1 = k
    · subst hk
      have hbreaks : s.lineContinues i = false := by
        simpa only [h.lt, decide_true, Bool.true_and, Bool.not_eq_true] using hnext
      cases hcontinues : s'.lineContinues i with
      | true =>
        -- the comment ends the line
        have hend : s'.lineEnd (i + 1) = i + 1 := by
          rw [lineEnd, h.breaks hbreaks hcontinues, Bool.and_false, if_neg Bool.false_ne_true]
        rw [lineEnd, hcontinues, decide_eq_true h.lt_size, Bool.and_self, if_pos rfl]
        exact .inr ⟨rfl, hend⟩
      | false =>
        rw [lineEnd, hcontinues, Bool.and_false, if_neg Bool.false_ne_true]
        exact .inl rfl
    · have hgoes := h.goesOn_past hk
      rw [past_of_lt hi] at hgoes
      rw [lineEnd, hgoes, if_neg hnext]
      exact .inl rfl

/-! ## Ends of lines, comments apart -/

theorem lastCodeOf_past {n : Nat} (hi : k ≤ i ∨ i + n < k) :
    s'.lastCodeOf (past k i) n = past k (s.lastCodeOf i n) := by
  induction n with
  | zero => rfl
  | succ n ih =>
    have hnext : past k i + n + 1 = past k (i + n + 1) := by
      have := past_cases k i
      have := past_cases k (i + n + 1)
      omega
    rw [lastCodeOf, lastCodeOf, hnext, h.isComment_past, ih (by omega)]
    split <;> rfl

theorem lastCode_past {last : Nat} (hi : k ≤ i ∨ i ≤ last ∧ last < k) :
    s'.lastCode (past k i) (past k last) = past k (s.lastCode i last) := by
  have hn : past k last - past k i = last - i := by
    have := past_cases k i
    have := past_cases k last
    omega
  rw [lastCode, lastCode, hn, h.lastCodeOf_past (by omega)]

/-- A comment at the end of a line is not its last lexeme. -/
theorem lastCode_comment {last : Nat} (hi : i ≤ last) (hk : last + 1 = k) :
    s'.lastCode i k = past k (s.lastCode i last) := by
  have hn : k - i = last - i + 1 := by omega
  rw [lastCode, hn, lastCodeOf, show i + (last - i) + 1 = k by omega, if_pos h.isComment]
  have hlast : s'.lastCode (past k i) (past k last) = past k (s.lastCode i last) :=
    h.lastCode_past (.inr ⟨hi, by omega⟩)
  rwa [past_of_lt (show i < k by omega), past_of_lt (show last < k by omega)] at hlast

/-- **The last lexeme of a line**, comments apart, is the one without the comment. -/
theorem lastCode_lineEnd_past (hi : k ≤ i ∨ s.lineEnd i < k) :
    s'.lastCode (past k i) (s'.lineEnd (past k i)) = past k (s.lastCode i (s.lineEnd i)) := by
  rcases hi with hi | hi
  · rw [h.lineEnd_past hi, h.lastCode_past (.inl hi)]
  · have hle := le_lineEnd (s := s) i
    have hlast := h.lastCode_past (.inr ⟨hle, hi⟩)
    rw [past_of_lt (show i < k by omega)] at hlast ⊢
    rcases h.lineEnd_before hi with hend | ⟨hk, hend⟩
    · rw [hend]
      rwa [past_of_lt hi] at hlast
    · rw [hend, h.lastCode_comment hle hk]

theorem abreast_lineEnd (hi : k ≤ i ∨ s.lineEnd i < k) :
    Abreast k (s.lineEnd i + 1) (s'.lineEnd (past k i) + 1) := by
  rcases hi with hi | hi
  · rw [h.lineEnd_past hi]
    exact abreast_succ k _
  · have hle := le_lineEnd (s := s) i
    have hnext := abreast_succ k (s.lineEnd i)
    rw [past_of_lt hi] at hnext
    rw [past_of_lt (show i < k by omega)]
    rcases h.lineEnd_before hi with hend | ⟨hk, hend⟩
    · rwa [hend]
    · rw [hend, hk]
      exact .inl (past_of_le (Nat.le_refl k)).symm

end Source.Commented

theorem Source.lastCode_le (s : Source) {first last : Nat} (hi : first ≤ last) :
    first ≤ s.lastCode first last ∧ s.lastCode first last ≤ last := by
  have hcode (n : Nat) : first ≤ s.lastCodeOf first n ∧ s.lastCodeOf first n ≤ first + n := by
    induction n with
    | zero => exact ⟨Nat.le_refl _, Nat.le_refl _⟩
    | succ n ih =>
      rw [lastCodeOf]
      split <;> omega
  have := hcode (last - first)
  rw [lastCode]
  omega

namespace Outline

open Source

variable {s s' : Source} {k : Nat} (h : s.Commented s' k) (hl : s.Loose k) {o o' : Outline}
  (ho : o.Alike o') {hash : Nat}

@[simp] theorem notes_readDirective : (o.readDirective s hash).notes = o.notes := by
  simp only [readDirective]
  (repeat' split) <;> rfl

include h hl ho

/-- **A preprocessor line says the same with a comment in front of it, or behind.** -/
theorem readDirective_alike (hhash : s.is hash "#" = true)
    (hi : k ≤ hash ∨ s.lineEnd hash < k) :
    (o.readDirective s hash).Alike (o'.readDirective s' (past k hash)) := by
  have hlast := h.lastCode_lineEnd_past hi
  have hle := s.lastCode_le (le_lineEnd (s := s) hash)
  simp only [is, Bool.and_eq_true, beq_iff_eq] at hhash
  obtain ⟨hpound, hundef⟩ := hl.before.2.2
  have hword : hash + 1 ≠ k := by
    rintro rfl
    exact hpound hhash.2
  have hid := ho.declare_id .preprocessingDirective (s.spelling (hash + 1)) hash (past k hash)
    (s.lastCode hash (s.lineEnd hash)) (past k (s.lastCode hash (s.lineEnd hash))) 0
  have hdeclare := ho.declare .preprocessingDirective (s.spelling (hash + 1)) hash (past k hash)
    (s.lastCode hash (s.lineEnd hash)) (past k (s.lastCode hash (s.lineEnd hash))) 0
  simp only [readDirective, hlast, ← past_succ hword, h.spelling, hid]
  generalize s.lastCode hash (s.lineEnd hash) = last at *
  have hlt : past k (hash + 1) < past k last ↔ hash + 1 < last := past_lt_past
  simp only [hlt]
  split
  · rename_i hdefine
    simp only [Bool.and_eq_true, decide_eq_true_eq] at hdefine
    have hname : hash + 1 + 1 ≠ k := by omega
    have hnext : past k hash + 2 = past k (hash + 2) := by
      rw [past_succ hname, past_succ hword]
    have hparameters : (s'.is (past k hash + 3) "(" && s'.touchesNext (past k (hash + 2))) =
        (s.is (hash + 3) "(" && s.touchesNext (hash + 2)) := by
      by_cases hk : hash + 2 + 1 = k
      · have hapart : s.touchesNext (hash + 2) = false := by rw [← h.apart, ← hk]; rfl
        rw [hapart, past_of_lt (show hash < k by omega), hk, h.is_comment (by decide),
          Bool.false_and, Bool.and_false]
      · rw [h.touches _ hk, show past k hash + 3 = past k (hash + 2) + 1 by omega,
          ← past_succ hk, h.is_past]
    simp only [hnext, h.spelling, hparameters]
    exact ((hdeclare.define ..).claim ..).add ..
  split
  · rename_i hundefine
    have hname : hash + 1 + 1 ≠ k := by
      rintro rfl
      exact hundef hundefine
    have hnext : past k hash + 2 = past k (hash + 2) := by
      rw [past_succ hname, past_succ hword]
    simp only [hnext, h.spelling]
    exact (hdeclare.undefine _).claim ..
  · exact hdeclare.claim ..

end Outline

end DocIndex
