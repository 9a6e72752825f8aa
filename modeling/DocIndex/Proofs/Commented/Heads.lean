import DocIndex.Proofs.Commented.Groups

/-!
# The heads of declarations with one comment more

What reads the words between a keyword and a body looks at the next lexeme, comment or not. A
comment there holds it up: it stops at the comment, or at the lexeme in front.

* `HeldUp` — reading has come equally far, or the second one is held up by the comment.
* `skipDecorations_past` — how far what stands in front of a name is skipped.
* `recordHead_past`, `enumHead_past`, `namespaceHead_past` — how far the heads are read.
-/

namespace DocIndex

namespace Source

/-- What the head of a declaration ends with. -/
def headEnds : List String :=
  ["\x7b", ":", ";", "="]

/-- No head ends with what begins like a word. -/
theorem isWordStart_headEnds : ∀ word ∈ headEnds,
    word.toList.head?.any Lexer.isWordStart = false := by
  decide

/-- Reading stops at `i'`, at the comment in front of lexeme `k` or at the lexeme before, and finds
nothing there that a head ends with. -/
structure Stuck (s' : Source) (k i' : Nat) : Prop where
  le : i' ≤ k
  ge : k ≤ i' + 1
  is_eq : ∀ word ∈ headEnds, s'.is i' word = false

/-- One reading stands where the other does, or is stuck where the other one has gone on. -/
def HeldUp (s' : Source) (k i i' : Nat) : Prop :=
  i' = past k i ∨ k ≤ i ∧ s'.Stuck k i'

/-- Where a part of the name of a class ends that stands at `i`, with its template arguments. -/
def argumentsEnd (s : Source) (i : Nat) : Nat :=
  if s.is (i + 1) "<" then s.angleEnd (i + 1) + 1 else i + 1

theorem recordName_of_isIdentifier {s : Source} {qualifier : List String} {isSpecialized : Bool}
    {i : Nat} (hname : s.isIdentifier i = true) :
    s.recordName qualifier isSpecialized i =
      if s.is (s.argumentsEnd i) "::" then
        s.recordName (qualifier ++ [s.spelling i]) (isSpecialized || s.is (i + 1) "<")
          (s.argumentsEnd i + 1)
      else
        ⟨qualifier, s.spelling i, isSpecialized || s.is (i + 1) "<", s.argumentsEnd i⟩ := by
  rw [recordName, if_pos hname]
  rfl

namespace Commented

variable {s s' : Source} {k i i' : Nat} (h : s.Commented s' k)
include h

theorem stuck_comment : s'.Stuck k k where
  le := Nat.le_refl k
  ge := Nat.le_succ k
  is_eq word hword := by
    have hheads : ∀ word ∈ headEnds, word.toList.head? ≠ some '/' := by decide
    exact h.is_comment (hheads word hword)

theorem heldUp_of_abreast (hi : Abreast k i i') : s'.HeldUp k i i' := by
  rcases hi with hi | ⟨hi, hi'⟩
  · exact .inl hi
  · exact .inr ⟨Nat.le_of_eq hi.symm, hi' ▸ h.stuck_comment⟩

/-- Reading is stuck in front of the comment at a lexeme that ends no head. -/
theorem stuck_before (hi : i + 1 = k)
    (hword : ∀ word ∈ headEnds, s.spelling i ≠ word) : s'.Stuck k i where
  le := by omega
  ge := by omega
  is_eq word hmem := by
    rw [← past_of_lt (show i < k by omega), h.is_past]
    simp only [is, Bool.and_eq_false_iff, beq_eq_false_iff_ne]
    exact .inr (hword word hmem)

/-! ## Decorations -/

/-- In front of the comment no decoration begins. -/
theorem skipDecorations_before (macros : Macros) (hi : i + 1 = k) :
    s'.skipDecorations macros i = ⟨i, []⟩ := by
  rw [skipDecorations, hi, h.isIdentifier_comment]
  simp (disch := decide) only [h.is_comment, Bool.and_false, Bool.false_eq_true, if_false,
    dite_false, ite_self]

theorem skipDecorations_comment (macros : Macros) : s'.skipDecorations macros k = ⟨k, []⟩ := by
  have hspecifier : specifiers.contains (s'.spelling k) = false := by
    simp (disch := decide) only [specifiers, List.contains_cons, List.contains_nil, Bool.or_false,
      Bool.or_eq_false_iff, beq_eq_false_iff_ne, ne_eq, h.spelling_ne, not_false_eq_true, and_self]
  rw [skipDecorations, h.isIdentifier_comment, hspecifier]
  simp (disch := decide) only [h.is_comment, Bool.false_and, Bool.false_eq_true, if_false,
    dite_false, ite_self]

/-- **What stands between a class key and the name is skipped**, or reading is held up there. -/
theorem skipDecorations_past (macros : Macros) (hi : Abreast k i i') :
    s'.HeldUp k (s.skipDecorations macros i).index (s'.skipDecorations macros i').index := by
  have hnext {i i' : Nat} (hi : Abreast k i i')
      (hpast : s'.HeldUp k (s.skipDecorations macros i).index
        (s'.skipDecorations macros (past k i)).index) :
      s'.HeldUp k (s.skipDecorations macros i).index (s'.skipDecorations macros i').index := by
    rcases hi with rfl | ⟨hi, hi'⟩
    · exact hpast
    · rw [hi', h.skipDecorations_comment]
      exact .inr ⟨hi ▸ le_skipDecorations macros i, h.stuck_comment⟩
  -- held up at the lexeme in front of the comment
  have hbefore {i j : Nat} (hi : i + 1 = k) (hj : i < j)
      (hword : ∀ word ∈ headEnds, s.spelling i ≠ word) :
      s'.HeldUp k j (s'.skipDecorations macros (past k i)).index := by
    rw [past_of_lt (show i < k by omega), h.skipDecorations_before macros hi]
    exact .inr ⟨by omega, h.stuck_before hi hword⟩
  refine hnext hi ?_
  clear hi
  fun_induction skipDecorations s macros i with
  | case1 i hlt hopen r ih =>
    have hle : i ≤ s.groupEnd i := le_groupEnd hlt
    have hr : s.groupEnd i + 1 ≤ r.index := le_skipDecorations macros _
    by_cases hk : i + 1 = k
    · refine hbefore hk (by simp only; omega) ?_
      simp only [is, Bool.and_eq_true, beq_iff_eq] at hopen
      have hheads : ∀ word ∈ headEnds, "[" ≠ word := by decide
      rw [hopen.1.2]
      exact hheads
    · rw [skipDecorations.eq_def s', if_pos (h.lt_size_past.2 hlt), h.is_past, ← past_succ hk,
        h.is_past, if_pos hopen, h.groupEnd_past]
      exact hnext (abreast_succ k _) ih
  | case2 i hlt hopen hp r ih =>
    have hspecifier := hp
    simp only [Bool.and_eq_true] at hspecifier
    have hle := le_groupEnd (lt_size_of_is hspecifier.2)
    have hr : s.groupEnd (i + 1) + 1 ≤ r.index := le_skipDecorations macros _
    by_cases hk : i + 1 = k
    · refine hbefore hk (by simp only; omega) ?_
      have hheads : ∀ word ∈ headEnds, word ∉ specifiers := by decide
      exact fun word hword heq => hheads word hword (heq ▸ List.contains_iff_mem.1 hspecifier.1)
    · rw [skipDecorations.eq_def s', if_pos (h.lt_size_past.2 hlt), h.is_past, ← past_succ hk,
        h.is_past, h.is_past, if_neg hopen, h.spelling, dif_pos hp, h.groupEnd_past]
      exact hnext (abreast_succ k _) ih
  | case3 i hlt hopen hp hname ih =>
    have hr := le_skipDecorations (s := s) macros (i + 1)
    by_cases hk : i + 1 = k
    · refine hbefore hk (by omega) ?_
      simp only [Bool.and_eq_true] at hname
      exact fun word hword =>
        h.spelling_ne_of_isIdentifier hname.1.1 (isWordStart_headEnds word hword)
    · rw [skipDecorations.eq_def s', if_pos (h.lt_size_past.2 hlt), h.is_past, ← past_succ hk,
        h.is_past, h.is_past, if_neg hopen, h.spelling, dif_neg hp, h.isIdentifier_past,
        h.isIdentifier_past, if_pos hname]
      exact ih
  | case4 i hlt hopen hp hname =>
    by_cases hk : i + 1 = k
    · rw [past_of_lt (show i < k by omega), h.skipDecorations_before macros hk]
      exact .inl (past_of_lt (show i < k by omega)).symm
    · rw [skipDecorations.eq_def s', if_pos (h.lt_size_past.2 hlt), h.is_past, ← past_succ hk,
        h.is_past, h.is_past, if_neg hopen, h.spelling, dif_neg hp, h.isIdentifier_past,
        h.isIdentifier_past, if_neg hname]
      exact .inl rfl
  | case5 i hlt =>
    rw [skipDecorations.eq_def s', if_neg (mt h.lt_size_past.1 hlt)]
    exact .inl rfl

/-- A statement does not end within decorations. -/
theorem skipDecorations_le_statementEnd (macros : Macros) (hn : (s.statementEnd i).notes = []) :
    (s.skipDecorations macros i).index ≤ (s.statementEnd i).index := by
  have hgroup {i : Nat} (hi : s.is i "[" = true ∨ s.is i "(" = true) :
      (s.statementEnd i).index = (s.statementEnd (s.groupEnd i + 1)).index ∧
        ((s.statementEnd i).notes = [] → (s.statementEnd (s.groupEnd i + 1)).notes = []) := by
    have hopen : s.opensGroup i = true := by
      simp only [opensGroup, Bool.or_eq_true]
      exact .inl hi.symm
    have hlt : i < s.size := hi.elim lt_size_of_is lt_size_of_is
    have hsemi : s.spelling i ≠ ";" := by
      simp only [is, Bool.and_eq_true, beq_iff_eq] at hi
      rcases hi with hi | hi <;> rw [hi.2] <;> decide
    rw [statementEnd.eq_def s i, if_pos hlt, if_neg hsemi, if_pos hopen]
    exact ⟨rfl, fun hn => (List.append_eq_nil_iff.1 hn).2⟩
  fun_induction skipDecorations s macros i with
  | case1 i hlt hopen r ih =>
    simp only [Bool.and_eq_true] at hopen
    obtain ⟨hend, hnotes⟩ := hgroup (.inl hopen.1)
    rw [hend]
    exact ih (hnotes hn)
  | case2 i hlt hopen hp r ih =>
    simp only [Bool.and_eq_true] at hp
    have hmarks : ∀ word ∈ statementMarks, word ∉ specifiers := by decide
    rw [statementEnd_succ hlt fun word hword heq =>
      hmarks word hword (heq ▸ List.contains_iff_mem.1 hp.1)] at hn ⊢
    obtain ⟨hend, hnotes⟩ := hgroup (.inr hp.2)
    rw [hend]
    exact ih (hnotes hn)
  | case3 i hlt hopen hp hname ih =>
    simp only [Bool.and_eq_true] at hname
    rw [statementEnd_succ hlt fun word hword =>
      h.spelling_ne_of_isIdentifier hname.1.1 (isWordStart_statementMarks word hword)] at hn ⊢
    exact ih hn
  | case4 i hlt hopen hp hname => exact (statementEnd_sound hn).2
  | case5 i hlt => exact (statementEnd_sound hn).2

/-! ## Classes -/

/-- A part of a name ends where it did, or at the comment. -/
theorem argumentsEnd_past (i : Nat) :
    i + 1 ≠ k ∧ s'.argumentsEnd (past k i) = past k (s.argumentsEnd i) ∨
      k ≤ s.argumentsEnd i ∧ s'.argumentsEnd (past k i) = k := by
  by_cases hk : i + 1 = k
  · refine .inr ⟨?_, ?_⟩
    · unfold argumentsEnd
      split
      · have := le_angleEnd (lt_size_of_is ‹_›)
        omega
      · exact Nat.le_of_eq hk.symm
    · rw [past_of_lt (show i < k by omega), argumentsEnd, hk, h.is_comment (by decide),
        if_neg Bool.false_ne_true]
  · have hend : Abreast k (s.argumentsEnd i) (s'.argumentsEnd (past k i)) := by
      rw [argumentsEnd, argumentsEnd, ← past_succ hk, h.is_past]
      split
      · exact h.angleEnd_past _
      · exact abreast_past k _
    rcases hend with hend | ⟨hend, hend'⟩
    · exact .inl ⟨hk, hend⟩
    · exact .inr ⟨Nat.le_of_eq hend.symm, hend'⟩

/-- A name in front of the comment ends there. -/
theorem recordName_before (qualifier : List String) (isSpecialized : Bool) (hi : i' + 1 = k)
    (hname : s'.isIdentifier i' = true) :
    (s'.recordName qualifier isSpecialized i').index = k := by
  rw [recordName, if_pos hname, hi]
  simp (disch := decide) only [h.is_comment, Bool.false_eq_true, if_false]

theorem recordName_stuck (qualifier : List String) (isSpecialized : Bool) (hi : s'.Stuck k i') :
    s'.Stuck k (s'.recordName qualifier isSpecialized i').index := by
  by_cases hname : s'.isIdentifier i' = true
  · have hne : i' ≠ k := by
      rintro rfl
      rw [h.isIdentifier_comment] at hname
      cases hname
    have hle := hi.le
    have hge := hi.ge
    rw [h.recordName_before qualifier isSpecialized (by omega) hname]
    exact h.stuck_comment
  · rw [recordName, if_neg hname]
    exact hi

/-- The name of a class is read, or reading is held up there. -/
theorem recordName_past (qualifier : List String) (isSpecialized : Bool)
    (hi : s'.HeldUp k i i') :
    s'.recordName qualifier isSpecialized i' =
        (s.recordName qualifier isSpecialized i).map (past k) ∨
      k ≤ (s.recordName qualifier isSpecialized i).index ∧
        s'.Stuck k (s'.recordName qualifier isSpecialized i').index := by
  have hnext {qualifier : List String} {isSpecialized : Bool} {i i' : Nat}
      (hi : s'.HeldUp k i i')
      (hpast : s'.recordName qualifier isSpecialized (past k i) =
          (s.recordName qualifier isSpecialized i).map (past k) ∨
        k ≤ (s.recordName qualifier isSpecialized i).index ∧
          s'.Stuck k (s'.recordName qualifier isSpecialized (past k i)).index) :
      s'.recordName qualifier isSpecialized i' =
          (s.recordName qualifier isSpecialized i).map (past k) ∨
        k ≤ (s.recordName qualifier isSpecialized i).index ∧
          s'.Stuck k (s'.recordName qualifier isSpecialized i').index := by
    rcases hi with rfl | ⟨hi, hstuck⟩
    · exact hpast
    · exact .inr ⟨Nat.le_trans hi (le_recordName qualifier isSpecialized i),
        h.recordName_stuck qualifier isSpecialized hstuck⟩
  refine hnext hi ?_
  clear hi
  fun_induction recordName s qualifier isSpecialized i with
  | case1 qualifier isSpecialized i hname hasArguments j hcolons ih =>
    have hle := le_recordName (s := s) (qualifier ++ [s.spelling i])
      (isSpecialized || hasArguments) (j + 1)
    have hcolons : s.is (s.argumentsEnd i) "::" = true := hcolons
    have hname' : s'.isIdentifier (past k i) = true := by rw [h.isIdentifier_past, hname]
    rw [recordName_of_isIdentifier hname']
    obtain ⟨hk, hend⟩ | ⟨hk, hend⟩ := h.argumentsEnd_past i
    · rw [hend, h.is_past, if_pos hcolons, h.spelling, ← past_succ hk, h.is_past]
      exact hnext (h.heldUp_of_abreast (abreast_succ k _)) ih
    · rw [hend, h.is_comment (by decide), if_neg Bool.false_ne_true]
      exact .inr ⟨Nat.le_trans hk (Nat.le_of_succ_le hle), h.stuck_comment⟩
  | case2 qualifier isSpecialized i hname hasArguments j hcolons =>
    have hcolons : ¬ s.is (s.argumentsEnd i) "::" = true := hcolons
    have hname' : s'.isIdentifier (past k i) = true := by rw [h.isIdentifier_past, hname]
    rw [recordName_of_isIdentifier hname']
    obtain ⟨hk, hend⟩ | ⟨hk, hend⟩ := h.argumentsEnd_past i
    · rw [hend, h.is_past, if_neg hcolons, h.spelling, ← past_succ hk, h.is_past]
      exact .inl rfl
    · rw [hend, h.is_comment (by decide), if_neg Bool.false_ne_true]
      exact .inr ⟨hk, h.stuck_comment⟩
  | case3 qualifier isSpecialized i hname =>
    rw [recordName, h.isIdentifier_past, if_neg hname]
    exact .inl rfl

end Commented

/-- The name in a class head that is read from `i` on, and where the head goes on behind it. -/
def recordHead (s : Source) (macros : Macros) (i : Nat) : RecordName × Nat :=
  let n := s.recordName [] false (s.skipDecorations macros i).index
  (n, if s.is n.index "final" then n.index + 1 else n.index)

theorem le_recordHead (s : Source) (macros : Macros) (i : Nat) : i ≤ (s.recordHead macros i).2 := by
  have h₁ := le_skipDecorations (s := s) macros i
  have h₂ := le_recordName (s := s) [] false (s.skipDecorations macros i).index
  simp only [recordHead]
  split <;> omega

/-- The name of an enumeration that is read at `i`, if there is one, and where the head goes on
behind it and the underlying type. -/
def enumName (s : Source) (i : Nat) : String × Nat :=
  let j := if s.isIdentifier i then i + 1 else i
  (if s.isIdentifier i then s.spelling i else "", if s.is j ":" then s.underlyingEnd j else j)

theorem le_enumName (s : Source) (i : Nat) : i ≤ (s.enumName i).2 := by
  have hj : i ≤ if s.isIdentifier i then i + 1 else i := by split <;> omega
  have hle := le_underlyingEnd (s := s) (if s.isIdentifier i then i + 1 else i)
  simp only [enumName]
  generalize (if s.isIdentifier i = true then i + 1 else i) = j at hj hle ⊢
  split
  · exact Nat.le_trans hj hle
  · exact hj

/-- Where the class key in the head of an enumeration ends, whose keyword stands at `key`. -/
def enumKeyEnd (s : Source) (key : Nat) : Nat :=
  if s.is (key + 1) "class" || s.is (key + 1) "struct" then key + 2 else key + 1

/-- The name in the head of an enumeration whose keyword stands at `key`, and where the head goes on
behind it. -/
def enumHead (s : Source) (macros : Macros) (key : Nat) : String × Nat :=
  s.enumName (s.skipDecorations macros (s.enumKeyEnd key)).index

theorem lt_enumHead (s : Source) (macros : Macros) (key : Nat) :
    key < (s.enumHead macros key).2 := by
  have h₁ : key < s.enumKeyEnd key := by
    unfold enumKeyEnd
    split <;> omega
  have h₂ := le_skipDecorations (s := s) macros (s.enumKeyEnd key)
  have h₃ := s.le_enumName (s.skipDecorations macros (s.enumKeyEnd key)).index
  exact Nat.lt_of_lt_of_le h₁ (Nat.le_trans h₂ h₃)

/-- The names in a namespace head that is read from `i` on, and where the head goes on behind
them. -/
def namespaceHead (s : Source) (i : Nat) : List String × Nat :=
  ((s.namespaceNames [] i).1, (s.skipBrackets (s.namespaceNames [] i).2).index)

theorem le_namespaceHead (s : Source) (i : Nat) : i ≤ (s.namespaceHead i).2 :=
  Nat.le_trans (le_namespaceNames [] i) (le_skipBrackets _)

namespace Commented

variable {s s' : Source} {k i i' : Nat} (h : s.Commented s' k)
include h

/-- **The head of a class is read**, or reading is held up there. -/
theorem recordHead_past (macros : Macros) (hi : Abreast k i i') :
    s'.recordHead macros i' =
        ((s.recordHead macros i).1.map (past k), past k (s.recordHead macros i).2) ∨
      k ≤ (s.recordHead macros i).2 ∧ s'.Stuck k (s'.recordHead macros i').2 := by
  simp only [recordHead]
  rcases h.recordName_past [] false (h.skipDecorations_past macros hi) with hname | ⟨hle, hstuck⟩
  · rw [hname]
    simp only [RecordName.map, h.is_past]
    generalize s.recordName [] false (s.skipDecorations macros i).index = n
    split
    · rcases abreast_succ k n.index with hnext | ⟨hk, hk'⟩
      · exact .inl (by rw [hnext])
      · exact .inr ⟨by omega, by rw [hk']; exact h.stuck_comment⟩
    · exact .inl rfl
  · refine .inr ⟨by split <;> omega, ?_⟩
    generalize (s'.recordName [] false (s'.skipDecorations macros i').index).index = j at hstuck ⊢
    split
    · rename_i hfinal
      have hne : j ≠ k := by
        rintro rfl
        rw [h.is_comment (by decide)] at hfinal
        cases hfinal
      have hle := hstuck.le
      have hge := hstuck.ge
      rw [show j + 1 = k by omega]
      exact h.stuck_comment
    · exact hstuck

/-! ## Enumerations -/

theorem underlyingEnd_past (i : Nat) :
    s'.underlyingEnd (past k i) = past k (s.underlyingEnd i) := by
  have hcomment : s'.underlyingEnd k = s'.underlyingEnd (k + 1) := by
    rw [underlyingEnd, if_pos h.lt_size]
    simp (disch := decide) only [h.is_comment, Bool.or_self, Bool.false_eq_true, if_false]
  fun_induction underlyingEnd s i with
  | case1 i hlt hend =>
    rw [underlyingEnd, if_pos (h.lt_size_past.2 hlt), h.is_past, h.is_past, if_pos hend]
  | case2 i hlt hend ih =>
    rw [underlyingEnd.eq_def s', if_pos (h.lt_size_past.2 hlt), h.is_past, h.is_past, if_neg hend,
      (abreast_succ k i).congr hcomment, ih]
  | case3 i hlt => rw [underlyingEnd, if_neg (mt h.lt_size_past.1 hlt)]

/-- Behind a name that reading may be held up at, it is held up as well. -/
theorem stuck_name (hi : s'.Stuck k i') :
    s'.Stuck k (if s'.isIdentifier i' then i' + 1 else i') := by
  split
  · rename_i hname
    have hne : i' ≠ k := by
      rintro rfl
      rw [h.isIdentifier_comment] at hname
      cases hname
    have hle := hi.le
    have hge := hi.ge
    rw [show i' + 1 = k by omega]
    exact h.stuck_comment
  · exact hi

theorem enumName_past (hi : s'.HeldUp k i i') :
    s'.enumName i' = ((s.enumName i).1, past k (s.enumName i).2) ∨
      k ≤ (s.enumName i).2 ∧ s'.Stuck k (s'.enumName i').2 := by
  have hstuck {j : Nat} (hj : s'.Stuck k j) :
      s'.Stuck k (if s'.is j ":" then s'.underlyingEnd j else j) := by
    rw [hj.is_eq ":" (by decide), if_neg Bool.false_ne_true]
    exact hj
  rcases hi with rfl | ⟨hi, hi'⟩
  · simp only [enumName, h.isIdentifier_past, h.spelling]
    have hj : Abreast k (if s.isIdentifier i then i + 1 else i)
        (if s.isIdentifier i then past k i + 1 else past k i) := by
      split
      · exact abreast_succ k i
      · exact abreast_past k i
    generalize (if s.isIdentifier i = true then i + 1 else i) = j at hj ⊢
    rcases hj with hj | ⟨hj, hj'⟩
    · rw [hj, h.is_past, h.underlyingEnd_past, apply_ite (past k)]
      exact .inl rfl
    · have hle := le_underlyingEnd (s := s) j
      refine .inr ⟨?_, ?_⟩
      · split <;> omega
      · rw [hj']
        exact hstuck h.stuck_comment
  · exact .inr ⟨Nat.le_trans hi (s.le_enumName i), hstuck (h.stuck_name hi')⟩

theorem enumHead_past (macros : Macros) (key : Nat) :
    s'.enumHead macros (past k key) =
        ((s.enumHead macros key).1, past k (s.enumHead macros key).2) ∨
      k ≤ (s.enumHead macros key).2 ∧ s'.Stuck k (s'.enumHead macros (past k key)).2 := by
  by_cases hk : key + 1 = k
  · -- the comment stands behind the keyword
    have hend : s'.enumKeyEnd (past k key) = k := by
      rw [past_of_lt (show key < k by omega), enumKeyEnd, hk]
      simp (disch := decide) only [h.is_comment, Bool.or_self, Bool.false_eq_true, if_false]
    refine h.enumName_past (.inr ⟨?_, ?_⟩)
    · have hle := le_skipDecorations (s := s) macros (s.enumKeyEnd key)
      have : key + 1 ≤ s.enumKeyEnd key := by unfold enumKeyEnd; split <;> omega
      omega
    · rw [hend, h.skipDecorations_comment]
      exact h.stuck_comment
  · have hend : Abreast k (s.enumKeyEnd key) (s'.enumKeyEnd (past k key)) := by
      rw [enumKeyEnd, enumKeyEnd, ← past_succ hk, h.is_past, h.is_past]
      split
      · have hnext := abreast_succ k (key + 1)
        rwa [past_succ hk] at hnext
      · exact abreast_past k _
    exact h.enumName_past (h.skipDecorations_past macros hend)

/-! ## Namespaces -/

theorem skipInline_comment : s'.skipInline k = k := by
  rw [skipInline, h.is_comment (by decide), if_neg Bool.false_ne_true]

theorem namespaceNames_comment (names : List String) : s'.namespaceNames names k = (names, k) := by
  rw [namespaceNames, h.skipInline_comment, h.isIdentifier_comment]
  rfl

theorem skipInline_past (i : Nat) : s'.skipInline (past k i) = past k (s.skipInline i) ∨
    k ≤ s.skipInline i ∧ s'.skipInline (past k i) = k := by
  simp only [skipInline, h.is_past]
  split
  · rcases abreast_succ k i with hi | ⟨hi, hi'⟩
    · exact .inl hi
    · exact .inr ⟨by omega, hi'⟩
  · exact .inl rfl

/-- The names of a namespace are read, or reading is held up there. -/
theorem namespaceNames_past (names : List String) (hi : Abreast k i i') :
    s'.namespaceNames names i' =
        ((s.namespaceNames names i).1, past k (s.namespaceNames names i).2) ∨
      k ≤ (s.namespaceNames names i).2 ∧ (s'.namespaceNames names i').2 = k := by
  have hnext {names : List String} {i i' : Nat} (hi : Abreast k i i')
      (hpast : s'.namespaceNames names (past k i) =
          ((s.namespaceNames names i).1, past k (s.namespaceNames names i).2) ∨
        k ≤ (s.namespaceNames names i).2 ∧ (s'.namespaceNames names (past k i)).2 = k) :
      s'.namespaceNames names i' =
          ((s.namespaceNames names i).1, past k (s.namespaceNames names i).2) ∨
        k ≤ (s.namespaceNames names i).2 ∧ (s'.namespaceNames names i').2 = k := by
    rcases hi with rfl | ⟨rfl, rfl⟩
    · exact hpast
    · exact .inr ⟨le_namespaceNames names _, by rw [h.namespaceNames_comment]⟩
  refine hnext hi ?_
  clear hi
  -- behind an `inline` the comment comes before any name
  have hinline {names : List String} {i : Nat} (hi : s'.skipInline (past k i) = k) :
      (s'.namespaceNames names (past k i)).2 = k := by
    rw [namespaceNames, hi, h.isIdentifier_comment]
    rfl
  fun_induction namespaceNames s names i with
  | case1 names i j hname hcolons ih =>
    have hle := le_namespaceNames (s := s) (names ++ [s.spelling j]) (j + 2)
    have hinline' : s'.skipInline (past k i) = past k j ∨ k ≤ j ∧ s'.skipInline (past k i) = k :=
      h.skipInline_past i
    rcases hinline' with hj | ⟨hk, hj⟩
    · rw [namespaceNames.eq_def s', hj]
      simp only [h.isIdentifier_past, hname, if_true, h.spelling]
      by_cases hk : j + 1 = k
      · rw [past_of_lt (show j < k by omega), hk]
        simp (disch := decide) only [h.is_comment, Bool.false_eq_true, if_false]
        exact .inr ⟨by omega, trivial⟩
      · rw [← past_succ hk, h.is_past, if_pos hcolons,
          show past k j + 2 = past k (j + 1) + 1 by rw [past_succ hk]]
        exact hnext (abreast_succ k (j + 1)) ih
    · exact .inr ⟨Nat.le_trans hk (Nat.le_trans (Nat.le_add_right j 2) hle), hinline hj⟩
  | case2 names i j hname hcolons =>
    have hinline' : s'.skipInline (past k i) = past k j ∨ k ≤ j ∧ s'.skipInline (past k i) = k :=
      h.skipInline_past i
    rcases hinline' with hj | ⟨hk, hj⟩
    · rw [namespaceNames.eq_def s', hj]
      simp only [h.isIdentifier_past, hname, if_true, h.spelling]
      by_cases hk : j + 1 = k
      · rw [past_of_lt (show j < k by omega), hk]
        simp (disch := decide) only [h.is_comment, Bool.false_eq_true, if_false]
        exact .inr ⟨Nat.le_refl _, trivial⟩
      · rw [← past_succ hk, h.is_past, if_neg hcolons]
        exact .inl rfl
    · exact .inr ⟨Nat.le_succ_of_le hk, hinline hj⟩
  | case3 names i j hname =>
    have hinline' : s'.skipInline (past k i) = past k j ∨ k ≤ j ∧ s'.skipInline (past k i) = k :=
      h.skipInline_past i
    rcases hinline' with hj | ⟨hk, hj⟩
    · rw [namespaceNames.eq_def s', hj]
      simp only [h.isIdentifier_past]
      rw [if_neg hname]
      exact .inl rfl
    · exact .inr ⟨hk, hinline hj⟩

theorem skipBrackets_comment : s'.skipBrackets k = ⟨k, []⟩ := by
  rw [skipBrackets, dif_neg (by rw [h.is_comment (by decide)]; exact Bool.false_ne_true)]

theorem skipBrackets_past (hi : Abreast k i i') :
    (s'.skipBrackets i').index = past k (s.skipBrackets i).index ∨
      k ≤ (s.skipBrackets i).index ∧ (s'.skipBrackets i').index = k := by
  have hnext {i i' : Nat} (hi : Abreast k i i')
      (hpast : (s'.skipBrackets (past k i)).index = past k (s.skipBrackets i).index ∨
        k ≤ (s.skipBrackets i).index ∧ (s'.skipBrackets (past k i)).index = k) :
      (s'.skipBrackets i').index = past k (s.skipBrackets i).index ∨
        k ≤ (s.skipBrackets i).index ∧ (s'.skipBrackets i').index = k := by
    rcases hi with rfl | ⟨rfl, rfl⟩
    · exact hpast
    · exact .inr ⟨le_skipBrackets _, by rw [h.skipBrackets_comment]⟩
  refine hnext hi ?_
  clear hi
  fun_induction skipBrackets s i with
  | case1 i hopen r ih =>
    rw [skipBrackets.eq_def s', dif_pos (by rw [h.is_past, hopen]), h.groupEnd_past]
    exact hnext (abreast_succ k _) ih
  | case2 i hopen =>
    rw [skipBrackets.eq_def s', dif_neg (by rw [h.is_past]; exact hopen)]
    exact .inl rfl

/-- **The head of a namespace is read**, or reading is held up there. -/
theorem namespaceHead_past (hi : Abreast k i i') :
    s'.namespaceHead i' = ((s.namespaceHead i).1, past k (s.namespaceHead i).2) ∨
      k ≤ (s.namespaceHead i).2 ∧ s'.Stuck k (s'.namespaceHead i').2 := by
  simp only [namespaceHead]
  have hstuck {j : Nat} (hj : j = k) : s'.Stuck k j := hj ▸ h.stuck_comment
  rcases h.namespaceNames_past [] hi with hnames | ⟨hle, hnames⟩
  · rw [hnames]
    rcases h.skipBrackets_past (abreast_past k (s.namespaceNames [] i).2) with hend | ⟨hle, hend⟩
    · rw [hend]
      exact .inl rfl
    · exact .inr ⟨hle, hstuck hend⟩
  · refine .inr ⟨Nat.le_trans hle (le_skipBrackets _), hstuck ?_⟩
    rw [hnames, h.skipBrackets_comment]

end Commented

end Source

end DocIndex
