import DocIndex.Proofs.Ahead.Shape
import DocIndex.Proofs.Window.Declaration

/-!
# Heads, lines and announcements behind some lexemes

What reads the words between a keyword and a body, a preprocessor line or an enumerator looks ahead
only, and stops at the same lexeme as alone.

* `recordHead_ahead`, `enumHead_ahead`, `namespaceHead_ahead` — where heads end.
* `lineEnd_ahead`, `macroCallEnd_ahead` — where preprocessor lines and macro calls end.
* `announced_ahead` — what a word announces.
-/

namespace DocIndex

namespace Source

namespace Ahead

variable {k : Nat} {s s' : Source} (h : s.Ahead k s') {macros : Macros} {i : Nat}
include h

/-! ## Decorations -/

theorem skipDecorations_ahead (i : Nat) :
    (s'.skipDecorations macros (k + i)).index = k + (s.skipDecorations macros i).index := by
  have hstep {i : Nat} (hlt : i < s.size) :
      (s'.skipDecorations macros (k + i)).index =
        if s.is i "[" && s.is (i + 1) "[" then
          (s'.skipDecorations macros (k + (s.groupEnd i + 1))).index
        else if specifiers.contains (s.spelling i) && s.is (i + 1) "(" then
          (s'.skipDecorations macros (k + (s.groupEnd (i + 1) + 1))).index
        else if s.isIdentifier i && macros.lookup (s.spelling i) == some false &&
            s.isIdentifier (i + 1) then
          (s'.skipDecorations macros (k + (i + 1))).index
        else k + i := by
    rw [skipDecorations, if_pos (h.lt_size.2 hlt)]
    simp only [Nat.add_assoc, h.is_ahead, h.spelling, h.isIdentifier_ahead, h.groupEnd_ahead,
      dite_eq_ite]
    (repeat' split) <;> rfl
  fun_induction skipDecorations s macros i with
  | case1 i hlt hopen r ih =>
    rw [hstep hlt, if_pos hopen]
    exact ih
  | case2 i hlt hopen hp r ih =>
    rw [hstep hlt, if_neg hopen, if_pos hp]
    exact ih
  | case3 i hlt hopen hp hname ih =>
    rw [hstep hlt, if_neg hopen, if_neg hp, if_pos hname]
    exact ih
  | case4 i hlt hopen hp hname => rw [hstep hlt, if_neg hopen, if_neg hp, if_neg hname]
  | case5 i hlt => rw [skipDecorations, if_neg (mt h.lt_size.1 hlt)]

theorem skipBrackets_ahead (i : Nat) :
    (s'.skipBrackets (k + i)).index = k + (s.skipBrackets i).index := by
  fun_induction skipBrackets s i with
  | case1 i hopen r ih =>
    rw [skipBrackets, dif_pos ((h.is_ahead i "[").trans hopen), h.groupEnd_ahead]
    exact ih
  | case2 i hopen =>
    rw [skipBrackets, dif_neg (by rwa [h.is_ahead])]

/-! ## Classes -/

theorem argumentsEnd_ahead (i : Nat) : s'.argumentsEnd (k + i) = k + s.argumentsEnd i := by
  simp only [argumentsEnd, Nat.add_assoc, h.is_ahead, h.angleEnd_ahead]
  split <;> rfl

theorem recordName_ahead (qualifier : List String) (isSpecialized : Bool) (i : Nat) :
    s'.recordName qualifier isSpecialized (k + i) =
      (s.recordName qualifier isSpecialized i).map (k + ·) := by
  fun_induction recordName s qualifier isSpecialized i with
  | case1 qualifier isSpecialized i hname hasArguments j hcolons ih =>
    have hcolons : s.is (s.argumentsEnd i) "::" = true := hcolons
    rw [recordName_of_isIdentifier ((h.isIdentifier_ahead i).trans hname), h.argumentsEnd_ahead,
      h.is_ahead, if_pos hcolons, h.spelling, Nat.add_assoc, h.is_ahead]
    exact ih
  | case2 qualifier isSpecialized i hname hasArguments j hcolons =>
    have hcolons : ¬ s.is (s.argumentsEnd i) "::" = true := hcolons
    rw [recordName_of_isIdentifier ((h.isIdentifier_ahead i).trans hname), h.argumentsEnd_ahead,
      h.is_ahead, if_neg hcolons, h.spelling, Nat.add_assoc, h.is_ahead]
    rfl
  | case3 qualifier isSpecialized i hname =>
    rw [recordName, h.isIdentifier_ahead, if_neg hname]
    rfl

/-- **The head of a class ends where it does alone.** -/
theorem recordHead_ahead (i : Nat) :
    s'.recordHead macros (k + i) =
      ((s.recordHead macros i).1.map (k + ·), k + (s.recordHead macros i).2) := by
  simp only [recordHead, h.skipDecorations_ahead, h.recordName_ahead, RecordName.map, h.is_ahead]
  split <;> rfl

/-- A list of base classes ends where it does alone. -/
theorem baseListEnd_ahead (i : Nat) :
    (s'.baseListEnd (k + i)).index = k + (s.baseListEnd i).index := by
  have hstep {i : Nat} (hlt : i < s.size) :
      (s'.baseListEnd (k + i)).index =
        if s.is i "\x7b" || s.is i ";" then k + i
        else if s.is i "<" then (s'.baseListEnd (k + (s.angleEnd i + 1))).index
        else if s.is i "(" then (s'.baseListEnd (k + (s.groupEnd i + 1))).index
        else (s'.baseListEnd (k + (i + 1))).index := by
    rw [baseListEnd, dif_pos (h.lt_size.2 hlt)]
    simp only [Nat.add_assoc, h.is_ahead, h.angleEnd_ahead, h.groupEnd_ahead]
    (repeat' split) <;> rfl
  fun_induction baseListEnd s i with
  | case1 i hlt hend => rw [hstep hlt, if_pos hend]
  | case2 i hlt hend hangle ih =>
    rw [hstep hlt, if_neg hend, if_pos hangle]
    exact ih
  | case3 i hlt hend hangle hopen r ih =>
    rw [hstep hlt, if_neg hend, if_neg hangle, if_pos hopen]
    exact ih
  | case4 i hlt hend hangle hopen ih =>
    rw [hstep hlt, if_neg hend, if_neg hangle, if_neg hopen]
    exact ih
  | case5 i hlt => rw [baseListEnd, dif_neg (mt h.lt_size.1 hlt)]

/-! ## Enumerations -/

theorem underlyingEnd_ahead (i : Nat) : s'.underlyingEnd (k + i) = k + s.underlyingEnd i := by
  fun_induction underlyingEnd s i with
  | case1 i hlt hend =>
    rw [underlyingEnd, if_pos (h.lt_size.2 hlt), h.is_ahead, h.is_ahead, if_pos hend]
  | case2 i hlt hend ih =>
    rw [underlyingEnd, if_pos (h.lt_size.2 hlt), h.is_ahead, h.is_ahead, if_neg hend]
    exact ih
  | case3 i hlt => rw [underlyingEnd, if_neg (mt h.lt_size.1 hlt)]

theorem enumName_ahead (i : Nat) :
    s'.enumName (k + i) = ((s.enumName i).1, k + (s.enumName i).2) := by
  have hnext : (if s.isIdentifier i then k + (i + 1) else k + i) =
      k + if s.isIdentifier i then i + 1 else i := by
    split <;> rfl
  simp only [enumName, h.isIdentifier_ahead, h.spelling, Nat.add_assoc, hnext, h.is_ahead,
    h.underlyingEnd_ahead]
  generalize (if s.isIdentifier i = true then i + 1 else i) = j
  refine congrArg (Prod.mk _) ?_
  split <;> rfl

theorem enumHead_ahead (key : Nat) :
    s'.enumHead macros (k + key) = ((s.enumHead macros key).1, k + (s.enumHead macros key).2) := by
  have hend : s'.enumKeyEnd (k + key) = k + s.enumKeyEnd key := by
    simp only [enumKeyEnd, Nat.add_assoc, h.is_ahead]
    split <;> rfl
  rw [enumHead, hend, h.skipDecorations_ahead, h.enumName_ahead]
  rfl

theorem enumeratorEnd_ahead (i : Nat) :
    (s'.enumeratorEnd (k + i)).index = k + (s.enumeratorEnd i).index := by
  have hlt {i : Nat} (hlt : i + 1 < s.size) : k + i + 1 < s'.size := h.lt_size.2 hlt
  fun_induction enumeratorEnd s i with
  | case1 i hnext hend =>
    rw [enumeratorEnd, dif_pos (hlt hnext), Nat.add_assoc, h.is_ahead, h.is_ahead, if_pos hend]
  | case2 i hnext hend hopen r ih =>
    rw [enumeratorEnd, dif_pos (hlt hnext)]
    simp only [Nat.add_assoc, h.is_ahead, h.opensGroup_ahead, h.groupEnd_ahead]
    rw [if_neg hend, if_pos hopen]
    exact ih
  | case3 i hnext hend hopen ih =>
    rw [enumeratorEnd, dif_pos (hlt hnext)]
    simp only [Nat.add_assoc, h.is_ahead, h.opensGroup_ahead]
    rw [if_neg hend, if_neg hopen]
    exact ih
  | case4 i hnext =>
    have hend : ¬ k + i + 1 < s'.size := fun hlt => hnext (h.lt_size.1 hlt)
    rw [enumeratorEnd, dif_neg hend]

/-- Declarators end where they do alone. -/
theorem declaratorsEnd_ahead (hi : 0 < i) :
    (Outline.declaratorsEnd s' (k + i)).index = k + (Outline.declaratorsEnd s i).index := by
  unfold Outline.declaratorsEnd
  simp only [h.is_ahead, h.isIdentifier_ahead]
  split
  · rfl
  split
  · exact h.statementEnd_ahead hi
  · exact Nat.add_sub_assoc hi k

/-! ## Namespaces -/

theorem skipInline_ahead (i : Nat) : s'.skipInline (k + i) = k + s.skipInline i := by
  simp only [skipInline, h.is_ahead]
  split <;> rfl

theorem namespaceNames_ahead (names : List String) (i : Nat) :
    s'.namespaceNames names (k + i) =
      ((s.namespaceNames names i).1, k + (s.namespaceNames names i).2) := by
  fun_induction namespaceNames s names i with
  | case1 names i j hname hcolons ih =>
    have hskip : s'.skipInline (k + i) = k + j := h.skipInline_ahead i
    rw [namespaceNames]
    simp only [hskip, h.isIdentifier_ahead, hname, if_true, Nat.add_assoc, h.is_ahead, hcolons,
      h.spelling]
    exact ih
  | case2 names i j hname hcolons =>
    have hskip : s'.skipInline (k + i) = k + j := h.skipInline_ahead i
    rw [namespaceNames]
    simp only [hskip, h.isIdentifier_ahead, hname, if_true, Nat.add_assoc, h.is_ahead, h.spelling]
    rw [if_neg hcolons]
  | case3 names i j hname =>
    have hskip : s'.skipInline (k + i) = k + j := h.skipInline_ahead i
    rw [namespaceNames]
    simp only [hskip, h.isIdentifier_ahead]
    rw [if_neg hname]

theorem namespaceHead_ahead (i : Nat) :
    s'.namespaceHead (k + i) = ((s.namespaceHead i).1, k + (s.namespaceHead i).2) := by
  simp only [namespaceHead, h.namespaceNames_ahead, h.skipBrackets_ahead]

/-! ## Preprocessor lines and macro calls -/

theorem lineEnd_ahead (i : Nat) : s'.lineEnd (k + i) = k + s.lineEnd i := by
  have hmore (i : Nat) : (decide (k + i + 1 < s'.size) && s'.lineContinues (k + i)) =
      (decide (i + 1 < s.size) && s.lineContinues i) := by
    rw [h.continues, Nat.add_assoc, decide_eq_decide.2 h.lt_size]
  fun_induction lineEnd s i with
  | case1 i hline ih =>
    rw [lineEnd, hmore, if_pos hline]
    exact ih
  | case2 i hline => rw [lineEnd, hmore, if_neg hline]

theorem lastCode_ahead (i last : Nat) :
    s'.lastCode (k + i) (k + last) = k + s.lastCode i last := by
  have hcode (n : Nat) : s'.lastCodeOf (k + i) n = k + s.lastCodeOf i n := by
    induction n with
    | zero => rfl
    | succ n ih =>
      have hlast : k + i + n + 1 = k + (i + n + 1) := by omega
      rw [lastCodeOf, lastCodeOf, ih, hlast, h.isComment_ahead]
      split <;> rfl
  rw [lastCode, lastCode, Nat.add_sub_add_left]
  exact hcode _

theorem isMacroCall_ahead (i : Nat) : s'.isMacroCall macros (k + i) = s.isMacroCall macros i := by
  simp only [isMacroCall, h.isIdentifier_ahead, h.spelling]

theorem macroCallEnd_ahead (i : Nat) :
    s'.macroCallEnd macros (k + i) = k + s.macroCallEnd macros i := by
  simp only [macroCallEnd, h.spelling, Nat.add_assoc, h.is_ahead, h.groupEnd_ahead]
  split <;> rfl

theorem standsAlone_ahead (last : Nat) : s'.standsAlone (k + last) = s.standsAlone last := by
  simp only [standsAlone, Nat.add_assoc, h.is_ahead, h.size, Nat.add_le_add_iff_left]
  by_cases hend : s.size ≤ last + 1
  · rw [decide_eq_true hend, Bool.true_or, Bool.true_or, Bool.true_or]
  · rw [decide_eq_decide.2 (h.lines (Nat.lt_succ_self last) (Nat.lt_of_not_le hend))]

/-! ## Announcements -/

/-- **A word announces what it announces alone.** -/
theorem announced_ahead (start i : Nat) :
    s'.announced (k + start) (k + i) = (s.announced start i).map (k + ·) := by
  have heq : (k + start == k + i) = (start == i) :=
    Bool.eq_iff_iff.2 (by rw [beq_iff_eq, beq_iff_eq, Nat.add_left_cancel_iff])
  unfold announced
  simp only [Nat.add_assoc, h.spelling, heq, h.kind, h.is_ahead]
  generalize s.spelling i = word
  split
  all_goals try rfl
  all_goals split
  all_goals rfl

end Ahead

end Source

end DocIndex
