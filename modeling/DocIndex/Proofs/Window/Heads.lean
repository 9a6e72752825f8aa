import DocIndex.Proofs.Extent.Ended
import DocIndex.Proofs.Window.Shape

/-!
# Heads, lines and announcements within a window

What reads the words between a keyword and a body, a preprocessor line or an enumerator stops at the
same lexeme in both sources, if it stops within the window.

* `recordHead_moved`, `enumHead_moved`, `namespaceHead_moved` — where heads end.
* `lineEnd_moved`, `macroCallEnd_moved` — where preprocessor lines and macro calls end; a text that
  is laid out anew has none.
* `announced_moved` — what a word announces.
-/

namespace DocIndex

namespace Source

/-- Decorations do not end behind a statement. -/
theorem skipDecorations_le_succ_statementEnd {w : Window} {s s' : Source} (h : s.Agrees w s')
    (macros : Macros) {i : Nat} (hi : i ≤ s.size) :
    (s.skipDecorations macros i).index ≤ (s.statementEnd i).index + 1 := by
  have hgroup {i : Nat} (hlt : i < s.size) (hi : s.is i "[" = true ∨ s.is i "(" = true) :
      (s.statementEnd i).index = (s.statementEnd (s.groupEnd i + 1)).index := by
    have hopen : s.opensGroup i = true := by
      simp only [opensGroup, Bool.or_eq_true]
      exact .inl hi.symm
    have hsemi : s.spelling i ≠ ";" := by
      simp only [is, Bool.and_eq_true, beq_iff_eq] at hi
      rcases hi with hi | hi <;> rw [hi.2] <;> decide
    rw [statementEnd.eq_def s i, if_pos hlt, if_neg hsemi, if_pos hopen]
  fun_induction skipDecorations s macros i with
  | case1 i hlt hopen r ih =>
    simp only [Bool.and_eq_true] at hopen
    rw [hgroup hlt (.inl hopen.1)]
    exact ih (groupEnd_lt hlt)
  | case2 i hlt hopen hp r ih =>
    simp only [Bool.and_eq_true] at hp
    have hmarks : ∀ word ∈ statementMarks, word ∉ specifiers := by decide
    have hnext := lt_size_of_is hp.2
    rw [statementEnd_succ hlt fun word hword heq =>
      hmarks word hword (heq ▸ List.contains_iff_mem.1 hp.1), hgroup hnext (.inr hp.2)]
    exact ih (groupEnd_lt hnext)
  | case3 i hlt hopen hp hname ih =>
    simp only [Bool.and_eq_true] at hname
    rw [statementEnd_succ hlt fun word hword =>
      h.spelling_ne_of_isIdentifier hname.1.1 (isWordStart_statementMarks word hword)]
    exact ih hlt
  | case4 i hlt hopen hp hname => exact le_succ_statementEnd hi
  | case5 i hlt => exact le_succ_statementEnd hi

namespace Agrees

variable {w : Window} {s s' : Source} (h : s.Agrees w s') {macros : Macros} {i : Nat}
include h

/-! ## Decorations -/

theorem skipDecorations_moved (hi : w.first ≤ i) (hin : i ≤ s.size)
    (hs : w.Seen ((s.skipDecorations macros i).index + 1)) :
    (s'.skipDecorations macros (w.moved i)).index = w.moved (s.skipDecorations macros i).index := by
  have hstep {i : Nat} (hi : w.first ≤ i) (hlt : i < s.size) (hs : w.Seen (i + 1)) :
      (s'.skipDecorations macros (w.moved i)).index =
        if s.is i "[" && s.is (i + 1) "[" then
          (s'.skipDecorations macros (s'.groupEnd (w.moved i) + 1)).index
        else if specifiers.contains (s.spelling i) && s.is (i + 1) "(" then
          (s'.skipDecorations macros (s'.groupEnd (w.moved (i + 1)) + 1)).index
        else if s.isIdentifier i && macros.lookup (s.spelling i) == some false &&
            s.isIdentifier (i + 1) then
          (s'.skipDecorations macros (w.moved (i + 1))).index
        else w.moved i := by
    have hseen := w.seen_of_le hs (Nat.le_succ i)
    have hle := Nat.le_succ_of_le hi
    rw [skipDecorations, if_pos ((h.lt_iff hi hseen).2 hlt)]
    simp only [← Window.moved_succ hi, h.is_moved hi hseen, h.is_moved hle hs,
      h.spelling hi hseen, h.isIdentifier_moved hi hseen, h.isIdentifier_moved hle hs,
      dite_eq_ite]
    (repeat' split) <;> rfl
  have hseen {i j : Nat} (hs : w.Seen ((s.skipDecorations macros j).index + 1)) (hij : i < j) :
      w.Seen (i + 1) :=
    w.seen_of_le hs (Nat.le_succ_of_le (Nat.le_trans hij (le_skipDecorations macros j)))
  fun_induction skipDecorations s macros i with
  | case1 i hlt hopen r ih =>
    have hle := le_groupEnd hlt
    have hend := w.seen_of_le hs (Nat.succ_le_succ
      (Nat.le_of_succ_le (le_skipDecorations (s := s) macros (s.groupEnd i + 1))))
    rw [hstep hi hlt (hseen hs (Nat.lt_succ_of_le hle)), if_pos hopen, h.groupEnd_moved hi hlt hend,
      ← Window.moved_succ (Nat.le_trans hi hle)]
    exact ih (by omega) (groupEnd_lt hlt) hs
  | case2 i hlt hopen hp r ih =>
    have hp' := hp
    simp only [Bool.and_eq_true] at hp'
    have hnext := lt_size_of_is hp'.2
    have hle := le_groupEnd hnext
    have hend := w.seen_of_le hs (Nat.succ_le_succ
      (Nat.le_of_succ_le (le_skipDecorations (s := s) macros (s.groupEnd (i + 1) + 1))))
    have hfirst : w.first ≤ i + 1 := Nat.le_succ_of_le hi
    rw [hstep hi hlt (hseen hs (by omega)), if_neg hopen, if_pos hp,
      h.groupEnd_moved hfirst hnext hend, ← Window.moved_succ (Nat.le_trans hfirst hle)]
    exact ih (by omega) (groupEnd_lt hnext) hs
  | case3 i hlt hopen hp hname ih =>
    rw [hstep hi hlt (hseen hs (Nat.lt_succ_self i)), if_neg hopen, if_neg hp, if_pos hname]
    exact ih (Nat.le_succ_of_le hi) hlt hs
  | case4 i hlt hopen hp hname => rw [hstep hi hlt hs, if_neg hopen, if_neg hp, if_neg hname]
  | case5 i hlt =>
    have hend : ¬ w.moved i < s'.size := by
      rwa [h.lt_iff hi (w.seen_of_le hs (Nat.le_succ i))]
    rw [skipDecorations, if_neg hend]

theorem skipBrackets_moved (hi : w.first ≤ i) (hs : w.Seen ((s.skipBrackets i).index + 1)) :
    (s'.skipBrackets (w.moved i)).index = w.moved (s.skipBrackets i).index := by
  fun_induction skipBrackets s i with
  | case1 i hopen r ih =>
    have hlt := lt_size_of_is hopen
    have hle := le_groupEnd hlt
    have hend := w.seen_of_le hs (Nat.succ_le_succ
      (Nat.le_of_succ_le (le_skipBrackets (s := s) (s.groupEnd i + 1))))
    have hopen' := h.is_moved hi (w.seen_of_le hend (Nat.le_succ_of_le hle)) "["
    rw [skipBrackets, dif_pos (hopen'.trans hopen), h.groupEnd_moved hi hlt hend,
      ← Window.moved_succ (Nat.le_trans hi hle)]
    exact ih (by omega) hs
  | case2 i hopen =>
    have hopen' := h.is_moved hi (w.seen_of_le hs (Nat.le_succ i)) "["
    rw [skipBrackets, dif_neg (by rwa [hopen'])]

/-! ## Classes -/

theorem argumentsEnd_moved (hi : w.first ≤ i) (hs : w.Seen (s.argumentsEnd i)) :
    s'.argumentsEnd (w.moved i) = w.moved (s.argumentsEnd i) ∧ w.Seen (i + 1) := by
  have hseen : w.Seen (i + 1) := by
    refine w.seen_of_le hs ?_
    unfold argumentsEnd
    split
    · have := le_angleEnd (lt_size_of_is ‹_›)
      omega
    · exact Nat.le_refl _
  refine ⟨?_, hseen⟩
  have hle : w.first ≤ i + 1 := Nat.le_succ_of_le hi
  unfold argumentsEnd at hs ⊢
  rw [← Window.moved_succ hi, h.is_moved hle hseen]
  split
  · rename_i hangle
    rw [if_pos hangle] at hs
    have hge := le_angleEnd (lt_size_of_is hangle)
    rw [h.angleEnd_moved hle hs, Window.moved_succ (by omega)]
  · rfl

theorem recordName_moved (qualifier : List String) (isSpecialized : Bool) (hi : w.first ≤ i)
    (hs : w.Seen ((s.recordName qualifier isSpecialized i).index + 1)) :
    s'.recordName qualifier isSpecialized (w.moved i) =
      (s.recordName qualifier isSpecialized i).map w.moved := by
  have hbehind {i : Nat} (hname : s.isIdentifier i = true) : i ≤ s.argumentsEnd i := by
    unfold argumentsEnd
    split
    · have := le_angleEnd (lt_size_of_is ‹_›)
      omega
    · exact Nat.le_succ i
  fun_induction recordName s qualifier isSpecialized i with
  | case1 qualifier isSpecialized i hname hasArguments j hcolons ih =>
    have hcolons : s.is (s.argumentsEnd i) "::" = true := hcolons
    have hle := le_recordName (s := s) (qualifier ++ [s.spelling i])
      (isSpecialized || hasArguments) (s.argumentsEnd i + 1)
    have hend : w.Seen (s.argumentsEnd i) := w.seen_of_le hs (by
      refine Nat.le_succ_of_le (Nat.le_trans (Nat.le_succ _) hle))
    obtain ⟨hmoved, hnext⟩ := h.argumentsEnd_moved hi hend
    have hseen := w.seen_of_le hnext (Nat.le_succ i)
    have hfirst := Nat.le_trans hi (hbehind hname)
    rw [recordName_of_isIdentifier ((h.isIdentifier_moved hi hseen).trans hname), hmoved,
      h.is_moved hfirst hend, if_pos hcolons, h.spelling hi hseen, ← Window.moved_succ hi,
      h.is_moved (Nat.le_succ_of_le hi) hnext, ← Window.moved_succ hfirst]
    exact ih (Nat.le_succ_of_le hfirst) hs
  | case2 qualifier isSpecialized i hname hasArguments j hcolons =>
    have hcolons : ¬ s.is (s.argumentsEnd i) "::" = true := hcolons
    have hend : w.Seen (s.argumentsEnd i) := w.seen_of_le hs (Nat.le_succ _)
    obtain ⟨hmoved, hnext⟩ := h.argumentsEnd_moved hi hend
    have hseen := w.seen_of_le hnext (Nat.le_succ i)
    have hfirst := Nat.le_trans hi (hbehind hname)
    rw [recordName_of_isIdentifier ((h.isIdentifier_moved hi hseen).trans hname), hmoved,
      h.is_moved hfirst hend, if_neg hcolons, h.spelling hi hseen, ← Window.moved_succ hi,
      h.is_moved (Nat.le_succ_of_le hi) hnext]
    rfl
  | case3 qualifier isSpecialized i hname =>
    rw [recordName, h.isIdentifier_moved hi (w.seen_of_le hs (Nat.le_succ i)), if_neg hname]
    rfl

/-- **The head of a class ends where it does in the first source.** -/
theorem recordHead_moved (hi : w.first ≤ i) (hin : i ≤ s.size)
    (hs : w.Seen ((s.recordHead macros i).2 + 1)) :
    s'.recordHead macros (w.moved i) =
      ((s.recordHead macros i).1.map w.moved, w.moved (s.recordHead macros i).2) := by
  have hskip := le_skipDecorations (s := s) macros i
  have hname := le_recordName (s := s) [] false (s.skipDecorations macros i).index
  have hseen : w.Seen ((s.recordName [] false (s.skipDecorations macros i).index).index + 1) := by
    refine w.seen_of_le hs (Nat.succ_le_succ ?_)
    simp only [recordHead]
    split <;> omega
  have hfirst := Nat.le_trans hi hskip
  simp only [recordHead]
  rw [h.skipDecorations_moved hi hin (w.seen_of_le hseen (Nat.succ_le_succ hname)),
    h.recordName_moved [] false hfirst hseen]
  generalize s.recordName [] false (s.skipDecorations macros i).index = n at hname hseen ⊢
  have hle := Nat.le_trans hfirst hname
  simp only [RecordName.map, h.is_moved hle (w.seen_of_le hseen (Nat.le_succ _)),
    ← Window.moved_succ hle, apply_ite w.moved]

/-- A list of base classes ends where it does in the first source. -/
theorem baseListEnd_moved (hi : w.first ≤ i) (hin : i ≤ s.size)
    (hs : w.Seen ((s.baseListEnd i).index + 1)) :
    (s'.baseListEnd (w.moved i)).index = w.moved (s.baseListEnd i).index := by
  have hstep {i : Nat} (hi : w.first ≤ i) (hlt : i < s.size) (hs : w.Seen i) :
      (s'.baseListEnd (w.moved i)).index =
        if s.is i "\x7b" || s.is i ";" then w.moved i
        else if s.is i "<" then (s'.baseListEnd (s'.angleEnd (w.moved i) + 1)).index
        else if s.is i "(" then (s'.baseListEnd (s'.groupEnd (w.moved i) + 1)).index
        else (s'.baseListEnd (w.moved (i + 1))).index := by
    rw [baseListEnd, dif_pos ((h.lt_iff hi hs).2 hlt)]
    simp only [h.is_moved hi hs, ← Window.moved_succ hi]
    (repeat' split) <;> rfl
  fun_induction baseListEnd s i with
  | case1 i hlt hend => rw [hstep hi hlt (w.seen_of_le hs (Nat.le_succ i)), if_pos hend]
  | case2 i hlt hend hangle ih =>
    have hle := le_angleEnd hlt
    have hseen := w.seen_of_le hs (Nat.le_succ_of_le (le_baseListEnd (s := s) (s.angleEnd i + 1)))
    rw [hstep hi hlt (w.seen_of_le hseen (Nat.le_succ_of_le hle)), if_neg hend, if_pos hangle,
      h.angleEnd_moved hi hseen, ← Window.moved_succ (Nat.le_trans hi hle)]
    exact ih (by omega) (angleEndFrom_lt (Nat.zero_lt_of_lt hlt)) hs
  | case3 i hlt hend hangle hopen r ih =>
    have hle := le_groupEnd hlt
    have hseen := w.seen_of_le hs (Nat.le_succ_of_le (le_baseListEnd (s := s) (s.groupEnd i + 1)))
    rw [hstep hi hlt (w.seen_of_le hseen (Nat.le_succ_of_le hle)), if_neg hend, if_neg hangle,
      if_pos hopen, h.groupEnd_moved hi hlt hseen, ← Window.moved_succ (Nat.le_trans hi hle)]
    exact ih (by omega) (groupEnd_lt hlt) hs
  | case4 i hlt hend hangle hopen ih =>
    have hseen := w.seen_of_le hs (Nat.le_succ_of_le (le_baseListEnd (s := s) (i + 1)))
    rw [hstep hi hlt (w.seen_of_le hseen (Nat.le_succ i)), if_neg hend, if_neg hangle,
      if_neg hopen]
    exact ih (Nat.le_succ_of_le hi) hlt hs
  | case5 i hlt =>
    have hend : ¬ w.moved i < s'.size := by
      rwa [h.lt_iff hi (w.seen_of_le hs (Nat.le_succ i))]
    rw [baseListEnd, dif_neg hend]

/-! ## Enumerations -/

theorem underlyingEnd_moved (hi : w.first ≤ i) (hs : w.Seen (s.underlyingEnd i)) :
    s'.underlyingEnd (w.moved i) = w.moved (s.underlyingEnd i) := by
  fun_induction underlyingEnd s i with
  | case1 i hlt hend =>
    rw [underlyingEnd, if_pos ((h.lt_iff hi hs).2 hlt), h.is_moved hi hs, h.is_moved hi hs,
      if_pos hend]
  | case2 i hlt hend ih =>
    have hseen : w.Seen i :=
      w.seen_of_le hs (Nat.le_of_succ_le (le_underlyingEnd (s := s) (i + 1)))
    rw [underlyingEnd.eq_def s', if_pos ((h.lt_iff hi hseen).2 hlt), h.is_moved hi hseen,
      h.is_moved hi hseen, if_neg hend, ← Window.moved_succ hi]
    exact ih (Nat.le_succ_of_le hi) hs
  | case3 i hlt => rw [underlyingEnd, if_neg (by rwa [h.lt_iff hi hs])]

theorem enumName_moved (hi : w.first ≤ i) (hs : w.Seen ((s.enumName i).2)) :
    s'.enumName (w.moved i) = ((s.enumName i).1, w.moved (s.enumName i).2) := by
  have hseen := w.seen_of_le hs (s.le_enumName i)
  simp only [enumName] at hs ⊢
  have hbehind : (if s.isIdentifier i then w.moved i + 1 else w.moved i) =
      w.moved (if s.isIdentifier i then i + 1 else i) := by
    rw [apply_ite w.moved, Window.moved_succ hi]
  rw [h.isIdentifier_moved hi hseen, h.spelling hi hseen, hbehind]
  have hj : w.first ≤ if s.isIdentifier i then i + 1 else i := by split <;> omega
  generalize (if s.isIdentifier i = true then i + 1 else i) = j at hj hs ⊢
  have hle := le_underlyingEnd (s := s) j
  have hseen : w.Seen j := by
    split at hs
    · exact w.seen_of_le hs hle
    · exact hs
  rw [h.is_moved hj hseen]
  refine congrArg (Prod.mk _) ?_
  split
  · rename_i hcolon
    rw [if_pos hcolon] at hs
    exact h.underlyingEnd_moved hj hs
  · rfl

theorem enumHead_moved {key : Nat} (hi : w.first ≤ key) (hin : s.enumKeyEnd key ≤ s.size)
    (hs : w.Seen ((s.enumHead macros key).2 + 1)) :
    s'.enumHead macros (w.moved key) =
      ((s.enumHead macros key).1, w.moved (s.enumHead macros key).2) := by
  have hkey : key + 1 ≤ s.enumKeyEnd key := by
    unfold enumKeyEnd
    split <;> omega
  have hskip := le_skipDecorations (s := s) macros (s.enumKeyEnd key)
  have hname := s.le_enumName (s.skipDecorations macros (s.enumKeyEnd key)).index
  have hseen : w.Seen ((s.skipDecorations macros (s.enumKeyEnd key)).index + 1) :=
    w.seen_of_le hs (Nat.succ_le_succ hname)
  have hclass : w.Seen (key + 1) := w.seen_of_le hseen (by omega)
  have hend : s'.enumKeyEnd (w.moved key) = w.moved (s.enumKeyEnd key) := by
    simp only [enumKeyEnd, ← Window.moved_add hi, h.is_moved (Nat.le_succ_of_le hi) hclass,
      apply_ite w.moved]
  rw [enumHead, hend, h.skipDecorations_moved (by omega) hin hseen,
    h.enumName_moved (by omega) (w.seen_of_le hs (Nat.le_succ _))]
  rfl

theorem enumeratorEnd_moved (hi : w.first ≤ i) (hs : w.Seen ((s.enumeratorEnd i).index + 1)) :
    (s'.enumeratorEnd (w.moved i)).index = w.moved (s.enumeratorEnd i).index := by
  have hstep {i : Nat} (hi : w.first ≤ i) (hlt : i + 1 < s.size) (hs : w.Seen (i + 1)) :
      (s'.enumeratorEnd (w.moved i)).index =
        if s.is (i + 1) "," || s.is (i + 1) "\x7d" then w.moved i
        else if s.opensGroup (i + 1) then
          (s'.enumeratorEnd (s'.groupEnd (w.moved (i + 1)))).index
        else (s'.enumeratorEnd (w.moved (i + 1))).index := by
    have hle := Nat.le_succ_of_le hi
    have hlt' := (h.lt_iff hle hs).2 hlt
    rw [Window.moved_succ hi] at hlt'
    rw [enumeratorEnd, dif_pos hlt']
    simp only [← Window.moved_succ hi, h.is_moved hle hs, h.opensGroup_moved hle hs]
    (repeat' split) <;> rfl
  fun_induction enumeratorEnd s i with
  | case1 i hlt hend => rw [hstep hi hlt hs, if_pos hend]
  | case2 i hlt hend hopen r ih =>
    have hle := le_groupEnd hlt
    have hseen := w.seen_of_le hs
      (Nat.succ_le_succ (le_enumeratorEnd (s := s) (s.groupEnd (i + 1))))
    rw [hstep hi hlt (w.seen_of_le hseen (by omega)), if_neg hend, if_pos hopen,
      h.groupEnd_moved (Nat.le_succ_of_le hi) hlt hseen]
    exact ih (by omega) hs
  | case3 i hlt hend hopen ih =>
    have hseen := w.seen_of_le hs (Nat.le_succ_of_le (le_enumeratorEnd (s := s) (i + 1)))
    rw [hstep hi hlt hseen, if_neg hend, if_neg hopen]
    exact ih (Nat.le_succ_of_le hi) hs
  | case4 i hlt =>
    have hend : ¬ w.moved i + 1 < s'.size := by
      rw [← Window.moved_succ hi, h.lt_iff (Nat.le_succ_of_le hi) hs]
      exact hlt
    rw [enumeratorEnd, dif_neg hend]

/-- Declarators end where they do in the first source. -/
theorem declaratorsEnd_moved (hi : w.Behind i) (hseen : w.Seen i)
    (hs : w.Seen ((Outline.declaratorsEnd s i).index + 1)) :
    (Outline.declaratorsEnd s' (w.moved i)).index =
      w.moved (Outline.declaratorsEnd s i).index := by
  unfold Outline.declaratorsEnd at hs ⊢
  simp only [h.is_moved hi.le hseen, h.isIdentifier_moved hi.le hseen] at hs ⊢
  split
  · rfl
  rename_i hsemi
  rw [if_neg hsemi] at hs
  split
  · rename_i hdeclarator
    rw [if_pos hdeclarator] at hs
    exact h.statementEnd_moved hi hs
  · exact (Window.moved_pred hi).symm

/-! ## Namespaces -/

theorem skipInline_moved (hi : w.first ≤ i) (hs : w.Seen i) :
    s'.skipInline (w.moved i) = w.moved (s.skipInline i) := by
  simp only [skipInline, h.is_moved hi hs, ← Window.moved_succ hi, apply_ite w.moved]

theorem namespaceNames_moved (names : List String) (hi : w.first ≤ i)
    (hs : w.Seen (s.namespaceNames names i).2) :
    s'.namespaceNames names (w.moved i) =
      ((s.namespaceNames names i).1, w.moved (s.namespaceNames names i).2) := by
  fun_induction namespaceNames s names i with
  | case1 names i j hname hcolons ih =>
    have hij : i ≤ j := le_skipInline i
    have hle := le_namespaceNames (s := s) (names ++ [s.spelling j]) (j + 2)
    have hseen : w.Seen (j + 1) := w.seen_of_le hs (by omega)
    have hj : w.first ≤ j := Nat.le_trans hi hij
    have hskip : s'.skipInline (w.moved i) = w.moved j :=
      h.skipInline_moved hi (w.seen_of_le hseen (by omega))
    rw [namespaceNames.eq_def s', hskip]
    simp only [h.isIdentifier_moved hj (w.seen_of_le hseen (Nat.le_succ j)), hname, if_true,
      ← Window.moved_add hj, h.is_moved (Nat.le_succ_of_le hj) hseen, hcolons,
      h.spelling hj (w.seen_of_le hseen (Nat.le_succ j))]
    exact ih (Nat.le_add_right_of_le hj) hs
  | case2 names i j hname hcolons =>
    have hij : i ≤ j := le_skipInline i
    have hj : w.first ≤ j := Nat.le_trans hi hij
    have hseen : w.Seen (j + 1) := hs
    have hskip : s'.skipInline (w.moved i) = w.moved j :=
      h.skipInline_moved hi (w.seen_of_le hseen (by omega))
    rw [namespaceNames.eq_def s', hskip]
    simp only [h.isIdentifier_moved hj (w.seen_of_le hseen (Nat.le_succ j)), hname, if_true,
      ← Window.moved_add hj, h.is_moved (Nat.le_succ_of_le hj) hseen,
      h.spelling hj (w.seen_of_le hseen (Nat.le_succ j))]
    rw [if_neg hcolons]
  | case3 names i j hname =>
    have hij : i ≤ j := le_skipInline i
    have hj : w.first ≤ j := Nat.le_trans hi hij
    have hskip : s'.skipInline (w.moved i) = w.moved j :=
      h.skipInline_moved hi (w.seen_of_le hs hij)
    rw [namespaceNames.eq_def s', hskip]
    simp only [h.isIdentifier_moved hj hs]
    rw [if_neg hname]

theorem namespaceHead_moved (hi : w.first ≤ i) (hs : w.Seen ((s.namespaceHead i).2 + 1)) :
    s'.namespaceHead (w.moved i) = ((s.namespaceHead i).1, w.moved (s.namespaceHead i).2) := by
  have hnames := le_namespaceNames (s := s) [] i
  have hskip := le_skipBrackets (s := s) (s.namespaceNames [] i).2
  simp only [namespaceHead] at hs ⊢
  rw [h.namespaceNames_moved [] hi (w.seen_of_le hs (Nat.le_succ_of_le hskip)),
    h.skipBrackets_moved (Nat.le_trans hi hnames) hs]

/-! ## Preprocessor lines -/

theorem lineEnd_moved (hlines : w.relaid = false) (hi : w.first ≤ i)
    (hs : w.Seen (s.lineEnd i + 1)) : s'.lineEnd (w.moved i) = w.moved (s.lineEnd i) := by
  have hmore {i : Nat} (hi : w.first ≤ i) (hs : w.Seen (i + 1)) :
      (decide (w.moved i + 1 < s'.size) && s'.lineContinues (w.moved i)) =
        (decide (i + 1 < s.size) && s.lineContinues i) := by
    rw [← Window.moved_succ hi, decide_eq_decide.2 (h.lt_iff (Nat.le_succ_of_le hi) hs),
      h.continues hlines hi hs]
  fun_induction lineEnd s i with
  | case1 i hline ih =>
    have hseen := w.seen_of_le hs (Nat.le_succ_of_le (le_lineEnd (s := s) (i + 1)))
    rw [lineEnd, hmore hi hseen, if_pos hline, ← Window.moved_succ hi]
    exact ih (Nat.le_succ_of_le hi) hs
  | case2 i hline => rw [lineEnd, hmore hi hs, if_neg hline]

theorem lastCode_moved {last : Nat} (hi : w.first ≤ i) (hlast : i ≤ last) (hs : w.Seen last) :
    s'.lastCode (w.moved i) (w.moved last) = w.moved (s.lastCode i last) := by
  have hcode (n : Nat) (hs : w.Seen (i + n)) :
      s'.lastCodeOf (w.moved i) n = w.moved (s.lastCodeOf i n) := by
    induction n with
    | zero => rfl
    | succ n ih =>
      rw [lastCodeOf, lastCodeOf, show w.moved i + n + 1 = w.moved (i + (n + 1)) from
        (Window.moved_add hi (n + 1)).symm, h.isComment_moved (Nat.le_add_right_of_le hi) hs,
        ih (w.seen_of_le hs (Nat.le_succ _)), apply_ite w.moved]
      rfl
  rw [lastCode, lastCode, Window.moved_sub (Nat.le_trans hi hlast) hi]
  exact hcode _ (w.seen_of_le hs (by omega))

/-! ## Macro calls -/

theorem isMacroCall_moved (hi : w.first ≤ i) (hs : w.Seen i) :
    s'.isMacroCall macros (w.moved i) = s.isMacroCall macros i := by
  simp only [isMacroCall, h.isIdentifier_moved hi hs, h.spelling hi hs]

theorem macroCallEnd_moved (hi : w.first ≤ i) (hs : w.Seen (s.macroCallEnd macros i + 1)) :
    s'.macroCallEnd macros (w.moved i) = w.moved (s.macroCallEnd macros i) := by
  have hseen := w.seen_of_le hs (Nat.succ_le_succ (s.le_macroCallEnd macros i))
  have hle := Nat.le_succ_of_le hi
  unfold macroCallEnd at hs ⊢
  rw [h.spelling hi (w.seen_of_le hseen (Nat.le_succ i)), ← Window.moved_succ hi,
    h.is_moved hle hseen]
  split
  · rename_i hcall
    rw [if_pos hcall] at hs
    simp only [Bool.and_eq_true] at hcall
    exact h.groupEnd_moved hle (lt_size_of_is hcall.2) hs
  · rfl

theorem standsAlone_moved (hlines : w.relaid = false) {last : Nat} (hi : w.first ≤ last)
    (hs : w.Seen (last + 1)) : s'.standsAlone (w.moved last) = s.standsAlone last := by
  have hle : w.first ≤ last + 1 := Nat.le_succ_of_le hi
  have hend : s'.size ≤ w.moved (last + 1) ↔ s.size ≤ last + 1 := by
    have := h.lt_iff hle hs
    omega
  simp only [standsAlone, ← Window.moved_succ hi, h.is_moved hle hs, hend,
    h.lines hlines hi (Nat.lt_succ_self last) hs]

/-! ## Announcements -/

/-- **A word announces what it announces in the first source.** -/
theorem announced_moved {start : Nat} (hstart : w.first ≤ start) (hi : start ≤ i)
    (hs : w.Seen (i + 1)) (hlinkage : s.kind? (i + 1) = some .literal → w.Seen (i + 2)) :
    s'.announced (w.moved start) (w.moved i) = (s.announced start i).map w.moved := by
  have hfirst := Nat.le_trans hstart hi
  have hle := Nat.le_succ_of_le hfirst
  have hseen := w.seen_of_le hs (Nat.le_succ i)
  have heq : (w.moved start == w.moved i) = (start == i) :=
    Bool.eq_iff_iff.2 (by rw [beq_iff_eq, beq_iff_eq, Window.moved_inj hstart hfirst])
  have hextern : (s'.kind? (w.moved i + 1) == some .literal && s'.is (w.moved i + 2) "\x7b") =
      (s.kind? (i + 1) == some .literal && s.is (i + 2) "\x7b") := by
    rw [← Window.moved_succ hfirst, h.kind hle hs]
    cases hkind : s.kind? (i + 1) == some .literal with
    | false => rfl
    | true =>
      rw [← Window.moved_add hfirst 2, h.is_moved (Nat.le_add_right_of_le hfirst)
        (hlinkage (beq_iff_eq.1 hkind))]
  have hnext (word : String) : s'.is (w.moved i + 1) word = s.is (i + 1) word := by
    rw [← Window.moved_succ hfirst, h.is_moved hle hs]
  unfold announced
  simp only [h.spelling hfirst hseen, h.spelling hstart (w.seen_of_le hseen hi), heq, hextern,
    hnext]
  generalize s.spelling i = word
  split
  all_goals try rfl
  all_goals split
  all_goals simp only [Announced.map, Window.moved_add hfirst]

end Agrees

end Source

end DocIndex
