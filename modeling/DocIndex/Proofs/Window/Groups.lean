import DocIndex.Proofs.Layout.Reading
import DocIndex.Proofs.Window.Source

/-!
# Groups and statements within a window

What searches for a closing bracket, the end of a statement or a name finds the same in both
sources, if it is found within the window. How far a search has looked is told by what it finds; so
each lemma asks that the lexeme behind what is found be seen.

* `groupEnd_moved`, `angleEnd_moved`, `statementEnd_moved` — where groups and statements end.
* `declaredName?_moved` — what is named there.
* `qualifierReach` — how far back the scopes of a name are looked for; `qualifierOf_moved`.
-/

namespace DocIndex

namespace Source

variable {s : Source}

/-! ## How far searches look -/

theorem le_succ_closeFrom {opening closing : String} {depth i : Nat} (hi : i ≤ s.size) :
    i ≤ (s.closeFrom opening closing depth i).getD (s.size - 1) + 1 := by
  cases hclose : s.closeFrom opening closing depth i with
  | none =>
    rw [Option.getD_none]
    omega
  | some k => exact Nat.le_succ_of_le (le_of_closeFrom hclose).1

theorem le_succ_angleEndFrom {depth i : Nat} {brackets : Int} (hi : i ≤ s.size) :
    i ≤ s.angleEndFrom depth brackets i + 1 := by
  cases i with
  | zero => exact Nat.zero_le _
  | succ i => exact Nat.succ_le_succ (le_angleEndFrom hi (Nat.lt_succ_self i))

theorem le_succ_statementEnd {i : Nat} (hi : i ≤ s.size) : i ≤ (s.statementEnd i).index + 1 := by
  have hle := min_le_statementEnd s i
  omega

/-- Only identifiers among the lexemes that are read come to be names of a declarator. -/
theorem forall_declaredNames {P : Nat → Prop} (depth : Int) {outside inside : Option Nat} {i n : Nat}
    (hread : ∀ m, i ≤ m → m < i + n → s.isIdentifier m = true → P m) (hout : ∀ m ∈ outside, P m)
    (hin : ∀ m ∈ inside, P m) :
    (∀ m ∈ (s.declaredNames depth outside inside i n).1, P m) ∧
      ∀ m ∈ (s.declaredNames depth outside inside i n).2, P m := by
  induction n generalizing depth outside inside i with
  | zero => exact ⟨hout, hin⟩
  | succ n ih =>
    have hrest : ∀ m, i + 1 ≤ m → m < i + 1 + n → s.isIdentifier m = true → P m :=
      fun m hle hlt => hread m (by omega) (by omega)
    rw [declaredNames]
    split
    · exact ih _ hrest hout hin
    split
    · exact ⟨hout, hin⟩
    split
    · rename_i hi
      have hself : ∀ m ∈ some i, P m := fun m hm => by
        cases hm
        exact hread i (Nat.le_refl i) (by omega) hi
      split
      · exact ih _ hrest hself hin
      · refine ih _ hrest hout (fun m hm => ?_)
        cases inside with
        | none => exact hself m hm
        | some p => exact hin m hm
    · exact ih _ hrest hout hin

/-- A declarator is named by an identifier among its lexemes. -/
theorem mem_declaredName? {first stop n : Nat} (hn : n ∈ s.declaredName? first stop) :
    first ≤ n ∧ n < stop ∧ s.isIdentifier n = true := by
  have hread : ∀ m, first ≤ m → m < first + (stop - first) → s.isIdentifier m = true →
      first ≤ m ∧ m < stop ∧ s.isIdentifier m = true :=
    fun m hle hlt hm => ⟨hle, by omega, hm⟩
  have hnone : ∀ m ∈ (none : Option Nat), first ≤ m ∧ m < stop ∧ s.isIdentifier m = true :=
    fun m hm => by cases hm
  obtain ⟨hout, hin⟩ := forall_declaredNames (s := s) 0 hread hnone hnone
  unfold declaredName? at hn
  simp only at hn
  cases hnames : (s.declaredNames 0 none none first (stop - first)).1 with
  | none =>
    rw [hnames] at hn
    exact hin n hn
  | some m =>
    rw [hnames] at hn hout
    exact hout n hn

namespace Agrees

variable {w : Window} {s s' : Source} (h : s.Agrees w s') {i : Nat}
include h

/-! ## Brackets -/

theorem openingAt_moved (hi : w.first ≤ i) (hs : w.Seen i) :
    s'.openingAt (w.moved i) = s.openingAt i := by
  simp only [openingAt, h.spelling hi hs]

theorem opensGroup_moved (hi : w.first ≤ i) (hs : w.Seen i) :
    s'.opensGroup (w.moved i) = s.opensGroup i := by
  simp only [opensGroup, h.is_moved hi hs]

theorem closeFrom_moved {opening closing : String} {depth : Nat} (hi : w.first ≤ i)
    (hs : w.Seen ((s.closeFrom opening closing depth i).getD (s.size - 1) + 1)) :
    s'.closeFrom opening closing depth (w.moved i) =
      (s.closeFrom opening closing depth i).map w.moved := by
  have hstep (depth : Nat) {i : Nat} (hi : w.first ≤ i) (hlt : i < s.size) (hs : w.Seen (i + 1)) :
      s'.closeFrom opening closing depth (w.moved i) =
        if s.spelling i = opening then s'.closeFrom opening closing (depth + 1) (w.moved (i + 1))
        else if s.spelling i = closing then
          if depth ≤ 1 then some (w.moved i)
          else s'.closeFrom opening closing (depth - 1) (w.moved (i + 1))
        else s'.closeFrom opening closing depth (w.moved (i + 1)) := by
    have hseen := w.seen_of_le hs (Nat.le_succ i)
    rw [closeFrom, if_pos ((h.lt_iff hi hseen).2 hlt), h.spelling hi hseen, Window.moved_succ hi]
  fun_induction closeFrom s opening closing depth i with
  | case1 depth i hlt hopen ih =>
    rw [hstep depth hi hlt (w.seen_of_le hs (le_succ_closeFrom hlt)), if_pos hopen]
    exact ih (Nat.le_succ_of_le hi) hs
  | case2 depth i hlt hopen hclose hdepth =>
    rw [hstep depth hi hlt hs, if_neg hopen, if_pos hclose, if_pos hdepth]
    rfl
  | case3 depth i hlt hopen hclose hdepth ih =>
    rw [hstep depth hi hlt (w.seen_of_le hs (le_succ_closeFrom hlt)), if_neg hopen, if_pos hclose,
      if_neg hdepth]
    exact ih (Nat.le_succ_of_le hi) hs
  | case4 depth i hlt hopen hclose ih =>
    rw [hstep depth hi hlt (w.seen_of_le hs (le_succ_closeFrom hlt)), if_neg hopen, if_neg hclose]
    exact ih (Nat.le_succ_of_le hi) hs
  | case5 depth i hlt =>
    rw [Option.getD_none] at hs
    rw [closeFrom, if_neg]
    · rfl
    · rw [h.lt_size hi (w.seen_of_le hs (by omega))]
      exact hlt

/-- **A group ends where it does in the first source.** -/
theorem close?_moved (hi : w.first ≤ i) (hlt : i < s.size) (hs : w.Seen (s.groupEnd i + 1)) :
    s'.close? (w.moved i) = (s.close? i).map w.moved := by
  have hseen := w.seen_of_le hs (Nat.le_succ_of_le (le_groupEnd hlt))
  rw [close?, close?, h.openingAt_moved hi hseen]
  exact h.closeFrom_moved hi hs

theorem groupEnd_moved (hi : w.first ≤ i) (hlt : i < s.size) (hs : w.Seen (s.groupEnd i + 1)) :
    s'.groupEnd (w.moved i) = w.moved (s.groupEnd i) := by
  have hclose := h.close?_moved hi hlt hs
  rw [groupEnd] at hs ⊢
  rw [groupEnd, hclose]
  cases hgroup : s.close? i with
  | none =>
    rw [hgroup, Option.getD_none] at hs
    exact h.size_pred (w.seen_of_le hs (by omega))
  | some k => rfl

theorem groupNotes_moved (hi : w.first ≤ i) (hlt : i < s.size) (hs : w.Seen (s.groupEnd i + 1)) :
    s'.groupNotes (w.moved i) = (s.groupNotes i).map (Note.map w.moved) := by
  have hseen := w.seen_of_le hs (Nat.le_succ_of_le (le_groupEnd hlt))
  rw [groupNotes, groupNotes, h.close?_moved hi hlt hs, h.openingAt_moved hi hseen]
  cases s.close? i <;> rfl

theorem depthAfter_moved (hi : w.first ≤ i) (hs : w.Seen i) (depth : Int) :
    s'.depthAfter (w.moved i) depth = s.depthAfter i depth := by
  simp only [depthAfter, h.spelling hi hs]

theorem angleDepthAfter_moved (hi : w.first ≤ i) (hs : w.Seen i) (depth : Nat) :
    s'.angleDepthAfter (w.moved i) depth = s.angleDepthAfter i depth := by
  simp only [angleDepthAfter, h.spelling hi hs]

/-! ## Template arguments -/

theorem angleEndFrom_moved {depth : Nat} {brackets : Int} (hi : w.Behind i)
    (hs : w.Seen (s.angleEndFrom depth brackets i + 1)) :
    s'.angleEndFrom depth brackets (w.moved i) = w.moved (s.angleEndFrom depth brackets i) := by
  have hstep (depth : Nat) (brackets : Int) {i : Nat} (hi : w.Behind i) (hlt : i < s.size)
      (hs : w.Seen i) :
      s'.angleEndFrom depth brackets (w.moved i) =
        if s.depthAfter i brackets ≠ brackets || brackets ≠ 0 then
          s'.angleEndFrom depth (s.depthAfter i brackets) (w.moved (i + 1))
        else if s.spelling i = ";" then w.moved (i - 1)
        else if s.angleDepthAfter i depth = 0 then w.moved i
        else s'.angleEndFrom (s.angleDepthAfter i depth) brackets (w.moved (i + 1)) := by
    rw [angleEndFrom, if_pos ((h.lt_iff hi.le hs).2 hlt), h.depthAfter_moved hi.le hs,
      h.spelling hi.le hs, h.angleDepthAfter_moved hi.le hs, Window.moved_succ hi.le,
      Window.moved_pred hi]
  fun_induction angleEndFrom s depth brackets i with
  | case1 depth brackets i hlt hbrackets ih =>
    have hseen := w.seen_of_le hs (Nat.le_of_succ_le (le_succ_angleEndFrom hlt))
    rw [hstep depth brackets hi hlt hseen, if_pos hbrackets]
    exact ih (hi.mono (Nat.le_succ i)) hs
  | case2 depth brackets i hlt hbrackets hsemi =>
    rw [hstep depth brackets hi hlt (w.seen_of_le hs (by omega)), if_neg hbrackets, if_pos hsemi]
  | case3 depth brackets i hlt hbrackets hsemi hclose =>
    rw [hstep depth brackets hi hlt (w.seen_of_le hs (Nat.le_succ i)), if_neg hbrackets,
      if_neg hsemi, if_pos hclose]
  | case4 depth brackets i hlt hbrackets hsemi hclose ih =>
    have hseen := w.seen_of_le hs (Nat.le_of_succ_le (le_succ_angleEndFrom hlt))
    rw [hstep depth brackets hi hlt hseen, if_neg hbrackets, if_neg hsemi, if_neg hclose]
    exact ih (hi.mono (Nat.le_succ i)) hs
  | case5 depth brackets i hlt =>
    have hsize : w.Seen s.size := w.seen_of_le hs (by omega)
    rw [angleEndFrom, if_neg, h.size_pred hsize]
    rw [h.lt_size hi.le (w.seen_of_le hsize (Nat.min_le_right ..))]
    exact hlt

theorem angleEnd_moved (hi : w.first ≤ i) (hs : w.Seen (s.angleEnd i + 1)) :
    s'.angleEnd (w.moved i) = w.moved (s.angleEnd i) := by
  rw [angleEnd, ← Window.moved_succ hi]
  exact h.angleEndFrom_moved (Window.behind_succ hi) hs

/-! ## Statements -/

/-- **A statement ends where it does in the first source.** -/
theorem statementEnd_moved (hi : w.Behind i) (hs : w.Seen ((s.statementEnd i).index + 1)) :
    (s'.statementEnd (w.moved i)).index = w.moved (s.statementEnd i).index := by
  fun_induction statementEnd s i with
  | case1 i hlt hsemi =>
    have hseen : w.Seen i := w.seen_of_le hs (Nat.le_succ i)
    rw [statementEnd, if_pos ((h.lt_iff hi.le hseen).2 hlt), h.spelling hi.le hseen, if_pos hsemi]
  | case2 i hlt hsemi hopen r ih =>
    have hend := groupEnd_lt hlt
    have hle := le_groupEnd hlt
    have hbehind : w.Seen (s.groupEnd i + 1) := w.seen_of_le hs (le_succ_statementEnd hend)
    have hseen : w.Seen i := w.seen_of_le hbehind (by omega)
    rw [statementEnd, if_pos ((h.lt_iff hi.le hseen).2 hlt), h.spelling hi.le hseen, if_neg hsemi,
      h.opensGroup_moved hi.le hseen, if_pos hopen, h.groupEnd_moved hi.le hlt hbehind,
      ← Window.moved_succ (Nat.le_trans hi.le hle)]
    exact ih (hi.mono (by omega)) hs
  | case3 i hlt hsemi hopen hclose =>
    have hseen : w.Seen i := w.seen_of_le hs (show i ≤ i - 1 + 1 by omega)
    rw [statementEnd, if_pos ((h.lt_iff hi.le hseen).2 hlt), h.spelling hi.le hseen, if_neg hsemi,
      h.opensGroup_moved hi.le hseen, if_neg hopen, if_pos hclose]
    exact (Window.moved_pred hi).symm
  | case4 i hlt hsemi hopen hclose ih =>
    have hseen : w.Seen i := w.seen_of_le hs (Nat.le_of_succ_le (le_succ_statementEnd hlt))
    rw [statementEnd, if_pos ((h.lt_iff hi.le hseen).2 hlt), h.spelling hi.le hseen, if_neg hsemi,
      h.opensGroup_moved hi.le hseen, if_neg hopen, if_neg hclose, ← Window.moved_succ hi.le]
    exact ih (hi.mono (Nat.le_succ i)) hs
  | case5 i hlt =>
    have hsize : w.Seen s.size := w.seen_of_le hs (show s.size ≤ s.size - 1 + 1 by omega)
    have hend : ¬ w.moved i < s'.size := by
      rw [h.lt_size hi.le (w.seen_of_le hsize (Nat.min_le_right ..))]
      exact hlt
    rw [statementEnd, if_neg hend]
    exact h.size_pred hsize

/-- A statement that begins in the window ends there. -/
theorem first_le_statementEnd (hi : w.Behind i) : w.first ≤ (s.statementEnd i).index := by
  rcases h.behind_size with hsize | hzero
  · rcases hi with hi | hzero
    · exact le_statementEnd hsize hi
    · omega
  · omega

/-! ## Names -/

theorem declaredNames_moved (depth : Int) (outside inside : Option Nat) {n : Nat}
    (hi : w.first ≤ i) (hs : w.Seen (i + n)) :
    s'.declaredNames depth (outside.map w.moved) (inside.map w.moved) (w.moved i) n =
      ((s.declaredNames depth outside inside i n).1.map w.moved,
        (s.declaredNames depth outside inside i n).2.map w.moved) := by
  induction n generalizing depth outside inside i with
  | zero => rfl
  | succ n ih =>
    have hseen : w.Seen i := w.seen_of_le hs (by omega)
    have hnext (depth : Int) (outside inside : Option Nat) :=
      ih depth outside inside (Nat.le_succ_of_le hi) (w.seen_of_le hs (by omega))
    simp only [Window.moved_succ hi] at hnext
    rw [declaredNames, declaredNames]
    simp only [h.depthAfter_moved hi hseen, h.spelling hi hseen, h.isIdentifier_moved hi hseen]
    split
    · exact hnext _ _ _
    split
    · rfl
    split
    · split
      · exact hnext _ (some i) _
      · have hinside : (inside.map w.moved <|> some (w.moved i)) =
            (inside <|> some i).map w.moved := by
          cases inside <;> rfl
        rw [hinside]
        exact hnext _ _ _
    · exact hnext _ _ _

/-- **A declarator names what it names in the first source.** -/
theorem declaredName?_moved {stop : Nat} (hi : w.first ≤ i) (hstop : w.first ≤ stop)
    (hs : w.Seen (max i stop)) :
    s'.declaredName? (w.moved i) (w.moved stop) = (s.declaredName? i stop).map w.moved := by
  have hnames := h.declaredNames_moved 0 none none (n := stop - i) hi (w.seen_of_le hs (by omega))
  simp only [Option.map_none] at hnames
  simp only [declaredName?, Window.moved_sub hstop hi, hnames]
  exact ShapeState.map_orElse ..

end Agrees

/-! ## Qualifiers -/

/-- The first lexeme that is looked at where the scopes are told that a name at `i` is qualified
by. -/
def qualifierReach (s : Source) (i : Nat) : Nat :=
  match h : s.qualifierPart? i with
  | some p => s.qualifierReach p
  | none =>
    if 2 ≤ i && s.is (i - 1) "::" then
      if s.is (i - 2) ">" then s.angleStart 0 (i - 2) - 1 else i - 2
    else i - 1
termination_by i
decreasing_by exact lt_of_qualifierPart? h

theorem qualifierReach_some {s : Source} {i p : Nat} (hp : s.qualifierPart? i = some p) :
    s.qualifierReach i = s.qualifierReach p := by
  rw [qualifierReach]
  split <;> simp_all

theorem qualifierReach_none {s : Source} {i : Nat} (hp : s.qualifierPart? i = none) :
    s.qualifierReach i =
      if 2 ≤ i && s.is (i - 1) "::" then
        if s.is (i - 2) ">" then s.angleStart 0 (i - 2) - 1 else i - 2
      else i - 1 := by
  rw [qualifierReach]
  split <;> simp_all

theorem qualifierReach_le (s : Source) (i : Nat) : s.qualifierReach i ≤ i := by
  fun_induction qualifierReach s i with
  | case1 i p h ih =>
    have := lt_of_qualifierPart? h
    omega
  | case2 i =>
    have := angleStart_le (s := s) 0 (i - 2)
    omega
  | case3 i => exact Nat.sub_le i 2
  | case4 i => exact Nat.sub_le i 1

/-- In front of a name something is looked at, if anything stands there. -/
theorem behind_of_qualifierReach {w : Window} {s : Source} {i : Nat}
    (hr : w.first ≤ s.qualifierReach i) : w.Behind i := by
  have hle := s.qualifierReach_le i
  by_cases hzero : w.first = 0
  · exact .inr hzero
  refine .inl ?_
  cases hp : s.qualifierPart? i with
  | none =>
    have hstart := angleStart_le (s := s) 0 (i - 2)
    rw [qualifierReach_none hp] at hr
    (repeat' split at hr) <;> omega
  | some p =>
    have hlt := lt_of_qualifierPart? hp
    have hle := s.qualifierReach_le p
    rw [qualifierReach_some hp] at hr
    omega

namespace Agrees

variable {w : Window} {s s' : Source} (h : s.Agrees w s') {i : Nat}
include h

theorem angleDepthBefore_moved (hi : w.first ≤ i) (hs : w.Seen i) (depth : Int) :
    s'.angleDepthBefore (w.moved i) depth = s.angleDepthBefore i depth := by
  simp only [angleDepthBefore, h.spelling hi hs]

theorem angleStart_moved {depth : Int} (hs : w.Seen i) (hb : w.Behind (s.angleStart depth i)) :
    s'.angleStart depth (w.moved i) = w.moved (s.angleStart depth i) := by
  induction i generalizing depth with
  | zero =>
    rw [w.moved_zero]
    exact w.moved_zero.symm
  | succ i ih =>
    have hi : w.Behind (i + 1) := hb.mono (angleStart_le depth (i + 1))
    have hpos := (Window.moved_pos hi).2 (Nat.succ_pos i)
    rw [angleStart_eq s depth (Nat.succ_pos i)] at hb ⊢
    rw [angleStart_eq s' depth hpos, h.angleDepthBefore_moved hi.le hs, ← Window.moved_pred hi]
    split
    · rfl
    · rename_i hdepth
      rw [if_neg hdepth] at hb
      exact ih (w.seen_of_le hs (Nat.le_succ i)) hb

omit h in
/-- Where a name is qualified, the window reaches back over the `::`, and over the template
arguments in front of it. -/
theorem first_le_of_qualifier (hr : w.first ≤ s.qualifierReach i)
    (hcolons : (decide (2 ≤ i) && s.is (i - 1) "::") = true) :
    w.first ≤ i - 2 ∧ (s.is (i - 2) ">" = true → w.Behind (s.angleStart 0 (i - 2))) := by
  have hstart := angleStart_le (s := s) 0 (i - 2)
  cases hp : s.qualifierPart? i with
  | none =>
    rw [qualifierReach_none hp, if_pos hcolons] at hr
    split at hr
    · exact ⟨by omega, fun _ => by unfold Window.Behind; omega⟩
    · rename_i hgreater
      exact ⟨hr, fun hg => absurd hg hgreater⟩
  | some p =>
    have hle := s.qualifierReach_le p
    rw [qualifierReach_some hp] at hr
    rw [qualifierPart?, if_pos hcolons] at hp
    split at hp
    · rename_i hgreater
      split at hp
      · cases hp
      · split at hp <;> cases hp
        exact ⟨by omega, fun _ => .inl (by omega)⟩
    · rename_i hgreater
      split at hp <;> cases hp
      exact ⟨by omega, fun hg => absurd hg hgreater⟩

theorem qualifierPart?_moved (hs : w.Seen i) (hr : w.first ≤ s.qualifierReach i) :
    s'.qualifierPart? (w.moved i) = (s.qualifierPart? i).map w.moved := by
  have hi := behind_of_qualifierReach hr
  have hcolons : (decide (2 ≤ w.moved i) && s'.is (w.moved i - 1) "::") =
      (decide (2 ≤ i) && s.is (i - 1) "::") := by
    rw [← Window.moved_pred hi, h.is_moved hi.le_pred (w.seen_of_le hs (Nat.sub_le i 1))]
    have htwo : 2 ≤ w.moved i ↔ 2 ≤ i := by
      have hzero := w.zero
      rw [Window.moved_eq hi.le]
      unfold Window.Behind at hi
      omega
    rw [decide_eq_decide.2 htwo]
  rw [qualifierPart?, qualifierPart?, hcolons]
  by_cases hq : (decide (2 ≤ i) && s.is (i - 1) "::") = true
  · obtain ⟨hle, hangle⟩ := first_le_of_qualifier hr hq
    simp only [Bool.and_eq_true, decide_eq_true_eq] at hq
    have hback : w.moved i - 2 = w.moved (i - 2) := by
      rw [Window.moved_eq hi.le, Window.moved_eq hle]
      omega
    have hseen : w.Seen (i - 2) := w.seen_of_le hs (Nat.sub_le i 2)
    rw [hback, h.is_moved hle hseen, h.isIdentifier_moved hle hseen]
    simp only [hq.1, hq.2, decide_true, Bool.and_self, if_true]
    split
    · rename_i hgreater
      have hb := hangle hgreater
      have hstart := angleStart_le (s := s) 0 (i - 2)
      have hfirst := w.seen_of_le hseen (Nat.le_trans (Nat.sub_le _ 1) hstart)
      have hzero : w.moved (s.angleStart 0 (i - 2)) = 0 ↔ s.angleStart 0 (i - 2) = 0 := by
        have := Window.moved_pos hb
        omega
      rw [h.angleStart_moved hseen hb, ← Window.moved_pred hb,
        h.isIdentifier_moved hb.le_pred hfirst]
      simp only [hzero]
      split
      · rfl
      · split <;> rfl
    · split <;> rfl
  · rw [if_neg hq, if_neg hq]
    rfl

/-- **A name is qualified by what it is qualified by in the first source**, if no more is looked
at. -/
theorem qualifierFrom_moved (names : List String) (hs : w.Seen i)
    (hr : w.first ≤ s.qualifierReach i) :
    s'.qualifierFrom names (w.moved i) = s.qualifierFrom names i := by
  induction i using Nat.strongRecOn generalizing names with
  | ind i ih =>
    rw [qualifierFrom_eq s', qualifierFrom_eq s, h.qualifierPart?_moved hs hr]
    cases hp : s.qualifierPart? i with
    | none => rfl
    | some p =>
      have hlt := lt_of_qualifierPart? hp
      have hseen := w.seen_of_le hs (Nat.le_of_lt hlt)
      rw [qualifierReach_some hp] at hr
      have hle := (behind_of_qualifierReach hr).le
      simp only [Option.map_some, h.spelling hle hseen]
      exact ih p hlt _ hseen hr

end Agrees

/-- Where a name begins: a `~` in front of it is part of it. -/
def nameStart (s : Source) (i : Nat) : Nat :=
  if 0 < i && s.is (i - 1) "~" then i - 1 else i

theorem nameStart_le (s : Source) (i : Nat) : s.nameStart i ≤ i := by
  unfold nameStart
  split <;> omega

theorem Agrees.qualifierOf_moved {w : Window} {s s' : Source} (h : s.Agrees w s') {i : Nat}
    (hs : w.Seen i) (hr : w.first ≤ s.qualifierReach (s.nameStart i)) :
    s'.qualifierOf (w.moved i) = s.qualifierOf i := by
  have hi : w.Behind i := (behind_of_qualifierReach hr).mono (s.nameStart_le i)
  have hstart : s'.nameStart (w.moved i) = w.moved (s.nameStart i) := by
    have hpos : decide (0 < w.moved i) = decide (0 < i) :=
      decide_eq_decide.2 (Window.moved_pos hi)
    rw [nameStart, nameStart, hpos, ← Window.moved_pred hi,
      h.is_moved hi.le_pred (w.seen_of_le hs (Nat.sub_le i 1))]
    split <;> rfl
  change s'.qualifierFrom [] (s'.nameStart (w.moved i)) = s.qualifierFrom [] (s.nameStart i)
  rw [hstart, h.qualifierFrom_moved [] (w.seen_of_le hs (s.nameStart_le i)) hr]

end Source

end DocIndex
