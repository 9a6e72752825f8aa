import DocIndex.Proofs.Window.Groups

/-!
# The shape of a declaration within a window

A declaration that ends within the window has the same shape in both sources, with the numbers
moved: `shape_moved`. Its name stands in the window too, since what names a declaration is
looked for no further back than the window reaches (`within_shapeStep`).

* `ShapeState.Within` — what has been found so far stands in the window.
* `shapeStep_moved` — one step; `shapeFrom_moved` — all of them.
-/

namespace DocIndex

/-- The lexemes that have been found so far stand in the window, in front of lexeme `i`. -/
structure ShapeState.Within (w : Window) (i : Nat) (st : ShapeState) : Prop where
  name : ∀ n ∈ st.shape.name, w.first ≤ n ∧ n < i
  operatorAt : ∀ n ∈ st.operatorAt, w.first ≤ n ∧ n < i
  lastIdentifier : ∀ n ∈ st.lastIdentifier, w.first ≤ n ∧ n < i

/-- The lexeme behind what a step has looked at. -/
def ShapeStep.reach : ShapeStep → Nat
  | .done d => d.stop + 1
  | .next i _ => i

namespace ShapeState

variable {w : Window} {i j : Nat} {st : ShapeState}

theorem within_empty : ShapeState.empty.Within w i where
  name n hn := by cases hn
  operatorAt n hn := by cases hn
  lastIdentifier n hn := by cases hn

theorem map_moved_empty (w : Window) : ShapeState.empty.map w.moved = .empty := by
  simp [ShapeState.map, Shape.map, empty, Shape.empty, w.moved_zero]

namespace Within

variable (hst : st.Within w i)
include hst

theorem mono (hij : i ≤ j) : st.Within w j where
  name n hn := (hst.name n hn).imp_right (Nat.lt_of_lt_of_le · hij)
  operatorAt n hn := (hst.operatorAt n hn).imp_right (Nat.lt_of_lt_of_le · hij)
  lastIdentifier n hn := (hst.lastIdentifier n hn).imp_right (Nat.lt_of_lt_of_le · hij)

theorem nameLast : st.nameLast.Within w i := by
  refine ⟨fun n hn => ?_, hst.operatorAt, hst.lastIdentifier⟩
  cases hname : st.shape.name with
  | none =>
    rw [ShapeState.nameLast, hname] at hn
    exact hst.lastIdentifier n hn
  | some m =>
    rw [ShapeState.nameLast, hname] at hn
    exact hst.name n (hname ▸ hn)

theorem note (notes : List Note) : (st.note notes).Within w i :=
  ⟨hst.name, hst.operatorAt, hst.lastIdentifier⟩

theorem beginInit : st.beginInit.Within w i := by
  unfold ShapeState.beginInit
  split
  · exact ⟨hst.name, hst.operatorAt, hst.lastIdentifier⟩
  · exact ⟨hst.nameLast.name, hst.operatorAt, hst.lastIdentifier⟩

theorem withIdentifier {n : Nat} (hn : w.first ≤ n ∧ n < i) : (st.withIdentifier n).Within w i :=
  ⟨hst.name, hst.operatorAt, fun m hm => by cases hm; exact hn⟩

theorem withOperator {n : Nat} (hn : w.first ≤ n ∧ n < i) : (st.withOperator n).Within w i :=
  ⟨hst.name, fun m hm => by cases hm; exact hn, hst.lastIdentifier⟩

theorem nameFunction {n : Nat} (hn : w.first ≤ n ∧ n < i) (isDestructor : Bool) :
    (st.nameFunction n isDestructor).Within w i :=
  ⟨fun m hm => by cases hm; exact hn, hst.operatorAt, hst.lastIdentifier⟩

theorem nameOperator {n : Nat} (hn : w.first ≤ n ∧ n < i) (operator : String)
    (isConversion : Bool) : (st.nameOperator n operator isConversion).Within w i :=
  ⟨fun m hm => by cases hm; exact hn, hst.operatorAt, hst.lastIdentifier⟩

end Within

end ShapeState

namespace Source

theorem reach_braceStep {s : Source} {st : ShapeState} {i : Nat} :
    (s.braceStep st i).reach = s.groupEnd i + 1 := by
  unfold braceStep
  (repeat' split) <;> rfl

namespace Agrees

variable {w : Window} {s s' : Source} (h : s.Agrees w s') {macros : Macros} {st : ShapeState}
  {i : Nat}
include h

/-! ## What a step looks at -/

theorem mayNameFunction_moved (hi : w.first ≤ i) (hs : w.Seen i) :
    s'.mayNameFunction macros (w.moved i) = s.mayNameFunction macros i := by
  simp only [mayNameFunction, h.isIdentifier_moved hi hs, h.spelling hi hs]

theorem follows_moved (hi : w.Behind i) (hs : w.Seen i) (word : String) :
    s'.follows (w.moved i) word = s.follows i word := by
  obtain ⟨hprevious, hmem⟩ := h.previous?_moved hi hs
  rw [follows, follows, hprevious]
  cases hp : s.previous? i with
  | none => rfl
  | some p =>
    obtain ⟨hle, hlt⟩ := hmem p hp
    exact h.is_moved hle (w.seen_of_le hs (Nat.le_of_lt hlt)) word

theorem opensMemberInit_moved (hi : w.Behind i) (hs : w.Seen i) :
    s'.opensMemberInit (w.moved i) = s.opensMemberInit i := by
  obtain ⟨hprevious, hmem⟩ := h.previous?_moved hi hs
  rw [opensMemberInit, opensMemberInit, hprevious]
  cases hp : s.previous? i with
  | none => rfl
  | some p =>
    obtain ⟨hle, hlt⟩ := hmem p hp
    have hseen := w.seen_of_le hs (Nat.le_of_lt hlt)
    simp only [Option.map_some, h.isIdentifier_moved hle hseen, h.is_moved hle hseen]

theorem convertsAt_moved (hi : w.first ≤ i) (hs : w.Seen (i + 1)) :
    s'.convertsAt (w.moved i) = s.convertsAt i := by
  have hle := Nat.le_succ_of_le hi
  simp only [convertsAt, ← Window.moved_succ hi, h.kind hle hs, h.spelling hle hs]

theorem skipGroup_moved (st : ShapeState) (hi : w.first ≤ i) (hlt : i < s.size)
    (hs : w.Seen (s.groupEnd i + 1)) :
    s'.skipGroup (st.map w.moved) (w.moved i) = (s.skipGroup st i).map w.moved := by
  have hle := Nat.le_trans hi (le_groupEnd hlt)
  simp only [skipGroup, h.groupEnd_moved hi hlt hs, h.groupNotes_moved hi hlt hs,
    ShapeState.map_note, ShapeStep.map, Window.moved_succ hle]

theorem angleStep_moved (st : ShapeState) (hi : w.first ≤ i) (hlt : i < s.size)
    (hs : w.Seen (s.angleStep st i).reach) :
    s'.angleStep (st.map w.moved) (w.moved i) = (s.angleStep st i).map w.moved := by
  have hseen : w.Seen i := by
    have hle := le_groupEnd hlt
    unfold angleStep skipGroup at hs
    split at hs <;> exact w.seen_of_le hs (by simp only [ShapeStep.reach]; omega)
  unfold angleStep at hs ⊢
  rw [h.mark_moved hi hseen]
  cases hm : s.mark i <;> simp only [hm] at hs <;>
    first
      | exact h.skipGroup_moved st hi hlt hs
      | simp only [ShapeStep.map, Window.moved_succ hi, ShapeState.angles_map,
          ShapeState.map_withAngles]

theorem nameInside_moved (st : ShapeState) (hi : w.first ≤ i) (hlt : i < s.size)
    (hs : w.Seen (s.groupEnd i + 1)) :
    s'.nameInside (st.map w.moved) (w.moved i) = (s.nameInside st i).map w.moved := by
  have hle := le_groupEnd hlt
  have hnext := Nat.le_succ_of_le hi
  rw [nameInside, nameInside, ← Window.moved_succ hi, h.spelling hnext (w.seen_of_le hs (by omega)),
    h.groupEnd_moved hi hlt hs,
    h.declaredName?_moved hnext (Nat.le_trans hi hle) (w.seen_of_le hs (by omega))]
  split
  · cases s.declaredName? (i + 1) (s.groupEnd i) <;> rfl
  · rfl

theorem isDestructor_moved (hi : w.Behind i) (hs : w.Seen i) :
    (decide (0 < w.moved i) && s'.is (w.moved i - 1) "~") =
      (decide (0 < i) && s.is (i - 1) "~") := by
  have hpos : decide (0 < w.moved i) = decide (0 < i) := decide_eq_decide.2 (Window.moved_pos hi)
  rw [hpos, ← Window.moved_pred hi, h.is_moved hi.le_pred (w.seen_of_le hs (Nat.sub_le i 1))]

theorem closesCallOperator_moved (hst : st.Within w i) (hi : w.first ≤ i) (hlt : i < s.size)
    (hs : w.Seen (s.groupEnd i + 1)) :
    s'.closesCallOperator (st.map w.moved) (w.moved i) = s.closesCallOperator st i := by
  have hle := le_groupEnd hlt
  have hend := Nat.le_trans hi hle
  have heq {m n : Nat} (hm : w.first ≤ m) (hn : w.first ≤ n) :
      (w.moved m == w.moved n) = (m == n) :=
    Bool.eq_iff_iff.2 (by rw [beq_iff_eq, beq_iff_eq, Window.moved_inj hm hn])
  rw [closesCallOperator, closesCallOperator, ShapeState.operatorAt_map, h.groupEnd_moved hi hlt hs,
    ← Window.moved_succ hi, h.is_moved (Nat.le_succ_of_le hi) (w.seen_of_le hs (by omega)),
    heq hend (Nat.le_succ_of_le hi)]
  cases ho : st.operatorAt with
  | none => rfl
  | some op =>
    obtain ⟨hop, -⟩ := hst.operatorAt op ho
    simp only [Option.map_some, Option.any_some, ← Window.moved_succ hop,
      heq (Nat.le_succ_of_le hop) hi]

theorem nameAtParen_moved (hst : st.Within w i) (hi : w.Behind i) (hlt : i < s.size)
    (hs : w.Seen (s.groupEnd i + 1)) :
    s'.nameAtParen macros (st.map w.moved) (w.moved i) =
      (s.nameAtParen macros st i).map w.moved := by
  have hle := le_groupEnd hlt
  have hseen : w.Seen i := w.seen_of_le hs (Nat.le_succ_of_le hle)
  rw [nameAtParen, nameAtParen, h.closesCallOperator_moved hst hi.le hlt hs,
    ShapeState.operatorAt_map]
  cases ho : st.operatorAt with
  | some op =>
    obtain ⟨hop, hlt⟩ := hst.operatorAt op ho
    simp only [Option.map_some, h.join_moved hop hi.le (w.seen_of_le hs (by omega)),
      h.convertsAt_moved hop (w.seen_of_le hs (by omega)), ShapeState.map_nameOperator]
    split <;> rfl
  | none =>
    obtain ⟨hprevious, hmem⟩ := h.previous?_moved hi hseen
    simp only [Option.map_none, hprevious]
    cases hp : s.previous? i with
    | none => exact h.nameInside_moved st hi.le hlt hs
    | some p =>
      obtain ⟨hfirst, hpi⟩ := hmem p hp
      have hseen := w.seen_of_le hseen (Nat.le_of_lt hpi)
      simp only [Option.map_some, h.mayNameFunction_moved hfirst hseen]
      split
      · rename_i hname
        -- an identifier does not begin the window, so what stands in front of it is compared
        simp only [mayNameFunction, Bool.and_eq_true, isIdentifier, beq_iff_eq] at hname
        have hbehind := h.behind_of_kind hfirst hname.1.1 (by decide)
        rw [h.isDestructor_moved hbehind hseen, ShapeState.map_nameFunction]
      · exact h.nameInside_moved st hi.le hlt hs

theorem braceStep_moved (st : ShapeState) (hi : w.Behind i) (hlt : i < s.size)
    (hs : w.Seen (s.groupEnd i + 1)) :
    s'.braceStep (st.map w.moved) (w.moved i) = (s.braceStep st i).map w.moved := by
  have hseen : w.Seen i := w.seen_of_le hs (Nat.le_succ_of_le (le_groupEnd hlt))
  rw [braceStep, braceStep]
  simp only [ShapeState.initialized_map, ShapeState.isFunction_map, ShapeState.map_nameLast,
    ShapeState.memberInits_map, h.opensMemberInit_moved hi hseen,
    h.groupNotes_moved hi.le hlt hs, h.groupEnd_moved hi.le hlt hs, ShapeState.map_note,
    ShapeState.map_finishBody]
  split
  · exact h.skipGroup_moved st hi.le hlt hs
  split
  · exact h.skipGroup_moved st.nameLast hi.le hlt hs
  split
  · exact h.skipGroup_moved st hi.le hlt hs
  · rfl

/-! ## Steps -/

omit h in
/-- What a step has looked at is seen, so its lexeme is. -/
theorem seen_of_plainStep {first : Nat} (hlt : i < s.size)
    (hs : w.Seen (s.plainStep macros first st i).reach) : w.Seen i := by
  have hle := le_groupEnd hlt
  unfold plainStep braceStep skipGroup at hs
  (repeat' split at hs) <;>
    exact w.seen_of_le hs (by simp only [ShapeStep.reach, ShapeState.finish,
      ShapeState.finishBody]; omega)

theorem plainStep_moved {first : Nat} (hst : st.Within w i) (hi : w.Behind i) (hlt : i < s.size)
    (hfirst : w.first ≤ first) (hs : w.Seen (s.plainStep macros first st i).reach) :
    s'.plainStep macros (w.moved first) (st.map w.moved) (w.moved i) =
      (s.plainStep macros first st i).map w.moved := by
  have hseen := seen_of_plainStep hlt hs
  unfold plainStep at hs ⊢
  rw [h.mark_moved hi.le hseen]
  cases hm : s.mark i <;>
    simp only [hm, ShapeState.isOpen_map, ShapeState.isFunction_map, ShapeState.map_nameLast,
      ShapeState.initialized_map, h.follows_moved hi hseen, h.isIdentifier_moved hi.le hseen,
      ShapeState.map_finish, ShapeState.map_beginInit, ShapeState.map_beginMemberInits,
      ShapeState.map_withAngles, ShapeState.map_withOperator, ShapeState.map_withIdentifier,
      ShapeState.map_markStatic, ← apply_ite (ShapeState.map w.moved), ← Window.moved_succ hi.le,
      ← Window.moved_pred hi] at hs ⊢
  case semicolon => rfl
  case closeBrace =>
    have hnote := ShapeState.map_note w.moved st [⟨i, .noSemicolonAfterDeclaration⟩]
    simp only [List.map_cons, List.map_nil, Note.map] at hnote
    rw [hnote, ← Window.moved_max hi.le_pred hfirst, ShapeState.map_finish]
    rfl
  case openBrace =>
    rw [reach_braceStep] at hs
    exact h.braceStep_moved st hi hlt hs
  case openParen =>
    rw [h.nameAtParen_moved hst hi hlt hs, ← apply_ite (ShapeState.map w.moved)]
    exact h.skipGroup_moved _ hi.le hlt hs
  case openBracket => exact h.skipGroup_moved st hi.le hlt hs
  all_goals rfl

theorem shapeStep_moved {first : Nat} (hst : st.Within w i) (hi : w.Behind i) (hlt : i < s.size)
    (hfirst : w.first ≤ first) (hs : w.Seen (s.shapeStep macros first st i).reach) :
    s'.shapeStep macros (w.moved first) (st.map w.moved) (w.moved i) =
      (s.shapeStep macros first st i).map w.moved := by
  have hseen : w.Seen i := by
    have hle := le_groupEnd hlt
    unfold shapeStep at hs
    split at hs
    · exact w.seen_of_le hs (Nat.le_succ i)
    split at hs
    · unfold angleStep skipGroup at hs
      split at hs <;> exact w.seen_of_le hs (by simp only [ShapeStep.reach]; omega)
    · exact seen_of_plainStep hlt hs
  unfold shapeStep at hs ⊢
  rw [h.isComment_moved hi.le hseen, h.spelling hi.le hseen, ShapeState.angles_map,
    ShapeState.initialized_map]
  split
  · simp only [ShapeStep.map, Window.moved_succ hi.le]
  rename_i hcomment
  rw [if_neg hcomment] at hs
  split
  · rename_i hangle
    rw [if_pos hangle] at hs
    exact h.angleStep_moved st hi.le hlt hs
  · rename_i hangle
    rw [if_neg hangle] at hs
    exact h.plainStep_moved hst hi hlt hfirst hs

end Agrees

end Source

/-- What a step has found stands in the window, in front of where it goes on. -/
def ShapeStep.Within (w : Window) : ShapeStep → Prop
  | .done d => ∀ n ∈ d.name, w.first ≤ n ∧ n < d.stop + 1
  | .next i st => st.Within w i

namespace ShapeState

variable {w : Window} {i stop : Nat} {st : ShapeState}

theorem Within.finish (hst : st.Within w i) (hi : i ≤ stop + 1) :
    (ShapeStep.done (st.finish stop)).Within w := fun n hn =>
  (hst.nameLast.name n hn).imp_right (Nat.lt_of_lt_of_le · hi)

theorem Within.finishBody (hst : st.Within w i) (hi : i ≤ stop + 1) :
    (ShapeStep.done (st.finishBody stop)).Within w := fun n hn =>
  (hst.name n hn).imp_right (Nat.lt_of_lt_of_le · hi)

end ShapeState

namespace Source

namespace Agrees

variable {w : Window} {s s' : Source} (h : s.Agrees w s') {macros : Macros} {st : ShapeState}
  {i : Nat}
include h

/-! ## What a step finds -/

omit h in
theorem within_skipGroup (hst : st.Within w i) (hlt : i < s.size) : (s.skipGroup st i).Within w :=
  (hst.mono (Nat.le_succ_of_le (le_groupEnd hlt))).note _

omit h in
theorem within_nameInside (hst : st.Within w i) (hi : w.first ≤ i) (hlt : i < s.size) :
    (s.nameInside st i).Within w (s.groupEnd i + 1) := by
  have hle := le_groupEnd hlt
  have hst := hst.mono (Nat.le_succ_of_le hle)
  unfold nameInside
  split
  · split
    · rename_i n hn
      obtain ⟨hfirst, hend, -⟩ := mem_declaredName? hn
      exact hst.withIdentifier ⟨by omega, by omega⟩
    · exact hst
  · exact hst

theorem within_nameAtParen (hst : st.Within w i) (hi : w.Behind i) (hlt : i < s.size)
    (hs : w.Seen i) : (s.nameAtParen macros st i).Within w (s.groupEnd i + 1) := by
  have hle := le_groupEnd hlt
  have hst' := hst.mono (Nat.le_succ_of_le hle)
  unfold nameAtParen
  split
  · rename_i op ho
    obtain ⟨hfirst, hop⟩ := hst'.operatorAt op ho
    split
    · exact hst'
    · exact hst'.nameOperator ⟨hfirst, hop⟩ _ _
  · split
    · rename_i p hp
      obtain ⟨hfirst, hpi⟩ := (h.previous?_moved hi hs).2 p hp
      split
      · exact hst'.nameFunction ⟨hfirst, by omega⟩ _
      · exact within_nameInside hst hi.le hlt
    · exact within_nameInside hst hi.le hlt

omit h in
theorem within_braceStep (hst : st.Within w i) (hlt : i < s.size) :
    (s.braceStep st i).Within w := by
  unfold braceStep
  split
  · exact within_skipGroup hst hlt
  split
  · exact within_skipGroup hst.nameLast hlt
  split
  · exact within_skipGroup hst hlt
  · exact (hst.note _).finishBody (Nat.le_succ_of_le (le_groupEnd hlt))

theorem within_shapeStep {first : Nat} (hst : st.Within w i) (hi : w.Behind i) (hlt : i < s.size)
    (hs : w.Seen i) : (s.shapeStep macros first st i).Within w := by
  have hnext := hst.mono (Nat.le_succ i)
  have hself : w.first ≤ i ∧ i < i + 1 := ⟨hi.le, Nat.lt_succ_self i⟩
  unfold shapeStep
  split
  · exact hnext
  split
  · unfold angleStep
    split
    · exact ⟨hnext.name, hnext.operatorAt, hnext.lastIdentifier⟩
    · exact ⟨hnext.name, hnext.operatorAt, hnext.lastIdentifier⟩
    · exact ⟨hnext.name, hnext.operatorAt, hnext.lastIdentifier⟩
    all_goals first | exact within_skipGroup hst hlt | exact hnext
  unfold plainStep
  cases hm : s.mark i <;> simp only
  case semicolon => exact hst.finish (Nat.le_succ i)
  case closeBrace => exact (hst.note _).finish (by omega)
  case openBrace => exact within_braceStep hst hlt
  case openParen =>
    split
    · exact (h.within_nameAtParen hst hi hlt hs).note _
    · exact within_skipGroup hst hlt
  case openBracket => exact within_skipGroup hst hlt
  case equals =>
    split
    · exact hnext
    · exact hnext.beginInit
  case staticWord => exact ⟨hnext.name, hnext.operatorAt, hnext.lastIdentifier⟩
  case comma =>
    split
    · exact hnext.nameLast
    · exact hnext
  case operatorWord =>
    split
    · exact hnext.withOperator hself
    · exact hnext
  case greater | shiftRight | other =>
    split
    · exact hnext.withIdentifier hself
    · exact hnext
  all_goals
    split
    · exact ⟨hnext.name, hnext.operatorAt, hnext.lastIdentifier⟩
    · exact hnext

end Agrees

/-! ## Whole declarations -/

/-- A step goes on within the text. -/
theorem reach_shapeStep_le {s : Source} {macros : Macros} {first i j : Nat} {st st' : ShapeState}
    (hlt : i < s.size) (hstep : s.shapeStep macros first st i = .next j st') : j ≤ s.size := by
  have hend := groupEnd_lt hlt
  unfold shapeStep angleStep plainStep braceStep skipGroup at hstep
  (repeat' split at hstep) <;> cases hstep <;> omega

/-- A declaration reaches to where its reading has come. -/
theorem le_succ_stop_shapeFrom {s : Source} {macros : Macros} {first i : Nat} {st : ShapeState}
    (hfirst : first ≤ i) (hi : i ≤ s.size) : i ≤ (s.shapeFrom macros first st i).stop + 1 := by
  fun_induction shapeFrom s macros first st i with
  | case1 st i hlt d hstep =>
    have hend := le_groupEnd hlt
    unfold shapeStep angleStep plainStep braceStep skipGroup at hstep
    (repeat' split at hstep) <;> cases hstep <;>
      simp only [ShapeState.finish, ShapeState.finishBody] <;> omega
  | case2 st i hlt j st' hstep ih =>
    have hij := lt_of_shapeStep hlt hstep
    have hle := ih (by omega) (reach_shapeStep_le hlt hstep)
    omega
  | case3 st i hlt =>
    simp only [ShapeState.finish]
    omega

namespace Agrees

variable {w : Window} {s s' : Source} (h : s.Agrees w s') {macros : Macros} {st : ShapeState}
  {i : Nat}
include h

/-- **A declaration has the shape that it has in the first source**, and its name stands in the
window. -/
theorem shapeFrom_moved {first : Nat} (hst : st.Within w i) (hi : w.Behind i)
    (hfirst : w.first ≤ first) (hle : first ≤ i) (hin : i ≤ s.size)
    (hs : w.Seen ((s.shapeFrom macros first st i).stop + 1)) :
    s'.shapeFrom macros (w.moved first) (st.map w.moved) (w.moved i) =
        (s.shapeFrom macros first st i).map w.moved ∧
      ∀ n ∈ (s.shapeFrom macros first st i).name,
        w.first ≤ n ∧ n < (s.shapeFrom macros first st i).stop + 1 := by
  fun_induction shapeFrom s macros first st i with
  | case1 st i hlt d hstep =>
    have hseen : w.Seen (s.shapeStep macros first st i).reach := by rwa [hstep]
    have hseen' : w.Seen i := by
      refine w.seen_of_le hs ?_
      rw [← shapeFrom_done hlt hstep]
      exact le_succ_stop_shapeFrom hle (Nat.le_of_lt hlt)
    have hmoved := h.shapeStep_moved hst hi hlt hfirst hseen
    have hwithin : (s.shapeStep macros first st i).Within w := h.within_shapeStep hst hi hlt hseen'
    rw [hstep] at hmoved hwithin
    exact ⟨shapeFrom_done ((h.lt_iff hi.le hseen').2 hlt) hmoved, hwithin⟩
  | case2 st i hlt j st' hstep ih =>
    have hij := lt_of_shapeStep hlt hstep
    have hj : w.Seen j := w.seen_of_le hs
      (le_succ_stop_shapeFrom (by omega) (reach_shapeStep_le hlt hstep))
    have hseen : w.Seen i := w.seen_of_le hj (Nat.le_of_lt hij)
    have hmoved := h.shapeStep_moved hst hi hlt hfirst
      (by rw [hstep]; exact hj)
    have hwithin : (s.shapeStep macros first st i).Within w := h.within_shapeStep hst hi hlt hseen
    rw [hstep] at hmoved hwithin
    rw [shapeFrom_next ((h.lt_iff hi.le hseen).2 hlt) hmoved]
    exact ih hwithin (hi.mono (Nat.le_of_lt hij)) (by omega) (reach_shapeStep_le hlt hstep) hs
  | case3 st i hlt =>
    have hsize : w.Seen s.size := w.seen_of_le hs (by simp only [ShapeState.finish]; omega)
    have hend : ¬ w.moved i < s'.size := by
      rw [h.lt_size hi.le (w.seen_of_le hsize (Nat.min_le_right ..))]
      exact hlt
    have hnote := ShapeState.map_note w.moved st [⟨i, .noSemicolonAtEnd⟩]
    simp only [List.map_cons, List.map_nil, Note.map] at hnote
    rw [shapeFrom, dif_neg hend, hnote, h.size_pred hsize, ShapeState.map_finish]
    exact ⟨rfl, (hst.note _).finish (by omega)⟩

theorem shape_moved (hi : w.Behind i) (hin : i ≤ s.size)
    (hs : w.Seen ((s.shape macros i).stop + 1)) :
    s'.shape macros (w.moved i) = (s.shape macros i).map w.moved ∧
      ∀ n ∈ (s.shape macros i).name, w.first ≤ n ∧ n < (s.shape macros i).stop + 1 := by
  have hshape := h.shapeFrom_moved ShapeState.within_empty hi hi.le (Nat.le_refl i) hin hs
  rwa [ShapeState.map_moved_empty] at hshape

/-- A declaration that begins in the window ends there. -/
theorem first_le_stop_shape (hi : w.first ≤ i) :
    w.first ≤ (s.shape macros i).stop := by
  rcases h.behind_size with hsize | hzero
  · exact le_stop_shape macros hsize hi
  · omega

end Agrees

end Source

end DocIndex
