import DocIndex.Proofs.Ahead.Source
import DocIndex.Proofs.Renumbered

/-!
# The shape of a declaration behind some lexemes

A declaration has the shape that it has alone, with the numbers moved (`shape_ahead`). Two steps of
reading it look back: a parenthesis asks whether the lexeme in front names a function, and a brace
behind member initialisers whether that lexeme is one of them. The first question comes to the last
lexeme ahead only at the beginning of the text, and is answered alike where that lexeme names
nothing (`Source.Nameless`); the second one is not asked there.

* `ShapeState.withStop` — where a declaration stops is known at its end only.
* `shapeStep_ahead` — one step; `shapeFrom_ahead` — all of them.
-/

namespace DocIndex

/-! ## States -/

/-- The same state, with another lexeme where the declaration is said to stop. -/
def ShapeState.withStop (st : ShapeState) (stop : Nat) : ShapeState :=
  { st with shape := { st.shape with stop } }

/-- The same step, with another lexeme where a declaration that goes on is said to stop. -/
def ShapeStep.withStop (stop : Nat) : ShapeStep → ShapeStep
  | .done d => .done d
  | .next i st => .next i (st.withStop stop)

namespace Source

variable {s : Source} {macros : Macros} {first i j stop : Nat} {st : ShapeState}

theorem nameAtParen_withStop :
    s.nameAtParen macros (st.withStop stop) i = (s.nameAtParen macros st i).withStop stop := by
  have hinside : s.nameInside (st.withStop stop) i = (s.nameInside st i).withStop stop := by
    unfold nameInside
    split
    · split <;> rfl
    · rfl
  unfold nameAtParen
  rw [show (st.withStop stop).operatorAt = st.operatorAt from rfl]
  cases st.operatorAt with
  | some op =>
    simp only [show s.closesCallOperator (st.withStop stop) i = s.closesCallOperator st i from rfl]
    split <;> rfl
  | none =>
    simp only [hinside]
    cases s.previous? i with
    | none => rfl
    | some p =>
      simp only
      split <;> rfl

theorem braceStep_withStop :
    s.braceStep (st.withStop stop) i = (s.braceStep st i).withStop stop := by
  unfold braceStep
  simp only [show (st.withStop stop).initialized = st.initialized from rfl,
    show (st.withStop stop).shape.isFunction = st.shape.isFunction from rfl,
    show (st.withStop stop).memberInits = st.memberInits from rfl]
  (repeat' split) <;> rfl

theorem plainStep_withStop :
    s.plainStep macros first (st.withStop stop) i =
      (s.plainStep macros first st i).withStop stop := by
  have hopen : (st.withStop stop).isOpen = st.isOpen := rfl
  unfold plainStep
  simp only [hopen]
  cases s.mark i with
  | openBrace => exact braceStep_withStop
  | openParen =>
    simp only [nameAtParen_withStop]
    split <;> rfl
  | equals =>
    simp only
    split
    · rfl
    · unfold ShapeState.beginInit
      simp only [show (st.withStop stop).shape.isFunction = st.shape.isFunction from rfl]
      split <;> rfl
  | colon =>
    simp only [show (st.withStop stop).shape.isFunction = st.shape.isFunction from rfl,
      show (st.withStop stop).initialized = st.initialized from rfl]
    split <;> rfl
  | semicolon | closeBrace | openBracket | staticWord => rfl
  | less | greater | shiftRight | comma | operatorWord | other =>
    simp only
    split <;> rfl

theorem shapeStep_withStop :
    s.shapeStep macros first (st.withStop stop) i =
      (s.shapeStep macros first st i).withStop stop := by
  unfold shapeStep
  simp only [show (st.withStop stop).angles = st.angles from rfl,
    show (st.withStop stop).initialized = st.initialized from rfl]
  split
  · rfl
  split
  · unfold angleStep
    split <;> rfl
  · exact plainStep_withStop

/-- What is read does not tell where the declaration was said to stop. -/
theorem shapeFrom_withStop :
    s.shapeFrom macros first (st.withStop stop) i = s.shapeFrom macros first st i := by
  fun_induction shapeFrom s macros first st i with
  | case1 st i hlt d hstep =>
    refine shapeFrom_done hlt ?_
    rw [shapeStep_withStop, hstep]
    rfl
  | case2 st i hlt j st' hstep ih =>
    rw [← ih]
    refine shapeFrom_next hlt ?_
    rw [shapeStep_withStop, hstep]
    rfl
  | case3 st i hlt =>
    rw [shapeFrom, dif_neg hlt]
    rfl

end Source

/-! ## Looking back -/

namespace Source

/-- Where nothing but comments stands in front of lexeme `i`, the last lexeme ahead names no
function. -/
def Nameless (k : Nat) (s s' : Source) (macros : Macros) (i : Nat) : Prop :=
  s.previous? i = none → s'.mayNameFunction macros (k - 1) = false

variable {k : Nat} {s s' : Source} {macros : Macros} {i j : Nat}

/-- Behind code something stands in front. -/
theorem previous?_ne_none (hcode : s.isComment i = false) (hij : i < j) : s.previous? j ≠ none := by
  induction j with
  | zero => exact absurd hij (Nat.not_lt_zero i)
  | succ j ih =>
    rw [previous?]
    rcases Nat.lt_or_eq_of_le (Nat.le_of_lt_succ hij) with hlt | rfl
    · split
      · exact ih hlt
      · exact Option.some_ne_none j
    · rw [hcode]
      exact Option.some_ne_none i

theorem previous?_ne_none_mono (hi : s.previous? i ≠ none) (hij : i ≤ j) :
    s.previous? j ≠ none := by
  induction hij with
  | refl => exact hi
  | step _ ih =>
    rw [previous?]
    split
    · exact ih
    · exact Option.some_ne_none _

theorem Nameless.mono (hn : Nameless k s s' macros i) (hij : i ≤ j) : Nameless k s s' macros j :=
  fun hnone => hn (Decidable.byContradiction fun hi => previous?_ne_none_mono hi hij hnone)

/-- Behind code it does not matter what stands ahead. -/
theorem Nameless.of_code (hcode : s.isComment i = false) (hij : i < j) :
    Nameless k s s' macros j :=
  fun hnone => absurd hnone (previous?_ne_none hcode hij)

/-- What may name a member that is initialised stands in the text. -/
def InitsBehind (s : Source) (st : ShapeState) (i : Nat) : Prop :=
  st.memberInits = true → s.previous? i ≠ none

/-! ## Steps -/

namespace Ahead

variable (h : s.Ahead k s') {first : Nat} {st : ShapeState}
include h

theorem mayNameFunction_ahead (i : Nat) :
    s'.mayNameFunction macros (k + i) = s.mayNameFunction macros i := by
  simp only [mayNameFunction, h.isIdentifier_ahead, h.spelling]

theorem follows_ahead (i : Nat) : s'.follows (k + i) "operator" = s.follows i "operator" := by
  rw [follows, follows, h.previous?_ahead]
  cases s.previous? i with
  | none => exact h.closed "operator" (by decide)
  | some p => exact h.is_ahead p "operator"

theorem opensMemberInit_ahead (hi : s.previous? i ≠ none) :
    s'.opensMemberInit (k + i) = s.opensMemberInit i := by
  rw [opensMemberInit, opensMemberInit, h.previous?_ahead]
  cases hp : s.previous? i with
  | none => exact absurd hp hi
  | some p => simp only [Option.elim_some, h.isIdentifier_ahead, h.is_ahead]

theorem skipGroup_ahead (st : ShapeState) (i : Nat) :
    s'.skipGroup (st.map (k + ·)) (k + i) = (s.skipGroup st i).map (k + ·) := by
  rw [skipGroup, skipGroup, h.groupEnd_ahead, h.groupNotes_ahead, ShapeState.map_note]
  rfl

theorem angleStep_ahead (st : ShapeState) (i : Nat) :
    s'.angleStep (st.map (k + ·)) (k + i) = (s.angleStep st i).map (k + ·) := by
  unfold angleStep
  rw [h.mark_ahead]
  cases s.mark i with
  | openParen | openBracket | openBrace => exact h.skipGroup_ahead st i
  | _ => rfl

theorem convertsAt_ahead (i : Nat) : s'.convertsAt (k + i) = s.convertsAt i := by
  simp only [convertsAt, Nat.add_assoc, h.kind, h.spelling]

theorem nameInside_ahead (st : ShapeState) (i : Nat) :
    s'.nameInside (st.map (k + ·)) (k + i) = (s.nameInside st i).map (k + ·) := by
  rw [nameInside, nameInside, h.groupEnd_ahead, Nat.add_assoc, h.spelling, h.declaredName?_ahead]
  split
  · cases s.declaredName? (i + 1) (s.groupEnd i) <;> rfl
  · rfl

theorem closesCallOperator_ahead (st : ShapeState) (i : Nat) :
    s'.closesCallOperator (st.map (k + ·)) (k + i) = s.closesCallOperator st i := by
  have heq (m n : Nat) : (k + m == k + n) = (m == n) :=
    Bool.eq_iff_iff.2 (by rw [beq_iff_eq, beq_iff_eq, Nat.add_left_cancel_iff])
  rw [closesCallOperator, closesCallOperator, ShapeState.operatorAt_map, h.groupEnd_ahead,
    Nat.add_assoc, h.is_ahead, heq]
  cases st.operatorAt with
  | none => rfl
  | some op => simp only [Option.map_some, Option.any_some, Nat.add_assoc, heq]

/-- **Parentheses make the same of a declaration.** -/
theorem nameAtParen_ahead (hname : Nameless k s s' macros i) (st : ShapeState) :
    s'.nameAtParen macros (st.map (k + ·)) (k + i) = (s.nameAtParen macros st i).map (k + ·) := by
  rw [nameAtParen, nameAtParen, h.closesCallOperator_ahead, ShapeState.operatorAt_map]
  cases st.operatorAt with
  | some op =>
    simp only [Option.map_some, h.join_ahead, h.convertsAt_ahead]
    split <;> rfl
  | none =>
    simp only [Option.map_none, h.previous?_ahead]
    cases hp : s.previous? i with
    | none =>
      simp only [Option.elim_none, hname hp, Bool.false_eq_true, if_false]
      exact h.nameInside_ahead st i
    | some p =>
      simp only [Option.elim_some, h.mayNameFunction_ahead]
      split
      · exact congrArg (ShapeState.nameFunction (st.map (k + ·)) (k + p)) (h.isDestructor_ahead p)
      · exact h.nameInside_ahead st i

theorem braceStep_ahead (hinits : s.InitsBehind st i) :
    s'.braceStep (st.map (k + ·)) (k + i) = (s.braceStep st i).map (k + ·) := by
  have hmember : ((st.map (k + ·)).memberInits && s'.opensMemberInit (k + i)) =
      (st.memberInits && s.opensMemberInit i) := by
    rw [ShapeState.memberInits_map]
    cases hm : st.memberInits with
    | false => rfl
    | true => rw [h.opensMemberInit_ahead (hinits hm)]
  rw [braceStep, braceStep, hmember, ShapeState.initialized_map, ShapeState.isFunction_map,
    ShapeState.map_nameLast, h.groupEnd_ahead, h.groupNotes_ahead, ShapeState.map_note]
  split
  · exact h.skipGroup_ahead st i
  split
  · exact h.skipGroup_ahead st.nameLast i
  split
  · exact h.skipGroup_ahead st i
  · rfl

theorem plainStep_ahead (hname : Nameless k s s' macros i) (hinits : s.InitsBehind st i) :
    s'.plainStep macros (k + first) (st.map (k + ·)) (k + i) =
      (s.plainStep macros first st i).map (k + ·) := by
  unfold plainStep
  simp only [h.mark_ahead, h.follows_ahead, h.isIdentifier_ahead, ShapeState.isOpen_map,
    ShapeState.isFunction_map, ShapeState.initialized_map, h.nameAtParen_ahead hname]
  cases s.mark i with
  | closeBrace =>
    have hlast : max (k + i - 1) (k + first) = k + max (i - 1) first := by
      have hpos := h.some_ahead
      omega
    have hnote := ShapeState.map_note (k + ·) st [⟨i, .noSemicolonAfterDeclaration⟩]
    simp only [List.map_cons, List.map_nil, Note.map] at hnote
    simp only [hlast, hnote]
    exact congrArg ShapeStep.done (ShapeState.map_finish (k + ·) _ (max (i - 1) first))
  | semicolon => exact congrArg ShapeStep.done (ShapeState.map_finish (k + ·) st i)
  | openBrace => exact h.braceStep_ahead hinits
  | openParen =>
    simp only [← apply_ite (ShapeState.map (k + ·))]
    exact h.skipGroup_ahead _ i
  | openBracket => exact h.skipGroup_ahead st i
  | staticWord => rfl
  | equals | colon | less | comma | operatorWord | greater | shiftRight | other =>
    simp only [ShapeState.map_beginInit, ShapeState.map_nameLast]
    split <;> rfl

theorem shapeStep_ahead (hname : Nameless k s s' macros i) (hinits : s.InitsBehind st i) :
    s'.shapeStep macros (k + first) (st.map (k + ·)) (k + i) =
      (s.shapeStep macros first st i).map (k + ·) := by
  unfold shapeStep
  rw [h.isComment_ahead, h.spelling, ShapeState.angles_map, ShapeState.initialized_map]
  split
  · rfl
  split
  · exact h.angleStep_ahead st i
  · exact h.plainStep_ahead hname hinits

omit h in
/-- A list of member initialisers begins behind code. -/
theorem initsBehind_shapeStep (hlt : i < s.size) (hinits : s.InitsBehind st i) {st' : ShapeState}
    (hstep : s.shapeStep macros first st i = .next j st') : s.InitsBehind st' j := by
  have hij := lt_of_shapeStep hlt hstep
  intro hm
  by_cases hcomment : s.isComment i = true
  · rw [shapeStep, if_pos hcomment] at hstep
    cases hstep
    exact previous?_ne_none_mono (hinits hm) (Nat.le_of_lt hij)
  · exact previous?_ne_none (Bool.eq_false_iff.2 hcomment) hij

/-- **A declaration has the shape that it has alone.** -/
theorem shapeFrom_ahead (hname : Nameless k s s' macros i) (hinits : s.InitsBehind st i) :
    s'.shapeFrom macros (k + first) (st.map (k + ·)) (k + i) =
      (s.shapeFrom macros first st i).map (k + ·) := by
  fun_induction shapeFrom s macros first st i with
  | case1 st i hlt d hstep =>
    refine shapeFrom_done (h.lt_size.2 hlt) ?_
    rw [h.shapeStep_ahead hname hinits, hstep]
    rfl
  | case2 st i hlt j st' hstep ih =>
    have hij := lt_of_shapeStep hlt hstep
    rw [← ih (hname.mono (Nat.le_of_lt hij)) (initsBehind_shapeStep hlt hinits hstep)]
    refine shapeFrom_next (h.lt_size.2 hlt) ?_
    rw [h.shapeStep_ahead hname hinits, hstep]
    rfl
  | case3 st i hlt =>
    have hnote := ShapeState.map_note (k + ·) st [⟨i, .noSemicolonAtEnd⟩]
    simp only [List.map_cons, List.map_nil, Note.map] at hnote
    rw [shapeFrom, dif_neg (mt h.lt_size.1 hlt), hnote, h.size_pred]
    exact ShapeState.map_finish (k + ·) _ (s.size - 1)

theorem shape_ahead (hname : Nameless k s s' macros i) :
    s'.shape macros (k + i) = (s.shape macros i).map (k + ·) := by
  -- no shape has been read yet: where it stops is not known
  have hempty : s'.shapeFrom macros (k + i) ((ShapeState.empty.map (k + ·)).withStop 0) (k + i) =
      s'.shapeFrom macros (k + i) (ShapeState.empty.map (k + ·)) (k + i) :=
    shapeFrom_withStop
  exact hempty.trans (h.shapeFrom_ahead hname fun hm => Bool.noConfusion hm)

end Ahead

end Source

end DocIndex
