import DocIndex.Proofs.Commented.Groups

/-!
# The shape of a declaration with one comment more

The reading of a declaration that no keyword decides steps over comments. So one that stands inside
of it, or in front, or behind, does not show in its shape: `shape_past`.

* `shapeStep_past` — one step; `shapeFrom_past` — all of them.

In the name of an operator a comment does show, so there the declaration has to end in front of it.
-/

namespace DocIndex

theorem ShapeState.map_empty {k : Nat} (hk : 0 < k) : ShapeState.map (past k) .empty = .empty := by
  simp [ShapeState.map, Shape.map, empty, Shape.empty, past_of_lt hk]

/-- Two readings of a declaration do the same at one step, the second with one lexeme more in front
of lexeme `k`. -/
inductive ShapeStep.Abreast (k : Nat) : ShapeStep → ShapeStep → Prop
  | done (d : Shape) : Abreast k (.done d) (.done (d.map (past k)))
  | next {j j' : Nat} (st : ShapeState) (h : DocIndex.Abreast k j j') :
    Abreast k (.next j st) (.next j' (st.map (past k)))

theorem Source.spelling_of_openParen {s : Source} {i : Nat} (hm : s.mark i = .openParen) :
    s.spelling i = "(" := by
  unfold Source.mark Mark.of at hm
  split at hm <;> first | assumption | cases hm

theorem Source.spelling_of_operatorWord {s : Source} {i : Nat} (hm : s.mark i = .operatorWord) :
    s.spelling i = "operator" := by
  unfold Source.mark Mark.of at hm
  split at hm <;> first | assumption | cases hm

/-- The operator that a declaration is named by stands behind the gap in front of `k`, or the
parentheses at `i` end in front of it. -/
def Source.OperatorApart (s : Source) (k : Nat) (st : ShapeState) (i : Nat) : Prop :=
  ∀ op, st.operatorAt = some op → op < i ∧ (k ≤ op ∨ s.groupEnd i < k)

namespace Source.Commented

variable {s s' : Source} {k : Nat} (h : s.Commented s' k) {macros : Macros} {st : ShapeState}
  {i : Nat}
include h

/-! ## What a step looks at -/

theorem mayNameFunction_past (i : Nat) :
    s'.mayNameFunction macros (past k i) = s.mayNameFunction macros i := by
  simp only [mayNameFunction, h.isIdentifier_past, h.spelling]

theorem follows_past (i : Nat) (word : String) :
    s'.follows (past k i) word = s.follows i word := by
  rw [follows, follows, h.previous?_past]
  cases s.previous? i with
  | none => rfl
  | some p => exact h.is_past p word

theorem opensMemberInit_past (i : Nat) : s'.opensMemberInit (past k i) = s.opensMemberInit i := by
  rw [opensMemberInit, opensMemberInit, h.previous?_past]
  cases s.previous? i with
  | none => rfl
  | some p => simp only [Option.map_some, h.isIdentifier_past, h.is_past]

theorem convertsAt_past (hi : i + 1 ≠ k) : s'.convertsAt (past k i) = s.convertsAt i := by
  simp only [convertsAt, ← past_succ hi, h.kind, h.spelling]

theorem skipGroup_past (st : ShapeState) (i : Nat) :
    ShapeStep.Abreast k (s.skipGroup st i) (s'.skipGroup (st.map (past k)) (past k i)) := by
  simp only [skipGroup, h.groupEnd_past, h.groupNotes_past, ShapeState.map_note]
  exact .next _ (abreast_succ k _)

theorem angleStep_past (st : ShapeState) (i : Nat) :
    ShapeStep.Abreast k (s.angleStep st i) (s'.angleStep (st.map (past k)) (past k i)) := by
  rw [angleStep, angleStep, h.mark_past]
  cases s.mark i <;>
    first
      | exact h.skipGroup_past st i
      | exact .next _ (abreast_succ k i)

theorem nameInside_past (hl : s.Loose k) (hi : s.spelling i = "(") :
    s'.nameInside (st.map (past k)) (past k i) = (s.nameInside st i).map (past k) := by
  have hstar : ["*", "&", "&&", "^"].contains (s'.spelling (past k i + 1)) =
      ["*", "&", "&&", "^"].contains (s.spelling (i + 1)) := by
    by_cases hk : i + 1 = k
    · have hpointer := hl.pointer (by rw [← hk]; exact hi)
      rw [past_of_lt (by omega), hk, hpointer]
      simp (disch := decide) only [List.contains_cons, List.contains_nil, Bool.or_false,
        Bool.or_eq_false_iff, beq_eq_false_iff_ne, ne_eq, h.spelling_ne, not_false_eq_true,
        and_self]
    · rw [← past_succ hk, h.spelling]
  rw [nameInside, nameInside, hstar, h.groupEnd_past, h.declaredName?_past (abreast_succ k i)]
  split
  · cases s.declaredName? (i + 1) (s.groupEnd i) <;> rfl
  · rfl

theorem isDestructor_past (hl : s.Loose k) (i : Nat) :
    (decide (0 < past k i) && s'.is (past k i - 1) "~") = (decide (0 < i) && s.is (i - 1) "~") := by
  have hkpos := h.pos
  by_cases hk : i = k
  · have htilde : s.is (k - 1) "~" = false := by
      simp only [is, Bool.and_eq_false_iff, beq_eq_false_iff_ne]
      exact .inr hl.before.2.1
    rw [hk, htilde, past_of_le (Nat.le_refl k), Nat.add_sub_cancel, h.is_comment (by decide),
      Bool.and_false, Bool.and_false]
  by_cases hi : 0 < i
  · have := past_cases k i
    rw [past_pred hi hk, h.is_past, decide_eq_true hi, decide_eq_true (show 0 < past k i by omega)]
  · have hzero : past k i = 0 := by
      have := past_cases k i
      omega
    rw [hzero, decide_eq_false hi]
    rfl

theorem closesCallOperator_past (hi : i < s.size) (hop : s.OperatorApart k st i) :
    s'.closesCallOperator (st.map (past k)) (past k i) = s.closesCallOperator st i := by
  rw [closesCallOperator, closesCallOperator, ShapeState.operatorAt_map, h.groupEnd_past]
  cases ho : st.operatorAt with
  | none => rfl
  | some op =>
    obtain ⟨hlt, hapart⟩ := hop op ho
    have hle := le_groupEnd hi
    by_cases hk : i + 1 = k
    · -- the group is not closed behind the comment
      have hend : s.groupEnd i = i := by omega
      have hne : (i == k) = false := beq_eq_false_iff_ne.2 (by omega)
      rw [past_of_lt (show i < k by omega), hk, h.is_comment (by decide), hend, hne,
        past_of_lt (show i < k by omega), hne, Bool.and_false, Bool.and_false]
    · have hop : past k op + 1 = past k (op + 1) := (past_succ (by omega)).symm
      simp only [Option.map_some, Option.any_some, hop, ← past_succ hk, h.is_past]
      congr 1
      · congr 1
        exact Bool.eq_iff_iff.2 (by simp only [beq_iff_eq, past_inj])
      · exact Bool.eq_iff_iff.2 (by simp only [beq_iff_eq, past_inj])

theorem nameAtParen_past (hl : s.Loose k) (hlt : i < s.size) (hi : s.spelling i = "(")
    (hop : s.OperatorApart k st i) :
    s'.nameAtParen macros (st.map (past k)) (past k i) =
      (s.nameAtParen macros st i).map (past k) := by
  rw [nameAtParen, nameAtParen, h.closesCallOperator_past hlt hop, ShapeState.operatorAt_map]
  cases ho : st.operatorAt with
  | none =>
    simp only [Option.map_none, h.previous?_past]
    cases s.previous? i with
    | none => exact h.nameInside_past hl hi
    | some p =>
      simp only [Option.map_some, h.mayNameFunction_past, h.nameInside_past hl hi,
        h.isDestructor_past hl, ShapeState.map_nameFunction]
      split <;> rfl
  | some op =>
    obtain ⟨hop, hapart⟩ := hop op ho
    have hle := le_groupEnd hlt
    simp only [Option.map_some, h.join_past (show k ≤ op ∨ i < k by omega),
      h.convertsAt_past (show op + 1 ≠ k by omega), ShapeState.map_nameOperator]
    split <;> rfl

theorem braceStep_past (st : ShapeState) (i : Nat) :
    ShapeStep.Abreast k (s.braceStep st i) (s'.braceStep (st.map (past k)) (past k i)) := by
  rw [braceStep, braceStep]
  simp only [ShapeState.initialized_map, ShapeState.isFunction_map, ShapeState.map_nameLast,
    ShapeState.memberInits_map, h.opensMemberInit_past, h.groupNotes_past, h.groupEnd_past,
    ShapeState.map_note, ShapeState.map_finishBody]
  split
  · exact h.skipGroup_past st i
  split
  · exact h.skipGroup_past st.nameLast i
  split
  · exact h.skipGroup_past st i
  · exact .done _

/-! ## Steps -/

theorem plainStep_past (hl : s.Loose k) {first first' : Nat} (hlt : i < s.size)
    (hop : ∀ j st', s.plainStep macros first st i = .next j st' →
      ∀ op, st.operatorAt = some op → op < i ∧ (k ≤ op ∨ j ≤ k))
    (hn : ∀ d, s.plainStep macros first st i = .done d → d.notes = []) :
    ShapeStep.Abreast k (s.plainStep macros first st i)
      (s'.plainStep macros first' (st.map (past k)) (past k i)) := by
  have hnext := abreast_succ k i
  unfold plainStep at hop hn ⊢
  rw [h.mark_past]
  cases hm : s.mark i <;>
    simp only [hm, ShapeState.isOpen_map, ShapeState.isFunction_map, ShapeState.map_nameLast,
      ShapeState.initialized_map, h.follows_past, h.isIdentifier_past, ShapeState.map_finish,
      ShapeState.map_beginInit, ShapeState.map_beginMemberInits, ShapeState.map_withAngles,
      ShapeState.map_withOperator, ShapeState.map_withIdentifier,
      ShapeState.map_markStatic, ← apply_ite (ShapeState.map (past k))] at hop hn ⊢
  case semicolon => exact .done _
  case closeBrace =>
    exact absurd (hn _ rfl) (by simp [ShapeState.finish, ShapeState.note, Shape.note])
  case openBrace => exact h.braceStep_past st i
  case openParen =>
    have happart : s.OperatorApart k st i := hop _ _ rfl
    rw [h.nameAtParen_past hl hlt (spelling_of_openParen hm) happart,
      ← apply_ite (ShapeState.map (past k))]
    exact h.skipGroup_past _ i
  case openBracket => exact h.skipGroup_past st i
  case staticWord => exact .next _ hnext
  all_goals exact .next _ hnext

theorem shapeStep_past (hl : s.Loose k) {first first' : Nat} (hlt : i < s.size)
    (hop : ∀ j st', s.shapeStep macros first st i = .next j st' →
      ∀ op, st.operatorAt = some op → op < i ∧ (k ≤ op ∨ j ≤ k))
    (hn : ∀ d, s.shapeStep macros first st i = .done d → d.notes = []) :
    ShapeStep.Abreast k (s.shapeStep macros first st i)
      (s'.shapeStep macros first' (st.map (past k)) (past k i)) := by
  unfold shapeStep at hop hn ⊢
  rw [h.isComment_past, h.spelling, ShapeState.angles_map, ShapeState.initialized_map]
  by_cases hcomment : s.isComment i = true
  · rw [if_pos hcomment, if_pos hcomment]
    exact .next _ (abreast_succ k i)
  rw [if_neg hcomment] at hop hn
  rw [if_neg hcomment, if_neg hcomment]
  by_cases hangle : (decide (0 < st.angles) && !st.initialized && s.spelling i != ";") = true
  · rw [if_pos hangle, if_pos hangle]
    exact h.angleStep_past st i
  · rw [if_neg hangle] at hop hn
    rw [if_neg hangle, if_neg hangle]
    exact h.plainStep_past hl hlt hop hn

end Source.Commented

/-! ## Whole declarations -/

namespace Source

variable {s : Source} {macros : Macros} {st st' : ShapeState} {first i j : Nat} {d : Shape}

theorem le_stop_of_done (hi : i < s.size) (hs : s.shapeStep macros first st i = .done d)
    (hn : d.notes = []) : i ≤ d.stop := by
  have hle := le_groupEnd hi
  unfold shapeStep at hs
  split at hs
  · cases hs
  split at hs
  · unfold angleStep skipGroup at hs
    split at hs <;> cases hs
  · unfold plainStep at hs
    split at hs <;> try cases hs
    · exact Nat.le_refl i
    · simp [ShapeState.finish, ShapeState.note, Shape.note] at hn
    · unfold braceStep skipGroup at hs
      (repeat' split at hs) <;> cases hs
      exact hle

/-- A declaration that nothing is wrong with reaches to where reading has come. -/
theorem le_stop_of_sound (hn : (s.shapeFrom macros first st i).notes = []) :
    i ≤ (s.shapeFrom macros first st i).stop := by
  fun_induction shapeFrom s macros first st i with
  | case1 st i hi d hs => exact le_stop_of_done hi hs hn
  | case2 st i hi j st' hs ih =>
    have := lt_of_shapeStep hi hs
    have := ih hn
    omega
  | case3 st i hi => simp [ShapeState.finish, ShapeState.note, Shape.note] at hn

theorem operatorAt_nameAtParen (macros : Macros) (st : ShapeState) (i : Nat) :
    (s.nameAtParen macros st i).operatorAt = st.operatorAt := by
  have hinside : (s.nameInside st i).operatorAt = st.operatorAt := by
    unfold nameInside
    (repeat' split) <;> rfl
  unfold nameAtParen
  split
  · split <;> rfl
  · split
    · split
      · rfl
      · exact hinside
    · exact hinside

/-- Only its keyword tells where the operator of a declaration stands. -/
theorem operatorAt_of_shapeStep (hs : s.shapeStep macros first st i = .next j st') :
    st'.operatorAt = st.operatorAt ∨ st'.operatorAt = some i ∧ s.spelling i = "operator" := by
  unfold shapeStep at hs
  split at hs
  · cases hs
    exact .inl rfl
  split at hs
  · unfold angleStep skipGroup at hs
    split at hs <;> cases hs <;> exact .inl rfl
  · unfold plainStep at hs
    cases hm : s.mark i <;> simp only [hm] at hs
    case semicolon => cases hs
    case closeBrace => cases hs
    case openBrace =>
      unfold braceStep skipGroup at hs
      (repeat' split at hs) <;> cases hs <;> exact .inl rfl
    case openParen =>
      unfold skipGroup at hs
      cases hs
      split
      · exact .inl (operatorAt_nameAtParen macros st i)
      · exact .inl rfl
    case openBracket =>
      unfold skipGroup at hs
      cases hs
      exact .inl rfl
    case equals =>
      cases hs
      split
      · exact .inl rfl
      · unfold ShapeState.beginInit
        split <;> exact .inl rfl
    case operatorWord =>
      cases hs
      split
      · exact .inr ⟨rfl, spelling_of_operatorWord hm⟩
      · exact .inl rfl
    case staticWord =>
      cases hs
      exact .inl rfl
    all_goals
      cases hs
      split <;> exact .inl rfl

end Source

namespace Source.Commented

variable {s s' : Source} {k : Nat} (h : s.Commented s' k) {macros : Macros} {st : ShapeState}
  {first first' i i' : Nat}
include h

theorem shapeFrom_past (hl : s.Loose k) (hi : Abreast k i i') (hfirst : first ≤ i)
    (hop : ∀ op, st.operatorAt = some op → op < i ∧
      (k ≤ op ∨ (s.shapeFrom macros first st i).stop < k))
    (hword : ∀ j, first ≤ j → j < k → s.spelling j = "operator" →
      (s.shapeFrom macros first st i).stop < k)
    (hn : (s.shapeFrom macros first st i).notes = []) :
    s'.shapeFrom macros first' (st.map (past k)) i' =
      (s.shapeFrom macros first st i).map (past k) := by
  have hcomment (st : ShapeState) :
      s'.shapeFrom macros first' st k = s'.shapeFrom macros first' st (k + 1) :=
    shapeFrom_next h.lt_size (by rw [shapeStep, if_pos h.isComment])
  rw [hi.congr (hcomment _)]
  clear hi
  -- an operator's name that has begun does not go on over the comment
  fun_induction shapeFrom s macros first st i with
  | case1 st i hlt d hs =>
    have hstep : ShapeStep.Abreast k (s.shapeStep macros first st i)
        (s'.shapeStep macros first' (st.map (past k)) (past k i)) :=
      h.shapeStep_past hl hlt (fun j st' hs' => by rw [hs] at hs'; cases hs')
        (fun d' hd' => by rw [hs] at hd'; cases hd'; exact hn)
    rw [hs] at hstep
    generalize hs' : s'.shapeStep macros first' (st.map (past k)) (past k i) = r at hstep
    cases hstep
    exact shapeFrom_done (h.lt_size_past.2 hlt) hs'
  | case2 st i hlt j st' hs ih =>
    have hij := lt_of_shapeStep hlt hs
    have hle := le_stop_of_sound hn
    have hstep : ShapeStep.Abreast k (s.shapeStep macros first st i)
        (s'.shapeStep macros first' (st.map (past k)) (past k i)) := by
      refine h.shapeStep_past hl hlt (fun j' st'' hs' op ho => ?_)
        (fun d hd => by rw [hs] at hd; cases hd)
      rw [hs] at hs'
      cases hs'
      obtain ⟨hlt, hapart⟩ := hop op ho
      exact ⟨hlt, by omega⟩
    rw [hs] at hstep
    generalize hs' : s'.shapeStep macros first' (st.map (past k)) (past k i) = r at hstep
    cases hstep with
    | next _ hj =>
      rw [shapeFrom_next (h.lt_size_past.2 hlt) hs', hj.congr (hcomment _)]
      refine ih (by omega) (fun op ho => ?_) hword hn
      rcases operatorAt_of_shapeStep hs with hkeep | ⟨hset, hspelling⟩
      · obtain ⟨hlt, hapart⟩ := hop op (hkeep ▸ ho)
        exact ⟨by omega, hapart⟩
      · -- the keyword has just been read
        obtain rfl : i = op := Option.some.inj (hset.symm.trans ho)
        refine ⟨hij, ?_⟩
        by_cases hk : k ≤ i
        · exact .inl hk
        · exact .inr (hword i hfirst (by omega) hspelling)
  | case3 st i hlt => simp [ShapeState.finish, ShapeState.note, Shape.note] at hn

/-- **A comment does not show in the shape of a declaration**, unless it stands in the name of an
operator. -/
theorem shape_past (hl : s.Loose k) (hi : Abreast k i i')
    (hword : ∀ j, i ≤ j → j < k → s.spelling j = "operator" → (s.shape macros i).stop < k)
    (hn : (s.shape macros i).notes = []) :
    s'.shape macros i' = (s.shape macros i).map (past k) := by
  have hshape : s'.shapeFrom macros i' (ShapeState.map (past k) .empty) i' =
      (s.shapeFrom macros i .empty i).map (past k) :=
    h.shapeFrom_past hl hi (Nat.le_refl i) (fun op ho => by cases ho) hword hn
  rwa [ShapeState.map_empty h.pos] at hshape

end Source.Commented

end DocIndex
