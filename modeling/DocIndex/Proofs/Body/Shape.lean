import DocIndex.Proofs.Window.Shape

/-!
# The brace of a body

The shape of a function is read up to the brace that opens its body; where the body ends, the
function does. So two functions that are alike up to that brace have the same shape, whatever their
bodies hold.

* `Source.body?` — the brace that opens the body of a function.
* `shapeFrom_bodyFrom` — the shape is what has been read up to there.
* `bodyFrom_moved` — within a window the same brace opens the body.
* `passesTo_skipDecorations` — what may stand in front of a name is read in front of the brace.
-/

namespace DocIndex

/-- A function has a name. -/
def ShapeState.IsNamed (st : ShapeState) : Prop :=
  st.shape.isFunction = true → st.shape.name.isSome = true

namespace Source

variable (s : Source)

/-- The brace at `i` opens the body of a function. -/
def opensBody (st : ShapeState) (i : Nat) : Bool :=
  s.is i "\x7b" && !s.isComment i && st.angles == 0 && !st.initialized && st.shape.isFunction &&
    !(st.memberInits && s.opensMemberInit i)

set_option linter.unusedVariables false in
/-- Reads a declaration that starts at `first`, from `i` on, up to the brace that opens its body:
what has been read up to there, and the brace. -/
def bodyFrom (macros : Macros) (first : Nat) (st : ShapeState) (i : Nat) :
    Option (ShapeState × Nat) :=
  if hi : i < s.size then
    if s.opensBody st i then some (st, i)
    else
      match hs : s.shapeStep macros first st i with
      | .done _ => none
      | .next j st' => bodyFrom macros first st' j
  else none
termination_by s.size - i
decreasing_by have := lt_of_shapeStep hi hs; omega

/-- The brace that opens the body of the function that starts at lexeme `i`. -/
def body? (macros : Macros) (i : Nat) : Option Nat :=
  (s.bodyFrom macros i .empty i).map Prod.snd

variable {s} {macros : Macros} {first i j k : Nat} {st st' : ShapeState}

theorem opensBody_iff : s.opensBody st i = true ↔
    s.is i "\x7b" = true ∧ s.isComment i = false ∧ st.angles = 0 ∧ st.initialized = false ∧
      st.shape.isFunction = true ∧ (st.memberInits && s.opensMemberInit i) = false := by
  simp only [opensBody, Bool.and_eq_true, Bool.not_eq_true', beq_iff_eq, and_assoc]

/-- With its body the function ends. -/
theorem shapeStep_of_opensBody (h : s.opensBody st i = true) :
    s.shapeStep macros first st i =
      .done ((st.note (s.groupNotes i)).finishBody (s.groupEnd i)) := by
  obtain ⟨hbrace, hcomment, hangles, hinit, hfunction, hmember⟩ := opensBody_iff.1 h
  have hspelling : s.spelling i = "\x7b" := by
    simp only [is, Bool.and_eq_true, beq_iff_eq] at hbrace
    exact hbrace.2
  have hmark : s.mark i = .openBrace := by
    rw [mark, hspelling]
    rfl
  rw [shapeStep, hcomment, hangles, hinit, plainStep, hmark]
  simp only [braceStep, hinit, hfunction, hmember]
  rfl

theorem bodyFrom_of_opensBody (hi : i < s.size) (h : s.opensBody st i = true) :
    s.bodyFrom macros first st i = some (st, i) := by
  rw [bodyFrom, dif_pos hi, if_pos h]

theorem bodyFrom_next (hi : i < s.size) (hbody : s.opensBody st i = false)
    (h : s.shapeStep macros first st i = .next j st') :
    s.bodyFrom macros first st i = s.bodyFrom macros first st' j := by
  rw [bodyFrom, dif_pos hi, if_neg (Bool.eq_false_iff.1 hbody)]
  split <;> simp_all

/-- **The shape of a function is what has been read up to the brace of its body**, and ends where
the body does. -/
theorem shapeFrom_bodyFrom (h : s.bodyFrom macros first st i = some (st', k)) :
    s.shapeFrom macros first st i = (st'.note (s.groupNotes k)).finishBody (s.groupEnd k) ∧
      i ≤ k ∧ k < s.size ∧ s.opensBody st' k = true := by
  fun_induction bodyFrom s macros first st i with
  | case1 st i hi hbody =>
    cases h
    exact ⟨shapeFrom_done hi (shapeStep_of_opensBody hbody), Nat.le_refl k, hi, hbody⟩
  | case2 => cases h
  | case3 st i hi hbody j st₁ hstep ih =>
    obtain ⟨hshape, hle, hrest⟩ := ih h
    have hij := lt_of_shapeStep hi hstep
    exact ⟨(shapeFrom_next hi hstep).trans hshape, by omega, hrest⟩
  | case4 => cases h

/-- A function begins in front of its body. -/
theorem bodyFrom_of_body? (h : s.body? macros i = some k) :
    ∃ st, s.bodyFrom macros i .empty i = some (st, k) ∧ i < k ∧ s.is k "\x7b" = true := by
  rw [body?, Option.map_eq_some_iff] at h
  obtain ⟨⟨st, k⟩, hbody, rfl⟩ := h
  obtain ⟨-, hle, -, hopens⟩ := shapeFrom_bodyFrom hbody
  refine ⟨st, hbody, Nat.lt_of_le_of_ne hle fun heq => ?_, (opensBody_iff.1 hopens).1⟩
  simp only at heq
  subst heq
  -- nothing has been read yet, so there is no function whose body could begin
  have hempty : s.opensBody .empty i = false := by
    simp [opensBody, ShapeState.empty, Shape.empty]
  rw [bodyFrom] at hbody
  split at hbody
  · rename_i hi
    rw [if_neg (Bool.eq_false_iff.1 hempty)] at hbody
    split at hbody
    · cases hbody
    · rename_i j st' hstep
      have hij := lt_of_shapeStep hi hstep
      have hji := (shapeFrom_bodyFrom hbody).2.1
      omega
  · cases hbody

/-! ## Names of functions -/

theorem isNamed_nameLast (hst : st.IsNamed) : st.nameLast.IsNamed := fun hfunction => by
  obtain ⟨n, hn⟩ := Option.isSome_iff_exists.1 (hst hfunction)
  have hlast : st.nameLast.shape.name = (st.shape.name <|> st.lastIdentifier) := rfl
  rw [hlast, hn]
  rfl

theorem isNamed_beginInit (hst : st.IsNamed) : st.beginInit.IsNamed := by
  unfold ShapeState.beginInit
  split
  · exact hst
  · exact isNamed_nameLast hst

theorem isNamed_nameAtParen (hst : st.IsNamed) : (s.nameAtParen macros st i).IsNamed := by
  have hinside : (s.nameInside st i).IsNamed := by
    unfold nameInside
    split
    · split <;> exact hst
    · exact hst
  unfold nameAtParen
  split
  · split
    · exact hst
    · exact fun _ => rfl
  · split
    · split
      · exact fun _ => rfl
      · exact hinside
    · exact hinside

/-- A function is named as soon as it is known to be one. -/
theorem isNamed_shapeStep (hst : st.IsNamed) (h : s.shapeStep macros first st i = .next j st') :
    st'.IsNamed := by
  have hgroup {st : ShapeState} (hst : st.IsNamed) (h : s.skipGroup st i = .next j st') :
      st'.IsNamed := by
    cases h
    exact hst
  unfold shapeStep at h
  split at h
  · cases h
    exact hst
  split at h
  · unfold angleStep at h
    split at h <;> first | exact hgroup hst h | (cases h; exact hst)
  unfold plainStep at h
  cases hm : s.mark i <;> rw [hm] at h <;> simp only at h
  case semicolon => cases h
  case closeBrace => cases h
  case openBrace =>
    unfold braceStep at h
    split at h
    · exact hgroup hst h
    split at h
    · exact hgroup (isNamed_nameLast hst) h
    split at h
    · exact hgroup hst h
    · cases h
  case openParen =>
    split at h
    · exact hgroup (isNamed_nameAtParen hst) h
    · exact hgroup hst h
  case openBracket => exact hgroup hst h
  case comma =>
    cases h
    split
    · exact isNamed_nameLast hst
    · exact hst
  case equals =>
    cases h
    split
    · exact hst
    · exact isNamed_beginInit hst
  case less | greater | shiftRight | other | colon | operatorWord =>
    cases h
    split <;> exact hst
  case staticWord =>
    cases h
    exact hst

theorem isNamed_bodyFrom (hst : st.IsNamed) (h : s.bodyFrom macros first st i = some (st', k)) :
    st'.IsNamed := by
  fun_induction bodyFrom s macros first st i with
  | case1 =>
    cases h
    exact hst
  | case2 => cases h
  | case3 st i hi hbody j st₁ hstep ih => exact ih (isNamed_shapeStep hst hstep) h
  | case4 => cases h

/-! ## Bodies within a window -/

namespace Agrees

variable {w : Window} {s' : Source} (h : s.Agrees w s')
include h

theorem opensBody_moved (hi : w.Behind i) (hs : w.Seen i) :
    s'.opensBody (st.map w.moved) (w.moved i) = s.opensBody st i := by
  simp only [opensBody, h.is_moved hi.le hs, h.isComment_moved hi.le hs,
    h.opensMemberInit_moved hi hs, ShapeState.angles_map, ShapeState.initialized_map,
    ShapeState.isFunction_map, ShapeState.memberInits_map]

/-- **The same brace opens the body**, if the brace is seen, and the same has been read up to
there. -/
theorem bodyFrom_moved (hst : st.Within w i) (hi : w.Behind i) (hfirst : w.first ≤ first)
    (hbody : s.bodyFrom macros first st i = some (st', k)) (hs : w.Seen k) :
    s'.bodyFrom macros (w.moved first) (st.map w.moved) (w.moved i) =
        some (st'.map w.moved, w.moved k) ∧ st'.Within w k := by
  fun_induction bodyFrom s macros first st i with
  | case1 st i hlt hopens =>
    cases hbody
    have hlt' : w.moved k < s'.size := (h.lt_iff hi.le hs).2 hlt
    have hopens' := (h.opensBody_moved hi hs).trans hopens
    exact ⟨bodyFrom_of_opensBody hlt' hopens', hst⟩
  | case2 => cases hbody
  | case3 st i hlt hopens j st₁ hstep ih =>
    obtain ⟨-, hjk, -⟩ := shapeFrom_bodyFrom hbody
    have hij := lt_of_shapeStep hlt hstep
    have hj : w.Seen j := w.seen_of_le hs hjk
    have hseen : w.Seen i := w.seen_of_le hj (Nat.le_of_lt hij)
    -- the step goes on in front of the brace, so what it looks at is seen
    have hmoved : s'.shapeStep macros (w.moved first) (st.map w.moved) (w.moved i) =
        (s.shapeStep macros first st i).map w.moved :=
      h.shapeStep_moved hst hi hlt hfirst (by rwa [hstep])
    have hwithin : (s.shapeStep macros first st i).Within w := h.within_shapeStep hst hi hlt hseen
    rw [hstep] at hmoved hwithin
    have hopens' : s'.opensBody (st.map w.moved) (w.moved i) = false :=
      (h.opensBody_moved hi hseen).trans (Bool.eq_false_iff.2 hopens)
    rw [bodyFrom_next ((h.lt_iff hi.le hseen).2 hlt) hopens' hmoved]
    exact ih hwithin (hi.mono (Nat.le_of_lt hij)) hbody
  | case4 => cases hbody

end Agrees

end Source

/-! ## What stands in front of a name -/

/-- The mark neither ends a declaration nor opens a group. -/
def Mark.isPassed : Mark → Bool
  | .semicolon | .openParen | .openBracket | .openBrace | .closeBrace => false
  | _ => true

/-- Comments and identifiers are spelled as such. -/
structure Source.WellSpelled (s : Source) : Prop where
  comment : ∀ {i}, s.isComment i = true → s.mark i = .other
  identifier : ∀ {i}, s.isIdentifier i = true → (s.mark i).isPassed = true

namespace Source

/-- Reading the shape of a declaration from `i` on comes by `j`, wherever it has come from. -/
def PassesTo (s : Source) (macros : Macros) (first i j : Nat) : Prop :=
  ∀ st, ∃ st', s.shapeFrom macros first st' j = s.shapeFrom macros first st i ∧
    s.bodyFrom macros first st' j = s.bodyFrom macros first st i

namespace PassesTo

variable {s : Source} {macros : Macros} {first i j k : Nat} {st st' : ShapeState}

theorem refl (i : Nat) : s.PassesTo macros first i i := fun st => ⟨st, rfl, rfl⟩

theorem trans (h : s.PassesTo macros first i j) (h' : s.PassesTo macros first j k) :
    s.PassesTo macros first i k := by
  intro st
  obtain ⟨st₁, hshape, hbody⟩ := h st
  obtain ⟨st₂, hshape', hbody'⟩ := h' st₁
  exact ⟨st₂, hshape'.trans hshape, hbody'.trans hbody⟩

theorem of_step (hi : i < s.size) (hbrace : s.is i "\x7b" = false)
    (hstep : ∀ st, ∃ st', s.shapeStep macros first st i = .next j st') :
    s.PassesTo macros first i j := by
  intro st
  obtain ⟨st', hstep⟩ := hstep st
  have hbody : s.opensBody st i = false := by
    rw [opensBody, hbrace]
    rfl
  exact ⟨st', (shapeFrom_next hi hstep).symm, (bodyFrom_next hi hbody hstep).symm⟩

theorem is_openBrace (hmark : s.mark i ≠ .openBrace) : s.is i "\x7b" = false := by
  rw [is, Bool.and_eq_false_iff, beq_eq_false_iff_ne]
  refine .inr fun hspelling => hmark ?_
  rw [mark, hspelling]
  rfl

/-- A word is passed. -/
theorem word (hi : i < s.size) (hmark : (s.mark i).isPassed = true) :
    s.PassesTo macros first i (i + 1) := by
  refine of_step hi (is_openBrace fun h => by rw [h] at hmark; cases hmark) fun st => ?_
  unfold shapeStep angleStep plainStep
  split
  · exact ⟨_, rfl⟩
  split
  · cases hm : s.mark i <;> rw [hm] at hmark <;> first | exact ⟨_, rfl⟩ | cases hmark
  · cases hm : s.mark i <;> rw [hm] at hmark <;> first | exact ⟨_, rfl⟩ | cases hmark

/-- A group is passed as a whole. -/
theorem group (hi : i < s.size) (hcomment : s.isComment i = false)
    (hmark : s.mark i = .openParen ∨ s.mark i = .openBracket) :
    s.PassesTo macros first i (s.groupEnd i + 1) := by
  refine of_step hi (is_openBrace fun h => by simp [h] at hmark) fun st => ?_
  unfold shapeStep angleStep plainStep
  rw [hcomment, if_neg Bool.false_ne_true]
  split
  · rcases hmark with hmark | hmark <;> rw [hmark] <;> exact ⟨_, rfl⟩
  · rcases hmark with hmark | hmark <;> rw [hmark] <;> exact ⟨_, rfl⟩

theorem le_brace (h : s.PassesTo macros first i j)
    (hbody : s.bodyFrom macros first st i = some (st', k)) : j ≤ k := by
  obtain ⟨st₁, -, hbody₁⟩ := h st
  exact (shapeFrom_bodyFrom (hbody₁.trans hbody)).2.1

theorem le_stop (h : s.PassesTo macros first i j) (hfirst : first ≤ j) (hj : j ≤ s.size)
    (st : ShapeState) : j ≤ (s.shapeFrom macros first st i).stop + 1 := by
  obtain ⟨st₁, hshape, -⟩ := h st
  rw [← hshape]
  exact le_succ_stop_shapeFrom hfirst hj

end PassesTo

variable {s : Source} (hs : s.WellSpelled) {macros : Macros} {first i key : Nat}
include hs

theorem passesTo_group_of_is {word : String} (hi : s.is i word = true)
    (hword : Mark.of word = .openParen ∨ Mark.of word = .openBracket) :
    s.PassesTo macros first i (s.groupEnd i + 1) := by
  have hmark : s.mark i = Mark.of word := by
    simp only [is, Bool.and_eq_true, beq_iff_eq] at hi
    rw [mark, hi.2]
  refine .group (lt_size_of_is hi) ?_ (by rwa [hmark])
  refine Bool.eq_false_iff.2 fun hcomment => ?_
  rw [← hmark, hs.comment hcomment] at hword
  simp at hword

/-- **Attributes and specifiers are passed by the shape as well.** -/
theorem passesTo_skipDecorations (i : Nat) :
    s.PassesTo macros first i (s.skipDecorations macros i).index := by
  have hspecifier : ∀ word ∈ specifiers, (Mark.of word).isPassed = true := by decide
  fun_induction skipDecorations s macros i with
  | case1 i hi hopen r ih =>
    rw [Bool.and_eq_true] at hopen
    exact (passesTo_group_of_is hs hopen.1 (.inr rfl)).trans ih
  | case2 i hi _ hspec r ih =>
    simp only [Bool.and_eq_true, List.contains_iff_mem] at hspec
    exact ((PassesTo.word hi (hspecifier _ hspec.1)).trans
      (passesTo_group_of_is hs hspec.2 (.inl rfl))).trans ih
  | case3 i hi _ _ hmacro ih =>
    simp only [Bool.and_eq_true] at hmacro
    exact (PassesTo.word hi (hs.identifier hmacro.1.1)).trans ih
  | case4 => exact .refl _
  | case5 => exact .refl _

end Source

end DocIndex
