import DocIndex.Outline.Declarator
import DocIndex.Outline.Preprocessor

/-!
# What reading demands

Reading looks at lexemes by their number and counts back with numbers that are never negative. A
number past the last lexeme, or one that is counted below zero, would stop a program. `Demand` says
what such an operation demands, and for each function that asks how far something reaches there is
the list of what it demands on its way. A difference that is cut off at zero on purpose demands
nothing, nor does a question that is answered for every number.

* `AllMet` — all demands of a list are met.
* `allMet_groupDemands` — a group is skipped from its opening bracket only, so the count of open
  brackets never falls below zero.
* `allMet_shapeDemands` — **the demands of a whole declaration are met.**
-/

namespace DocIndex

/-- What an operation demands of its numbers. -/
inductive Demand
  /-- Element `i` of `size` elements is looked at. -/
  | index (i size : Nat)
  /-- The elements from `first` up to `stop`, without it, are cut out of `size` elements. -/
  | slice (first stop size : Nat)
  /-- `b` is taken away from `a`. -/
  | minus (a b : Nat)
  deriving DecidableEq, Repr

/-- The operation can be done. -/
def Demand.Met : Demand → Prop
  | index i size => i < size
  | slice first stop size => first ≤ stop ∧ stop ≤ size
  | minus a b => b ≤ a

instance : DecidablePred Demand.Met := fun d => by
  cases d <;> simp only [Demand.Met] <;> infer_instance

/-- All operations can be done. -/
def AllMet (ds : List Demand) : Prop :=
  ∀ d ∈ ds, d.Met

@[simp] theorem allMet_nil : AllMet [] := fun _ h => nomatch h

@[simp] theorem allMet_cons {d : Demand} {ds : List Demand} :
    AllMet (d :: ds) ↔ d.Met ∧ AllMet ds := by
  simp [AllMet]

@[simp] theorem allMet_append {ds es : List Demand} :
    AllMet (ds ++ es) ↔ AllMet ds ∧ AllMet es := by
  simp [AllMet, or_imp, forall_and]

theorem allMet_minus {a b : Nat} (h : b ≤ a) : AllMet [.minus a b] :=
  allMet_cons.2 ⟨h, allMet_nil⟩

namespace Source

variable (s : Source)

/-! ## Brackets -/

/-- Skipping to where `depth` groups are closed: the count is lowered at each closing bracket. -/
def closeDemands (opening closing : String) (depth i : Nat) : List Demand :=
  if i < s.size then
    if s.spelling i = opening then closeDemands opening closing (depth + 1) (i + 1)
    else if s.spelling i = closing then
      .minus depth 1 :: if depth ≤ 1 then [] else closeDemands opening closing (depth - 1) (i + 1)
    else closeDemands opening closing depth (i + 1)
  else [.minus s.size 1]
termination_by s.size - i

/-- Skipping the group opened at `i`. -/
def groupDemands (i : Nat) : List Demand :=
  s.closeDemands (s.openingAt i) (closingOf (s.openingAt i)) 0 i

/-- Skipping template arguments: where they are not closed, they end with the last lexeme. -/
def angleDemands : List Demand :=
  [.minus s.size 1]

/-- Finding the `;` that ends a statement. -/
def statementDemands (i : Nat) : List Demand :=
  if i < s.size then
    if s.spelling i = ";" then []
    else if s.opensGroup i then s.groupDemands i ++ statementDemands (s.groupEnd i + 1)
    else if s.spelling i = "\x7d" then []
    else statementDemands (i + 1)
  else [.minus s.size 1]
termination_by s.size - i
decreasing_by
  · have := le_groupEnd (s := s) (i := i) ‹_›; omega
  · omega

set_option linter.unusedVariables false in
/-- Skipping what may stand in front of a name. -/
def decorationDemands (macros : Macros) (i : Nat) : List Demand :=
  if i < s.size then
    if s.is i "[" && s.is (i + 1) "[" then
      s.groupDemands i ++ decorationDemands macros (s.groupEnd i + 1)
    else if hp : specifiers.contains (s.spelling i) && s.is (i + 1) "(" then
      s.groupDemands (i + 1) ++ decorationDemands macros (s.groupEnd (i + 1) + 1)
    else if s.isIdentifier i && macros.lookup (s.spelling i) == some false &&
        s.isIdentifier (i + 1) then
      decorationDemands macros (i + 1)
    else []
  else []
termination_by s.size - i
decreasing_by
  · have := le_groupEnd (s := s) ‹_›; omega
  · simp only [Bool.and_eq_true] at hp
    have := le_groupEnd (s := s) (lt_size_of_is hp.2)
    omega
  · omega

set_option linter.unusedVariables false in
/-- Skipping groups in square brackets. -/
def bracketDemands (i : Nat) : List Demand :=
  if h : s.is i "[" then s.groupDemands i ++ bracketDemands (s.groupEnd i + 1) else []
termination_by s.size - i
decreasing_by
  have := lt_size_of_is h
  have := le_groupEnd (s := s) this
  omega

/-! ## Qualifiers -/

/-- Counting back to where template arguments begin. -/
def angleStartDemands (depth : Int) (i : Nat) : List Demand :=
  let depth' :=
    if s.spelling i = ">" then depth + 1
    else if s.spelling i = ">>" then depth + 2
    else if s.spelling i = "<" then depth - 1
    else depth
  match i with
  | 0 => []
  | i + 1 => if depth' = 0 then [] else .minus (i + 1) 1 :: angleStartDemands depth' i

/-- Counting back over the names in front of the `::` that ends before `i`. -/
def qualifierDemandsFrom (i : Nat) : List Demand :=
  if 2 ≤ i then
    .minus i 1 ::
      if s.is (i - 1) "::" then
        .minus i 2 ::
          if s.is (i - 2) ">" then
            let first := s.angleStart 0 (i - 2)
            s.angleStartDemands 0 (i - 2) ++
              if first = 0 then []
              else
                .minus first 1 ::
                  if s.isIdentifier (first - 1) then qualifierDemandsFrom (first - 1) else []
          else if s.isIdentifier (i - 2) then qualifierDemandsFrom (i - 2)
          else []
      else []
  else []
termination_by i
decreasing_by
  · have := angleStart_le (s := s) 0 (i - 2)
    omega
  · omega

/-- Finding the qualifier of the name at `i`. -/
def qualifierDemands (i : Nat) : List Demand :=
  (if 0 < i then [.minus i 1] else []) ++
    s.qualifierDemandsFrom (if 0 < i && s.is (i - 1) "~" then i - 1 else i)

/-! ## Declarations without a keyword -/

/-- Joining the spellings from `first` up to `last`: each lexeme but the first is compared with the
one in front of it. -/
def joinDemands (first last : Nat) : List Demand :=
  (List.range' first (last - first)).flatMap fun k =>
    if first < k then [.minus k 1, .index (k - 1) s.size, .index k s.size] else []

/-- What the parentheses at `i` make of a declaration. -/
def parenDemands (macros : Macros) (st : ShapeState) (i : Nat) : List Demand :=
  match st.operatorAt with
  | some op => if s.closesCallOperator st i then [] else s.joinDemands op i
  | none =>
    match s.previous? i with
    | some p => if s.mayNameFunction macros p && decide (0 < p) then [.minus p 1] else []
    | none => []

/-- One lexeme of a declaration. -/
def shapeStepDemands (macros : Macros) (st : ShapeState) (i : Nat) : List Demand :=
  if s.isComment i then []
  else if 0 < st.angles && !st.initialized && s.spelling i != ";" then
    match s.mark i with
    | .openParen | .openBracket | .openBrace => s.groupDemands i
    | _ => []
  else
    match s.mark i with
    | .openBracket | .openBrace => s.groupDemands i
    | .openParen => s.groupDemands i ++ if st.isOpen then s.parenDemands macros st i else []
    | _ => []

set_option linter.unusedVariables false in
/-- A declaration that starts at `first`, from `i` on. -/
def shapeDemandsFrom (macros : Macros) (first : Nat) (st : ShapeState) (i : Nat) : List Demand :=
  if hi : i < s.size then
    s.shapeStepDemands macros st i ++
      match hs : s.shapeStep macros first st i with
      | .done _ => []
      | .next j st' => shapeDemandsFrom macros first st' j
  else []
termination_by s.size - i
decreasing_by have := lt_of_shapeStep hi hs; omega

/-- The declaration that starts at `i`. -/
def shapeDemands (macros : Macros) (i : Nat) : List Demand :=
  s.shapeDemandsFrom macros i .empty i

/-! ## Lines -/

/-- Whether a lexeme is the first of its line. -/
def startsLineDemands (i : Nat) : List Demand :=
  match s.previous? i with
  | none => []
  | some p => [.index p s.size, .index i s.size]

/-- Finding the last lexeme of a logical line. -/
def lineDemands (i : Nat) : List Demand :=
  if i + 1 < s.size then
    .index i s.size :: .index (i + 1) s.size ::
      if s.lineContinues i then lineDemands (i + 1) else []
  else []
termination_by s.size - i

/-! ## All of it is met -/

variable {s}

/-- A bracket opens a group. -/
theorem opensGroup_of_mark {i : Nat} (hi : i < s.size)
    (h : s.mark i = .openParen ∨ s.mark i = .openBracket ∨ s.mark i = .openBrace) :
    s.opensGroup i = true := by
  have hspelling : s.spelling i = "(" ∨ s.spelling i = "[" ∨ s.spelling i = "\x7b" := by
    unfold mark Mark.of at h
    split at h <;> simp_all
  simp only [opensGroup, is, decide_eq_true hi, Bool.true_and, Bool.or_eq_true, beq_iff_eq,
    or_assoc]
  exact hspelling

/-- A count of open brackets that begins in front of an opening one never falls below zero. -/
theorem allMet_closeDemands {opening closing : String} {depth i : Nat} (hs : 0 < s.size)
    (h : 0 < depth ∨ i < s.size ∧ s.spelling i = opening) :
    AllMet (s.closeDemands opening closing depth i) := by
  fun_induction closeDemands s opening closing depth i with
  | case1 depth i hi _ ih => exact ih (.inl (Nat.succ_pos depth))
  | case2 depth i hi hne _ ih =>
    have hpos : 1 ≤ depth := h.resolve_right fun h => hne h.2
    refine allMet_cons.2 ⟨hpos, ?_⟩
    split
    · exact allMet_nil
    · exact ih (.inl (by omega))
  | case3 depth i hi hne _ ih => exact ih (.inl (h.resolve_right fun h => hne h.2))
  | case4 depth i hi => exact allMet_minus hs

/-- **A group is skipped without trouble**, whether it is closed or not. -/
theorem allMet_groupDemands {i : Nat} (h : s.opensGroup i = true) :
    AllMet (s.groupDemands i) := by
  have hi : i < s.size ∧ s.spelling i = s.openingAt i := by
    simp only [opensGroup, is, Bool.or_eq_true, Bool.and_eq_true, decide_eq_true_eq,
      beq_iff_eq] at h
    rcases h with (⟨hi, h⟩ | ⟨hi, h⟩) | ⟨hi, h⟩ <;>
      exact ⟨hi, by rw [openingAt, h]; decide⟩
  exact allMet_closeDemands (by omega) (.inr hi)

theorem opensGroup_of_is {i : Nat} {word : String} (h : s.is i word = true)
    (hword : word = "(" ∨ word = "[" ∨ word = "\x7b") : s.opensGroup i = true := by
  unfold opensGroup
  rcases hword with rfl | rfl | rfl <;> simp [h]

theorem allMet_angleDemands (hs : 0 < s.size) : AllMet s.angleDemands :=
  allMet_minus hs

theorem allMet_statementDemands (hs : 0 < s.size) (i : Nat) : AllMet (s.statementDemands i) := by
  fun_induction statementDemands s i with
  | case1 => exact allMet_nil
  | case2 i _ _ hopens ih => exact allMet_append.2 ⟨allMet_groupDemands hopens, ih⟩
  | case3 => exact allMet_nil
  | case4 i _ _ _ _ ih => exact ih
  | case5 => exact allMet_minus hs

theorem allMet_decorationDemands (macros : Macros) (i : Nat) :
    AllMet (s.decorationDemands macros i) := by
  fun_induction decorationDemands s macros i with
  | case1 i _ hattribute ih =>
    simp only [Bool.and_eq_true] at hattribute
    have hopens := opensGroup_of_is hattribute.1 (.inr (.inl rfl))
    exact allMet_append.2 ⟨allMet_groupDemands hopens, ih⟩
  | case2 i _ _ hspecifier ih =>
    simp only [Bool.and_eq_true] at hspecifier
    have hopens := opensGroup_of_is hspecifier.2 (.inl rfl)
    exact allMet_append.2 ⟨allMet_groupDemands hopens, ih⟩
  | case3 i _ _ _ _ ih => exact ih
  | case4 => exact allMet_nil
  | case5 => exact allMet_nil

theorem allMet_bracketDemands (i : Nat) : AllMet (s.bracketDemands i) := by
  fun_induction bracketDemands s i with
  | case1 i h ih =>
    have hopens := opensGroup_of_is h (.inr (.inl rfl))
    exact allMet_append.2 ⟨allMet_groupDemands hopens, ih⟩
  | case2 => exact allMet_nil

theorem allMet_angleStartDemands (depth : Int) (i : Nat) :
    AllMet (s.angleStartDemands depth i) := by
  fun_induction angleStartDemands s depth i with
  | case1 => exact allMet_nil
  | case2 => exact allMet_nil
  | case3 => exact allMet_cons.2 ⟨Nat.succ_pos _, ‹_›⟩

theorem allMet_qualifierDemandsFrom (i : Nat) : AllMet (s.qualifierDemandsFrom i) := by
  fun_induction qualifierDemandsFrom s i with
  | case1 i hi ihAngle ihName =>
    refine allMet_cons.2 ⟨show 1 ≤ i by omega, ?_⟩
    split
    · refine allMet_cons.2 ⟨hi, ?_⟩
      split
      · refine allMet_append.2 ⟨allMet_angleStartDemands 0 _, ?_⟩
        split
        · exact allMet_nil
        · rename_i hne
          refine allMet_cons.2 ⟨Nat.pos_of_ne_zero hne, ?_⟩
          split
          · exact ihAngle
          · exact allMet_nil
      split
      · exact ihName
      · exact allMet_nil
    · exact allMet_nil
  | case2 => exact allMet_nil

theorem allMet_qualifierDemands (i : Nat) : AllMet (s.qualifierDemands i) := by
  refine allMet_append.2 ⟨?_, allMet_qualifierDemandsFrom _⟩
  split
  · exact allMet_minus ‹_›
  · exact allMet_nil

theorem allMet_joinDemands {first last : Nat} (hlast : last ≤ s.size) :
    AllMet (s.joinDemands first last) := by
  intro d hd
  obtain ⟨k, hk, hd⟩ := List.mem_flatMap.1 hd
  have hrange := List.mem_range'_1.1 hk
  have hall : AllMet (if first < k then
      [.minus k 1, .index (k - 1) s.size, .index k s.size] else []) := by
    split
    · simp only [allMet_cons, Demand.Met]
      exact ⟨by omega, by omega, by omega, allMet_nil⟩
    · exact allMet_nil
  exact hall d hd

theorem allMet_parenDemands (macros : Macros) (st : ShapeState) {i : Nat} (hi : i < s.size) :
    AllMet (s.parenDemands macros st i) := by
  unfold parenDemands
  split
  · split
    · exact allMet_nil
    · exact allMet_joinDemands (Nat.le_of_lt hi)
  · split
    · split
      · rename_i p _ hp
        simp only [Bool.and_eq_true, decide_eq_true_eq] at hp
        exact allMet_minus hp.2
      · exact allMet_nil
    · exact allMet_nil

theorem allMet_shapeStepDemands (macros : Macros) (st : ShapeState) {i : Nat} (hi : i < s.size) :
    AllMet (s.shapeStepDemands macros st i) := by
  have hgroup (h : s.mark i = .openParen ∨ s.mark i = .openBracket ∨ s.mark i = .openBrace) :
      AllMet (s.groupDemands i) :=
    allMet_groupDemands (opensGroup_of_mark hi h)
  unfold shapeStepDemands
  split
  · exact allMet_nil
  split
  · split
    · exact hgroup (.inl ‹_›)
    · exact hgroup (.inr (.inl ‹_›))
    · exact hgroup (.inr (.inr ‹_›))
    · exact allMet_nil
  · split
    · exact hgroup (.inr (.inl ‹_›))
    · exact hgroup (.inr (.inr ‹_›))
    · refine allMet_append.2 ⟨hgroup (.inl ‹_›), ?_⟩
      split
      · exact allMet_parenDemands macros st hi
      · exact allMet_nil
    · exact allMet_nil

/-- **A declaration is read without trouble**, wherever it ends. -/
theorem allMet_shapeDemandsFrom (macros : Macros) (first : Nat) (st : ShapeState) (i : Nat) :
    AllMet (s.shapeDemandsFrom macros first st i) := by
  fun_induction shapeDemandsFrom s macros first st i with
  | case1 st i hi ih =>
    refine allMet_append.2 ⟨allMet_shapeStepDemands macros st hi, ?_⟩
    split
    · exact allMet_nil
    · rename_i j st' hs
      exact ih j st' hs
  | case2 => exact allMet_nil

theorem allMet_shapeDemands (macros : Macros) (i : Nat) : AllMet (s.shapeDemands macros i) :=
  allMet_shapeDemandsFrom macros i .empty i

theorem lt_of_previous? {i p : Nat} (h : s.previous? i = some p) : p < i := by
  induction i with
  | zero => cases h
  | succ i ih =>
    rw [previous?] at h
    split at h
    · exact Nat.lt_succ_of_lt (ih h)
    · obtain rfl : i = p := Option.some.inj h
      exact Nat.lt_succ_self i

theorem allMet_startsLineDemands {i : Nat} (hi : i < s.size) :
    AllMet (s.startsLineDemands i) := by
  unfold startsLineDemands
  cases hp : s.previous? i with
  | none => exact allMet_nil
  | some p =>
    have hlt : p < i := lt_of_previous? hp
    exact allMet_cons.2 ⟨Nat.lt_trans hlt hi, allMet_cons.2 ⟨hi, allMet_nil⟩⟩

theorem allMet_lineDemands (i : Nat) : AllMet (s.lineDemands i) := by
  fun_induction lineDemands s i with
  | case1 i hi ih =>
    refine allMet_cons.2 ⟨Nat.lt_of_succ_lt hi, allMet_cons.2 ⟨hi, ?_⟩⟩
    split
    · exact ih
    · exact allMet_nil
  | case2 => exact allMet_nil

end Source

end DocIndex
