import DocIndex.Proofs.Rescan.Statement

/-!
# The shape of a statement

A declaration that is read from within a statement reaches to its `;`. It is named if its words name
something (`Source.namesFrom`): an identifier outside of all brackets and in front of any
initialiser, an operator's keyword with parameters behind it, or a name within parentheses that is
pointed to.
-/

namespace DocIndex

namespace ShapeState

/-- The declaration has a name, or will have that of its last identifier. -/
def Named (st : ShapeState) : Prop :=
  (st.shape.name <|> st.lastIdentifier).isSome = true

/-- The declaration is named, or the next identifier outside of brackets names it. `op` is the
keyword of an operator function that was read. -/
def Ready (op : Option Nat) (st : ShapeState) : Prop :=
  st.Named ∨ st.isOpen = true ∧ st.angles = 0 ∧ st.operatorAt = op

variable {op : Option Nat} {st : ShapeState}

theorem Named.nameLast (h : st.Named) : st.nameLast.Named := by
  unfold Named ShapeState.nameLast at *
  cases hname : st.shape.name <;> simp_all

theorem Named.beginInit (h : st.Named) : st.beginInit.Named := by
  unfold ShapeState.beginInit
  split
  · exact h
  · exact h.nameLast

theorem Named.withIdentifier (st : ShapeState) (i : Nat) : (st.withIdentifier i).Named := by
  unfold Named ShapeState.withIdentifier
  cases st.shape.name <;> rfl

theorem Named.of_eq_some {name : Nat} (h : st.shape.name = some name) : st.Named := by
  rw [Named, h]
  rfl

end ShapeState

namespace Source

variable {s : Source} {stop i first : Nat} {macros : Macros} {op : Option Nat} {st : ShapeState}

/-! ## What names a declaration -/

/-- A pointer or a reference to something that has a name stands in the parentheses opened at
`i`. -/
def namesInside (s : Source) (i : Nat) : Bool :=
  ["*", "&", "&&", "^"].contains (s.spelling (i + 1)) &&
    (s.declaredName? (i + 1) (s.groupEnd i)).isSome

/-- The parentheses opened at `i` name the declaration: they hold the parameters of the operator
function whose keyword is `op`, or a name. The empty ones of `operator()` belong to its keyword. -/
def namesAtParen (s : Source) (op : Option Nat) (i : Nat) : Bool :=
  match op with
  | some op => !(op + 1 == i && s.is (i + 1) ")" && s.groupEnd i == i + 1)
  | none => s.namesInside i

/-- The words from `i` on name something, in front of any template arguments and any initialiser.
`op` is the keyword of an operator function that stands in front of `i`. -/
def namesFrom (s : Source) (op : Option Nat) (i : Nat) : Bool :=
  if i < s.size then
    if s.isIdentifier i then true
    else if s.is i "operator" then namesFrom s (some i) (i + 1)
    else if s.opensGroup i then
      (s.is i "(" && s.namesAtParen op i) || namesFrom s op (s.groupEnd i + 1)
    -- in `operator<` and `operator=` the sign is part of the name
    else if ["<", "="].contains (s.spelling i) && !s.follows i "operator" then false
    else namesFrom s op (i + 1)
  else false
termination_by s.size - i
decreasing_by
  · omega
  · have := le_groupEnd (s := s) (i := i) ‹_›; omega
  · omega

/-! ## Single lexemes -/

theorem shapeStep_stop (h : s.IsStatement stop) :
    s.shapeStep macros first st stop = .done (st.finish stop) := by
  have hmark : s.mark stop = .semicolon := by
    rw [Source.mark, h.semicolon]
    rfl
  simp [shapeStep, h.code, h.semicolon, plainStep, hmark]

theorem spelling_of_mark_equals (hm : s.mark i = .equals) : s.spelling i = "=" := by
  unfold Source.mark Mark.of at hm
  split at hm <;> first | assumption | cases hm

theorem spelling_of_mark_less (hm : s.mark i = .less) : s.spelling i = "<" := by
  unfold Source.mark Mark.of at hm
  split at hm <;> first | assumption | cases hm

theorem spelling_of_mark_operator (hm : s.mark i = .operatorWord) : s.spelling i = "operator" := by
  unfold Source.mark Mark.of at hm
  split at hm <;> first | assumption | cases hm

/-- Reading a lexeme takes no name back, and an identifier gives one. -/
structure Keeps (s : Source) (op : Option Nat) (i : Nat) (st st' : ShapeState) : Prop where
  named : st.Named → st'.Named
  identified : st.Ready op → s.isIdentifier i = true → st'.Named
  ready : st.Ready op → (s.spelling i ∈ ["<", "="] → s.follows i "operator" = true) →
    st'.Ready (if s.spelling i = "operator" then some i else op)

theorem mark_of_isIdentifier (h : s.IsStatement stop) (hname : s.isIdentifier i = true) :
    s.mark i = .other :=
  (h.names i hname).mark

/-- Within template arguments, a word changes no more than the depth. -/
theorem angleStep_word (hword : s.spelling i ∉ ";" :: bracketWords) (hangles : 0 < st.angles) :
    ∃ st', s.angleStep st i = .next (i + 1) st' ∧ s.Keeps op i st st' := by
  -- what still waits for its name stands outside of template arguments
  have hnamed : st.Ready op → st.Named := by
    rintro (hnamed | ⟨-, hzero, -⟩)
    · exact hnamed
    · omega
  have hkeeps (angles : Nat) : s.Keeps op i st (st.withAngles angles) :=
    ⟨id, fun hr _ => hnamed hr, fun hr _ => .inl (hnamed hr)⟩
  unfold angleStep
  cases hm : s.mark i with
  | openParen => exact absurd (mem_of_mark hm (by decide)) hword
  | openBracket => exact absurd (mem_of_mark hm (by decide)) hword
  | openBrace => exact absurd (mem_of_mark hm (by decide)) hword
  | less => exact ⟨_, rfl, hkeeps _⟩
  | greater => exact ⟨_, rfl, hkeeps _⟩
  | shiftRight => exact ⟨_, rfl, hkeeps _⟩
  | _ => exact ⟨_, rfl, hkeeps st.angles⟩

theorem spelling_ne_operator {m : Mark} (hm : s.mark i = m) (hne : m ≠ .operatorWord) :
    ¬s.spelling i = "operator" := by
  intro hspelling
  rw [Source.mark, hspelling] at hm
  exact hne hm.symm

namespace Keeps

/-- What is no name leaves the declaration as ready as it was. -/
theorem of_mark (h : s.IsStatement stop) {m : Mark} (hm : s.mark i = m)
    (hne : m ≠ .other ∧ m ≠ .operatorWord) {st' : ShapeState} (hnamed : st.Named → st'.Named)
    (hready : st.Ready op → (s.spelling i ∈ ["<", "="] → s.follows i "operator" = true) →
      st'.Ready op) : s.Keeps op i st st' := by
  refine ⟨hnamed, fun _ hname => ?_, fun hr hplain => ?_⟩
  · exact absurd (hm.symm.trans (mark_of_isIdentifier h hname)) hne.1
  · rw [if_neg (spelling_ne_operator hm hne.2)]
    exact hready hr hplain

/-- A word that may be a name is taken as one where the declaration still waits for it. -/
theorem withIdentifier (hne : ¬s.spelling i = "operator") : s.Keeps op i st
    (if s.isIdentifier i && st.isOpen then st.withIdentifier i else st) := by
  have hnamed (h : st.Named) :
      (if s.isIdentifier i && st.isOpen then st.withIdentifier i else st).Named := by
    split
    · exact .withIdentifier st i
    · exact h
  refine ⟨hnamed, ?_, ?_⟩
  · rintro (hst | ⟨hopen, -⟩) hname
    · exact hnamed hst
    · rw [hname, hopen]
      exact .withIdentifier st i
  · rintro hr -
    rw [if_neg hne]
    split
    · exact .inl (.withIdentifier st i)
    · exact hr

end Keeps

/-- Outside of template arguments, only an `=` and a `<` make the declaration wait for no name. -/
theorem plainStep_word (h : s.IsStatement stop) (hword : s.spelling i ∉ ";" :: bracketWords) :
    ∃ st', s.plainStep macros first st i = .next (i + 1) st' ∧ s.Keeps op i st st' := by
  unfold plainStep
  cases hm : s.mark i with
  | semicolon => exact absurd (mem_of_mark hm (by decide)) hword
  | openParen => exact absurd (mem_of_mark hm (by decide)) hword
  | openBracket => exact absurd (mem_of_mark hm (by decide)) hword
  | openBrace => exact absurd (mem_of_mark hm (by decide)) hword
  | closeBrace => exact absurd (mem_of_mark hm (by decide)) hword
  | equals =>
    refine ⟨_, rfl, .of_mark h hm (by decide) (fun hst => ?_) fun hr hplain => ?_⟩
    · split
      · exact hst
      · exact hst.beginInit
    · rw [if_pos (hplain (by rw [spelling_of_mark_equals hm]; decide))]
      exact hr
  | less =>
    refine ⟨_, rfl, .of_mark h hm (by decide) (fun hst => ?_) fun hr hplain => ?_⟩
    · split
      · exact hst
      · exact hst
    · rw [hplain (by rw [spelling_of_mark_less hm]; decide), Bool.not_true, Bool.and_false,
        if_neg Bool.false_ne_true]
      exact hr
  | colon =>
    refine ⟨_, rfl, .of_mark h hm (by decide) (fun hst => ?_) fun hr _ => ?_⟩
    · split
      · exact hst
      · exact hst
    · split
      · exact hr
      · exact hr
  | comma =>
    refine ⟨_, rfl, .of_mark h hm (by decide) (fun hst => ?_) fun hr _ => ?_⟩
    · split
      · exact hst.nameLast
      · exact hst
    · split
      · exact hr.imp_left .nameLast
      · exact hr
  | operatorWord =>
    refine ⟨_, rfl, fun hst => ?_, fun _ hname => ?_, fun hr _ => ?_⟩
    · split
      · exact hst
      · exact hst
    · cases hm.symm.trans (mark_of_isIdentifier h hname)
    · rw [if_pos (spelling_of_mark_operator hm)]
      rcases hr with hst | ⟨hopen, hangles, -⟩
      · refine .inl ?_
        split
        · exact hst
        · exact hst
      · rw [if_pos hopen]
        exact .inr ⟨hopen, hangles, rfl⟩
  | staticWord => exact ⟨_, rfl, .of_mark h hm (by decide) (fun hst => hst) fun hr _ => hr⟩
  | greater => exact ⟨_, rfl, .withIdentifier (spelling_ne_operator hm (by decide))⟩
  | shiftRight => exact ⟨_, rfl, .withIdentifier (spelling_ne_operator hm (by decide))⟩
  | other => exact ⟨_, rfl, .withIdentifier (spelling_ne_operator hm (by decide))⟩

theorem shapeStep_word (h : s.IsStatement stop) (hword : s.spelling i ∉ ";" :: bracketWords) :
    ∃ st', s.shapeStep macros first st i = .next (i + 1) st' ∧ s.Keeps op i st st' := by
  unfold shapeStep
  rw [h.code, if_neg Bool.false_ne_true]
  split
  · rename_i hangles
    simp only [Bool.and_eq_true, decide_eq_true_eq] at hangles
    exact angleStep_word hword hangles.1.1
  · exact plainStep_word h hword

/-! ## Groups -/

/-- Reading a group takes no name back, and one that names the declaration gives one. -/
structure KeepsGroup (s : Source) (op : Option Nat) (i : Nat) (st st' : ShapeState) : Prop where
  named : st.Named → st'.Named
  ready : st.Ready op → st'.Ready op
  names : st.Ready op → s.is i "(" = true → s.namesAtParen op i = true → st'.Named

theorem KeepsGroup.of_named (h : st.Ready op → st.Named) : s.KeepsGroup op i st st :=
  ⟨id, id, fun hr _ _ => h hr⟩

/-- Parentheses may name the function whose parameters they hold. -/
theorem keepsGroup_nameAtParen (macros : Macros) :
    s.KeepsGroup op i st (s.nameAtParen macros st i) := by
  have hinside (hst : st.Named) : (s.nameInside st i).Named := by
    unfold nameInside
    (repeat' split) <;> first | exact hst | exact .withIdentifier st _
  have hnamed (hst : st.Named) : (s.nameAtParen macros st i).Named := by
    unfold nameAtParen
    split
    · split
      · exact hst
      · exact .of_eq_some rfl
    split
    · split
      · exact .of_eq_some rfl
      · exact hinside hst
    · exact hinside hst
  refine ⟨hnamed, fun hr => ?_, fun hr _ hnames => ?_⟩
  · have hinside' : (s.nameInside st i).Ready op := by
      unfold nameInside
      (repeat' split) <;> first | exact hr | exact .inl (.withIdentifier st _)
    unfold nameAtParen
    split
    · split
      · exact hr
      · exact .inl (.of_eq_some rfl)
    split
    · split
      · exact .inl (.of_eq_some rfl)
      · exact hinside'
    · exact hinside'
  · rcases hr with hst | ⟨-, -, rfl⟩
    · exact hnamed hst
    unfold nameAtParen
    cases hoperator : st.operatorAt with
    | some op =>
      rw [hoperator, namesAtParen, Bool.not_eq_true'] at hnames
      have hcall : s.closesCallOperator st i = false := by
        rwa [closesCallOperator, hoperator, Option.any_some]
      simp only [hcall, Bool.false_eq_true, if_false]
      exact .of_eq_some rfl
    | none =>
      rw [hoperator, namesAtParen, namesInside, Bool.and_eq_true] at hnames
      obtain ⟨hpointer, hname⟩ := hnames
      obtain ⟨n, hn⟩ := Option.isSome_iff_exists.1 hname
      have hinside : s.nameInside st i = st.withIdentifier n := by
        rw [nameInside, if_pos hpointer, hn]
      simp only [hinside]
      split
      · split
        · exact .of_eq_some rfl
        · exact .withIdentifier st n
      · exact .withIdentifier st n

theorem shapeStep_group (h : s.IsStatement stop) (hopening : s.spelling i ∈ ["(", "["]) :
    ∃ st', s.shapeStep macros first st i = .next (s.groupEnd i + 1) st' ∧
      s.KeepsGroup op i st st' := by
  have hskip {st' : ShapeState} (hst : s.KeepsGroup op i st st') :
      ∃ st'', s.skipGroup st' i = .next (s.groupEnd i + 1) st'' ∧ s.KeepsGroup op i st st'' :=
    ⟨_, rfl, hst.named, hst.ready, hst.names⟩
  unfold shapeStep
  rw [h.code, if_neg Bool.false_ne_true]
  have hangles
      (hdepth : (decide (0 < st.angles) && !st.initialized && s.spelling i != ";") = true) :
      s.KeepsGroup op i st st := by
    refine .of_named fun hr => ?_
    simp only [Bool.and_eq_true, decide_eq_true_eq] at hdepth
    rcases hr with hst | ⟨-, hzero, -⟩
    · exact hst
    · omega
  simp only [List.mem_cons, List.not_mem_nil, or_false] at hopening
  rcases hopening with heq | heq
  · have hm : s.mark i = .openParen := by
      rw [Source.mark, heq]
      rfl
    split
    · rw [angleStep, hm]
      exact hskip (hangles ‹_›)
    · rw [plainStep, hm]
      simp only
      split
      · exact hskip (keepsGroup_nameAtParen macros)
      · -- behind parameters or an `=` the name has been read
        rename_i hclosed
        refine hskip (.of_named fun hr => ?_)
        rcases hr with hst | ⟨hopen, -⟩
        · exact hst
        · exact absurd hopen hclosed
  · have hm : s.mark i = .openBracket := by
      rw [Source.mark, heq]
      rfl
    have hkeeps : s.KeepsGroup op i st st := by
      refine ⟨id, id, fun _ his => ?_⟩
      exact absurd (heq.symm.trans (spelling_of_is his)) (by decide)
    split
    · rw [angleStep, hm]
      exact hskip hkeeps
    · rw [plainStep, hm]
      exact hskip hkeeps

/-! ## Whole declarations -/

/-- The end of the statement names nothing. -/
theorem namesFrom_stop (h : s.IsStatement stop) (op : Option Nat) :
    s.namesFrom op stop = false := by
  have hname : ¬s.isIdentifier stop = true := fun hname =>
    spelling_of_isIdentifier h hname (by rw [h.semicolon]; decide)
  have hbehind : s.namesFrom op (stop + 1) = false := by
    rw [namesFrom, if_neg (by rw [h.size]; exact Nat.lt_irrefl _)]
  rw [namesFrom, if_pos (Runs.stop.lt_size h), if_neg hname]
  simp [opensGroup, Runs.stop.is_eq h, h.semicolon, hbehind]

theorem not_opensGroup_of_word (hword : s.spelling i ∉ ";" :: bracketWords) :
    ¬s.opensGroup i = true := by
  intro hgroup
  simp only [opensGroup, Bool.or_eq_true] at hgroup
  refine absurd ?_ hword
  rcases hgroup with (his | his) | his <;> rw [spelling_of_is his] <;> decide

/-- **A declaration that is read within a statement reaches to its end.** A name is kept, and there
is one if the words name something. -/
theorem shapeFrom_runs (h : s.IsStatement stop) (hr : s.Runs stop i) (macros : Macros)
    (first : Nat) (op : Option Nat) (st : ShapeState) :
    (s.shapeFrom macros first st i).stop = stop ∧
      (st.Named → (s.shapeFrom macros first st i).name.isSome = true) ∧
      (st.Ready op → s.namesFrom op i = true →
        (s.shapeFrom macros first st i).name.isSome = true) := by
  induction hr generalizing op st with
  | stop =>
    have hlt := Runs.stop.lt_size h
    rw [shapeFrom_done hlt (shapeStep_stop h), namesFrom_stop h op]
    exact ⟨rfl, id, fun _ hname => absurd hname (by decide)⟩
  | @word i hi hword hnext ih =>
    have hr : s.Runs stop i := .word hi hword hnext
    have hlt := hr.lt_size h
    obtain ⟨st', hstep, hkeeps⟩ : ∃ st', s.shapeStep macros first st i = .next (i + 1) st' ∧
        s.Keeps op i st st' := shapeStep_word h hword
    rw [shapeFrom_next hlt hstep]
    obtain ⟨hstop, hnamed, hready⟩ := ih (if s.spelling i = "operator" then some i else op) st'
    refine ⟨hstop, fun hst => hnamed (hkeeps.named hst), fun hst hnames => ?_⟩
    rw [namesFrom, if_pos hlt, if_neg (not_opensGroup_of_word hword)] at hnames
    by_cases hname : s.isIdentifier i = true
    · exact hnamed (hkeeps.identified hst hname)
    rw [if_neg hname] at hnames
    by_cases his : s.is i "operator" = true
    · have hoperator := spelling_of_is his
      rw [if_pos his] at hnames
      refine hready (hkeeps.ready hst fun hsign => ?_) (by rwa [if_pos hoperator])
      rw [hoperator] at hsign
      exact absurd hsign (by decide)
    · have hoperator : ¬s.spelling i = "operator" := by
        rwa [hr.is_eq h, decide_eq_true_eq] at his
      rw [if_neg his] at hnames
      by_cases hsign : (["<", "="].contains (s.spelling i) && !s.follows i "operator") = true
      · rw [if_pos hsign] at hnames
        cases hnames
      · -- a sign that is passed over belongs to an operator's name
        rw [if_neg hsign] at hnames
        refine hready (hkeeps.ready hst fun hmem => ?_) (by rwa [if_neg hoperator])
        rwa [List.contains_iff_mem.2 hmem, Bool.true_and, Bool.not_eq_true', Bool.not_eq_false]
          at hsign
  | @group i k hik hk hopening hclose hangles hnext ih =>
    have hr : s.Runs stop i := .group hik hk hopening hclose hangles hnext
    have hlt := hr.lt_size h
    obtain ⟨st', hstep, hkeeps⟩ : ∃ st',
        s.shapeStep macros first st i = .next (s.groupEnd i + 1) st' ∧
          s.KeepsGroup op i st st' := shapeStep_group h hopening
    have hend := groupEnd_of_close hclose
    rw [hend] at hstep
    rw [shapeFrom_next hlt hstep]
    obtain ⟨hstop, hnamed, hready⟩ := ih op st'
    refine ⟨hstop, fun hst => hnamed (hkeeps.named hst), fun hst hnames => ?_⟩
    have hname : ¬s.isIdentifier i = true := fun hname =>
      spelling_of_isIdentifier h hname (mem_of_opening hopening).1
    have hoperator : ¬s.is i "operator" = true := by
      intro his
      rw [spelling_of_is his] at hopening
      exact absurd hopening (by decide)
    rw [namesFrom, if_pos hlt, if_neg hname, if_neg hoperator, if_pos (hr.opensGroup h hopening),
      hend, Bool.or_eq_true, Bool.and_eq_true] at hnames
    rcases hnames with ⟨his, hparen⟩ | hbehind
    · exact hnamed (hkeeps.names hst his hparen)
    · exact hready (hkeeps.ready hst) hbehind

theorem shape_runs (h : s.IsStatement stop) (hr : s.Runs stop i) (macros : Macros) :
    (s.shape macros i).stop = stop ∧
      (s.namesFrom none i = true → (s.shape macros i).name.isSome = true) := by
  obtain ⟨hstop, -, hready⟩ := shapeFrom_runs h hr macros i none .empty
  exact ⟨hstop, hready (.inr ⟨rfl, rfl, rfl⟩)⟩

end Source

end DocIndex
