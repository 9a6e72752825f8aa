import DocIndex.Proofs.Progress.Demands
import DocIndex.Proofs.Window.Groups

/-!
# A source behind some lexemes

A text is read alone, and behind some lines of its own. Then the same lexemes stand further back,
and what is asked of them is answered with the numbers moved by as many. Only what looks back past
the first lexeme can tell the sources apart: alone there is nothing, and otherwise the last lexeme
ahead.

* `Source.Ahead` — what stands ahead of a source in another one.
* `previous?_ahead` — looking back comes to the last lexeme ahead where it comes to nothing.
* `statementEnd_ahead`, `groupEnd_ahead`, `angleEnd_ahead` — where statements and groups end.
* `qualifierOf_ahead` — **a name is qualified alike**, unless its scopes are looked for ahead of the
  text (`Source.LooksAhead`).
-/

namespace DocIndex

namespace Source

/-- In the source `s'` stand `k` lexemes ahead of those of `s`, on lines of their own. The last of
them is no comment, and none of them means something to what stands behind it. -/
structure Ahead (k : Nat) (s s' : Source) : Prop where
  pos : 0 < s.size
  size : s'.size = k + s.size
  spelling : ∀ i, s'.spelling (k + i) = s.spelling i
  kind : ∀ i, s'.kind? (k + i) = s.kind? i
  touches : ∀ i, s'.touchesNext (k + i) = s.touchesNext i
  continues : ∀ i, s'.lineContinues (k + i) = s.lineContinues i
  lines : ∀ {p i}, p < i → i < s.size →
    (s'.stopLine (k + p) < s'.startLine (k + i) ↔ s.stopLine p < s.startLine i)
  some_ahead : 0 < k
  line : ∀ {i}, i < s.size → s'.stopLine (k - 1) < s'.startLine (k + i)
  code : s'.isComment (k - 1) = false
  closed : ∀ word ∈ ["~", "::", "operator"], s'.is (k - 1) word = false
  angles : ∀ i < k, s'.spelling i ∉ ["<", ">", ">>"]

/-- The scopes of the name at `i` are looked for ahead of the text, which begins with a `::` or with
a `<`. -/
def LooksAhead (s : Source) (i : Nat) : Prop :=
  (s.is 0 "::" = true ∨ s.is 0 "<" = true) ∧ s.qualifierReach (s.nameStart i) = 0

/-- Where template arguments in front of a `::` are not opened, it is looked for them to the
beginning. -/
theorem qualifierReach_open {s : Source} {i : Nat} (hcolons : s.is (i + 1) "::" = true)
    (hgreater : s.is i ">" = true) (hzero : s.angleStart 0 i = 0) :
    s.qualifierReach (i + 2) = 0 := by
  have hfound : (decide (2 ≤ i + 2) && s.is (i + 2 - 1) "::") = true := by
    rw [show i + 2 - 1 = i + 1 from rfl, hcolons, Bool.and_true]
    exact decide_eq_true (Nat.le_add_left 2 i)
  have hnone : s.qualifierPart? (i + 2) = none := by
    rw [qualifierPart?, if_pos hfound, Nat.add_sub_cancel, if_pos hgreater, if_pos hzero]
  rw [qualifierReach_none hnone, if_pos hfound, Nat.add_sub_cancel, if_pos hgreater, hzero]

namespace Ahead

variable {k : Nat} {s s' : Source} (h : s.Ahead k s') {i : Nat}
include h

/-! ## What lexemes are -/

theorem lt_size : k + i < s'.size ↔ i < s.size := by
  rw [h.size]
  exact Nat.add_lt_add_iff_left

theorem size_pred : s'.size - 1 = k + (s.size - 1) := by
  have hpos := h.pos
  rw [h.size]
  omega

theorem is_ahead (i : Nat) (word : String) : s'.is (k + i) word = s.is i word := by
  simp only [is, h.spelling, h.lt_size]

theorem isIdentifier_ahead (i : Nat) : s'.isIdentifier (k + i) = s.isIdentifier i := by
  simp only [isIdentifier, h.kind]

theorem isComment_ahead (i : Nat) : s'.isComment (k + i) = s.isComment i := by
  simp only [isComment, h.kind]

theorem mark_ahead (i : Nat) : s'.mark (k + i) = s.mark i := by
  simp only [mark, h.spelling]

/-! ## Looking back -/

/-- **Where nothing but comments stands in front, the last lexeme ahead does.** -/
theorem previous?_ahead (i : Nat) :
    s'.previous? (k + i) = some ((s.previous? i).elim (k - 1) (k + ·)) := by
  induction i with
  | zero =>
    obtain ⟨n, rfl⟩ := Nat.exists_eq_succ_of_ne_zero (Nat.ne_of_gt h.some_ahead)
    have hcode : s'.isComment n = false := h.code
    simp [previous?, hcode]
  | succ i ih =>
    rw [← Nat.add_assoc, previous?, previous?, h.isComment_ahead]
    split
    · exact ih
    · rfl

theorem startsLine_ahead (i : Nat) :
    (s'.is (k + i) "#" && s'.startsLine (k + i)) = (s.is i "#" && s.startsLine i) := by
  rw [h.is_ahead]
  cases hash : s.is i "#" with
  | false => rfl
  | true =>
    have hlt := lt_size_of_is hash
    rw [Bool.true_and, Bool.true_and, startsLine, startsLine, h.previous?_ahead]
    cases hp : s.previous? i with
    | none => exact decide_eq_true (h.line hlt)
    | some p => exact decide_eq_decide.2 (h.lines (lt_of_previous? hp) hlt)

/-- A `~` that makes a name that of a destructor stands in the text. -/
theorem isDestructor_ahead (i : Nat) :
    (decide (0 < k + i) && s'.is (k + i - 1) "~") = (decide (0 < i) && s.is (i - 1) "~") := by
  cases i with
  | zero =>
    have htilde : s'.is (k + 0 - 1) "~" = false := h.closed "~" (by decide)
    rw [htilde, Bool.and_false]
    rfl
  | succ i =>
    have hpos : 0 < k + (i + 1) := Nat.succ_pos (k + i)
    rw [show k + (i + 1) - 1 = k + i from rfl, h.is_ahead, decide_eq_true hpos,
      decide_eq_true (Nat.succ_pos i)]
    rfl

theorem nameStart_ahead (i : Nat) : s'.nameStart (k + i) = k + s.nameStart i := by
  rw [nameStart, nameStart, h.isDestructor_ahead]
  split
  · rename_i htilde
    simp only [Bool.and_eq_true, decide_eq_true_eq] at htilde
    exact Nat.add_sub_assoc htilde.1 k
  · rfl

/-! ## Joined spellings -/

theorem joinFrom_ahead (i n : Nat) : s'.joinFrom (k + i) n = s.joinFrom i n := by
  induction n generalizing i with
  | zero => rfl
  | succ n ih =>
    cases n with
    | zero => exact h.spelling i
    | succ n => rw [joinFrom, joinFrom, h.spelling, h.touches, Nat.add_assoc, ih]

theorem join_ahead (i j : Nat) : s'.join (k + i) (k + j) = s.join i j := by
  rw [join, join, Nat.add_sub_add_left, h.joinFrom_ahead]

theorem concatFrom_ahead (i n : Nat) : s'.concatFrom (k + i) n = s.concatFrom i n := by
  induction n generalizing i with
  | zero => rfl
  | succ n ih => rw [concatFrom, concatFrom, h.spelling, Nat.add_assoc, ih]

/-! ## Brackets -/

theorem openingAt_ahead (i : Nat) : s'.openingAt (k + i) = s.openingAt i := by
  simp only [openingAt, h.spelling]

theorem opensGroup_ahead (i : Nat) : s'.opensGroup (k + i) = s.opensGroup i := by
  simp only [opensGroup, h.is_ahead]

theorem closeFrom_ahead (opening closing : String) (depth i : Nat) :
    s'.closeFrom opening closing depth (k + i) =
      (s.closeFrom opening closing depth i).map (k + ·) := by
  fun_induction closeFrom s opening closing depth i with
  | case1 depth i hlt hopen ih =>
    rw [closeFrom, if_pos (h.lt_size.2 hlt), h.spelling, if_pos hopen]
    exact ih
  | case2 depth i hlt hopen hclose hdepth =>
    rw [closeFrom, if_pos (h.lt_size.2 hlt), h.spelling, if_neg hopen, if_pos hclose,
      if_pos hdepth]
    rfl
  | case3 depth i hlt hopen hclose hdepth ih =>
    rw [closeFrom, if_pos (h.lt_size.2 hlt), h.spelling, if_neg hopen, if_pos hclose,
      if_neg hdepth]
    exact ih
  | case4 depth i hlt hopen hclose ih =>
    rw [closeFrom, if_pos (h.lt_size.2 hlt), h.spelling, if_neg hopen, if_neg hclose]
    exact ih
  | case5 depth i hlt =>
    rw [closeFrom, if_neg (mt h.lt_size.1 hlt)]
    rfl

theorem close?_ahead (i : Nat) : s'.close? (k + i) = (s.close? i).map (k + ·) := by
  rw [close?, close?, h.openingAt_ahead, h.closeFrom_ahead]

theorem groupEnd_ahead (i : Nat) : s'.groupEnd (k + i) = k + s.groupEnd i := by
  rw [groupEnd, groupEnd, h.close?_ahead, h.size_pred]
  cases s.close? i <;> rfl

theorem groupNotes_ahead (i : Nat) :
    s'.groupNotes (k + i) = (s.groupNotes i).map (Note.map (k + ·)) := by
  rw [groupNotes, groupNotes, h.close?_ahead, h.openingAt_ahead]
  cases s.close? i <;> rfl

theorem depthAfter_ahead (i : Nat) (depth : Int) :
    s'.depthAfter (k + i) depth = s.depthAfter i depth := by
  simp only [depthAfter, h.spelling]

theorem angleDepthAfter_ahead (i depth : Nat) :
    s'.angleDepthAfter (k + i) depth = s.angleDepthAfter i depth := by
  simp only [angleDepthAfter, h.spelling]

/-! ## Template arguments and statements -/

theorem angleEndFrom_ahead {depth : Nat} {brackets : Int} (hi : 0 < i) :
    s'.angleEndFrom depth brackets (k + i) = k + s.angleEndFrom depth brackets i := by
  fun_induction angleEndFrom s depth brackets i with
  | case1 depth brackets i hlt hbrackets ih =>
    rw [angleEndFrom, if_pos (h.lt_size.2 hlt), h.depthAfter_ahead, if_pos hbrackets]
    exact ih (Nat.succ_pos i)
  | case2 depth brackets i hlt hbrackets hsemi =>
    rw [angleEndFrom, if_pos (h.lt_size.2 hlt), h.depthAfter_ahead, if_neg hbrackets, h.spelling,
      if_pos hsemi, Nat.add_sub_assoc hi]
  | case3 depth brackets i hlt hbrackets hsemi hclose =>
    rw [angleEndFrom, if_pos (h.lt_size.2 hlt), h.depthAfter_ahead, if_neg hbrackets, h.spelling,
      if_neg hsemi, h.angleDepthAfter_ahead, if_pos hclose]
  | case4 depth brackets i hlt hbrackets hsemi hclose ih =>
    rw [angleEndFrom, if_pos (h.lt_size.2 hlt), h.depthAfter_ahead, if_neg hbrackets, h.spelling,
      if_neg hsemi, h.angleDepthAfter_ahead, if_neg hclose]
    exact ih (Nat.succ_pos i)
  | case5 depth brackets i hlt =>
    rw [angleEndFrom, if_neg (mt h.lt_size.1 hlt), h.size_pred]

theorem angleEnd_ahead (i : Nat) : s'.angleEnd (k + i) = k + s.angleEnd i :=
  h.angleEndFrom_ahead (Nat.succ_pos i)

/-- **A statement that does not begin the text ends where it does alone.** -/
theorem statementEnd_ahead (hi : 0 < i) :
    (s'.statementEnd (k + i)).index = k + (s.statementEnd i).index := by
  fun_induction statementEnd s i with
  | case1 i hlt hsemi =>
    rw [statementEnd, if_pos (h.lt_size.2 hlt), h.spelling, if_pos hsemi]
  | case2 i hlt hsemi hopen r ih =>
    rw [statementEnd, if_pos (h.lt_size.2 hlt), h.spelling, if_neg hsemi, h.opensGroup_ahead,
      if_pos hopen, h.groupEnd_ahead]
    exact ih (Nat.succ_pos _)
  | case3 i hlt hsemi hopen hclose =>
    rw [statementEnd, if_pos (h.lt_size.2 hlt), h.spelling, if_neg hsemi, h.opensGroup_ahead,
      if_neg hopen, if_pos hclose]
    exact Nat.add_sub_assoc hi k
  | case4 i hlt hsemi hopen hclose ih =>
    rw [statementEnd, if_pos (h.lt_size.2 hlt), h.spelling, if_neg hsemi, h.opensGroup_ahead,
      if_neg hopen, if_neg hclose]
    exact ih (Nat.succ_pos i)
  | case5 i hlt =>
    rw [statementEnd, if_neg (mt h.lt_size.1 hlt)]
    exact h.size_pred

/-! ## Names -/

theorem declaredNames_ahead (depth : Int) (outside inside : Option Nat) (i n : Nat) :
    s'.declaredNames depth (outside.map (k + ·)) (inside.map (k + ·)) (k + i) n =
      ((s.declaredNames depth outside inside i n).1.map (k + ·),
        (s.declaredNames depth outside inside i n).2.map (k + ·)) := by
  induction n generalizing depth outside inside i with
  | zero => rfl
  | succ n ih =>
    rw [declaredNames, declaredNames]
    simp only [h.depthAfter_ahead, h.spelling, h.isIdentifier_ahead, Nat.add_assoc]
    split
    · exact ih ..
    split
    · rfl
    split
    · split
      · exact ih _ (some i) _ _
      · have hinside : (inside.map (k + ·) <|> some (k + i)) = (inside <|> some i).map (k + ·) := by
          cases inside <;> rfl
        rw [hinside]
        exact ih ..
    · exact ih ..

theorem declaredName?_ahead (first stop : Nat) :
    s'.declaredName? (k + first) (k + stop) = (s.declaredName? first stop).map (k + ·) := by
  have hnames := h.declaredNames_ahead 0 none none first (stop - first)
  simp only [Option.map_none] at hnames
  simp only [declaredName?, Nat.add_sub_add_left, hnames]
  exact ShapeState.map_orElse ..

/-! ## Qualifiers -/

theorem angleDepthBefore_ahead (i : Nat) (depth : Int) :
    s'.angleDepthBefore (k + i) depth = s.angleDepthBefore i depth := by
  simp only [angleDepthBefore, h.spelling]

/-- Counting back that goes on ahead of the text does not come to a depth of zero there. -/
theorem angleStart_front {depth : Int} (hdepth : depth ≠ 0) (hi : i < k) :
    s'.angleStart depth i = 0 := by
  induction i with
  | zero => exact Nat.le_zero.1 (angleStart_le depth 0)
  | succ i ih =>
    have hsigns := h.angles (i + 1) hi
    simp only [List.mem_cons, List.not_mem_nil, or_false, not_or] at hsigns
    have hsame : s'.angleDepthBefore (i + 1) depth = depth := by
      simp only [angleDepthBefore, hsigns, if_false]
    rw [angleStart_eq s' depth (Nat.succ_pos i), hsame, if_neg hdepth]
    exact ih (Nat.lt_of_succ_lt hi)

/-- Template arguments that do not begin the text begin where they do alone. -/
theorem angleStart_ahead {depth : Int} (hpos : 0 < s.angleStart depth i) :
    s'.angleStart depth (k + i) = k + s.angleStart depth i := by
  induction i generalizing depth with
  | zero => exact absurd hpos (Nat.not_lt_of_le (angleStart_le depth 0))
  | succ i ih =>
    rw [angleStart_eq s depth (Nat.succ_pos i)] at hpos ⊢
    rw [angleStart_eq s' depth (Nat.lt_of_lt_of_le (Nat.succ_pos i) (Nat.le_add_left _ k)),
      h.angleDepthBefore_ahead]
    split
    · rfl
    · rename_i hdepth
      rw [if_neg hdepth] at hpos
      exact ih hpos

/-- Template arguments that are not opened in the text are not opened ahead of it. -/
theorem angleStart_open {depth : Int} (hless : s.is 0 "<" = false)
    (hdepth : 0 < depth ∨ depth = 0 ∧ s.spelling i = ">") (hzero : s.angleStart depth i = 0) :
    s'.angleStart depth (k + i) = 0 := by
  obtain ⟨hnonneg, hsign⟩ := angleDepthBefore_nonneg hdepth
  -- the count is above zero where the text begins: at zero it would have come to a `<`
  rw [angleStart_eq s' depth (Nat.lt_of_lt_of_le h.some_ahead (Nat.le_add_right k i)),
    h.angleDepthBefore_ahead]
  induction i generalizing depth with
  | zero =>
    have hpos := h.some_ahead
    have hbefore : s.angleDepthBefore 0 depth ≠ 0 := by
      intro hbefore
      rw [is, hsign hbefore, decide_eq_true h.pos] at hless
      cases hless
    rw [if_neg hbefore]
    exact h.angleStart_front hbefore (by omega)
  | succ i ih =>
    rw [angleStart_eq s depth (Nat.succ_pos i)] at hzero
    by_cases hbefore : s.angleDepthBefore (i + 1) depth = 0
    · rw [if_pos hbefore] at hzero
      cases hzero
    · rw [if_neg hbefore] at hzero ⊢
      have hdepth : 0 < s.angleDepthBefore (i + 1) depth := by omega
      obtain ⟨hnonneg, hsign⟩ := angleDepthBefore_nonneg (s := s) (i := i) (.inl hdepth)
      have hnext := ih (.inl hdepth) hzero hnonneg hsign
      rwa [← h.angleDepthBefore_ahead, ← angleStart_eq s' _
        (Nat.lt_of_lt_of_le h.some_ahead (Nat.le_add_right k i))] at hnext

/-- A part of a qualifier is found where it is alone. -/
theorem qualifierPart?_ahead
    (hlook : s.is 0 "::" = true ∨ s.is 0 "<" = true → 0 < s.qualifierReach i) :
    s'.qualifierPart? (k + i) = (s.qualifierPart? i).map (k + ·) := by
  have hpos := h.some_ahead
  -- a part takes two lexemes: in front of the first two, what stands ahead is asked
  match i with
  | 0 =>
    have hcolons : s'.is (k + 0 - 1) "::" = false := h.closed "::" (by decide)
    rw [qualifierPart?, hcolons, Bool.and_false]
    rfl
  | 1 =>
    have hnone : s.qualifierPart? 1 = none := rfl
    have hcolons : s.is 0 "::" = false := by
      rw [Bool.eq_false_iff]
      intro hcolons
      have hreach := hlook (.inl hcolons)
      rw [qualifierReach_none hnone] at hreach
      exact Nat.lt_irrefl 0 hreach
    rw [hnone, qualifierPart?, Nat.add_sub_cancel, ← Nat.add_zero k, h.is_ahead, hcolons,
      Bool.and_false]
    rfl
  | i + 2 =>
    have htwo : decide (2 ≤ k + (i + 2)) = decide (2 ≤ i + 2) := decide_eq_decide.2 (by omega)
    rw [qualifierPart?, qualifierPart?, htwo, show k + (i + 2) - 1 = k + (i + 1) by omega,
      show k + (i + 2) - 2 = k + i by omega, h.is_ahead, h.is_ahead, h.isIdentifier_ahead,
      show i + 2 - 1 = i + 1 from rfl, Nat.add_sub_cancel]
    split
    · rename_i hcolons
      simp only [Bool.and_eq_true] at hcolons
      split
      · rename_i hgreater
        rcases Nat.eq_zero_or_pos (s.angleStart 0 i) with hzero | hstart
        · have hless : s.is 0 "<" = false := by
            rw [Bool.eq_false_iff]
            intro hless
            have hreach := hlook (.inr hless)
            rw [qualifierReach_open hcolons.2 hgreater hzero] at hreach
            exact Nat.lt_irrefl 0 hreach
          rw [h.angleStart_open hless (.inr ⟨rfl, spelling_of_is hgreater⟩) hzero, hzero]
          rfl
        · have hne : s.angleStart 0 i ≠ 0 := Nat.ne_of_gt hstart
          have hne' : k + s.angleStart 0 i ≠ 0 := by omega
          rw [h.angleStart_ahead hstart, if_neg hne', if_neg hne, Nat.add_sub_assoc hstart,
            h.isIdentifier_ahead]
          split <;> rfl
      · split <;> rfl
    · rfl

theorem qualifierFrom_ahead (names : List String)
    (hlook : s.is 0 "::" = true ∨ s.is 0 "<" = true → 0 < s.qualifierReach i) :
    s'.qualifierFrom names (k + i) = s.qualifierFrom names i := by
  induction i using Nat.strongRecOn generalizing names with
  | ind i ih =>
    rw [qualifierFrom_eq s', qualifierFrom_eq s, h.qualifierPart?_ahead hlook]
    cases hp : s.qualifierPart? i with
    | none => rfl
    | some p =>
      rw [qualifierReach_some hp] at hlook
      simp only [Option.map_some, h.spelling]
      exact ih p (lt_of_qualifierPart? hp) _ hlook

/-- **A name is qualified as it is alone**, unless its scopes are looked for ahead of the text. -/
theorem qualifierOf_ahead (hlook : ¬ s.LooksAhead i) :
    s'.qualifierOf (k + i) = s.qualifierOf i := by
  change s'.qualifierFrom [] (s'.nameStart (k + i)) = s.qualifierFrom [] (s.nameStart i)
  rw [h.nameStart_ahead]
  exact h.qualifierFrom_ahead [] fun hfirst =>
    Nat.pos_of_ne_zero fun hreach => hlook ⟨hfirst, hreach⟩

end Ahead

end Source

end DocIndex
