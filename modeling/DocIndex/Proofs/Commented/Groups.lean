import DocIndex.Proofs.Commented.Source
import DocIndex.Proofs.Renumbered

/-!
# Groups and statements with one comment more

What searches for a closing bracket, the end of a statement or a name passes over a comment: it
finds the lexeme that it finds without the comment.

* `groupEnd_past`, `angleEnd_past`, `statementEnd_past` — where groups and statements end.
* `declaredName?_past`, `qualifierOf_past` — what is named there, and by what it is qualified.
-/

namespace DocIndex

namespace Source

/-- What opens a group or ends a statement. -/
def statementMarks : List String :=
  ["(", "[", "\x7b", "\x7d", ";"]

/-- No mark begins like a word. -/
theorem isWordStart_statementMarks : ∀ word ∈ statementMarks,
    word.toList.head?.any Lexer.isWordStart = false := by
  decide

theorem statementEnd_succ {s : Source} {i : Nat} (hi : i < s.size)
    (hword : ∀ word ∈ statementMarks, s.spelling i ≠ word) :
    s.statementEnd i = s.statementEnd (i + 1) := by
  have hopen : s.opensGroup i = false := by
    simp only [opensGroup, is, Bool.or_eq_false_iff, Bool.and_eq_false_iff, beq_eq_false_iff_ne]
    exact ⟨⟨.inr (hword "(" (by decide)), .inr (hword "[" (by decide))⟩,
      .inr (hword "\x7b" (by decide))⟩
  rw [statementEnd, if_pos hi, if_neg (hword ";" (by decide)), hopen, if_neg Bool.false_ne_true,
    if_neg (hword "\x7d" (by decide))]

/-- A statement that nothing is wrong with ends with a `;`. -/
theorem statementEnd_sound {s : Source} {i : Nat} (hn : (s.statementEnd i).notes = []) :
    s.spelling (s.statementEnd i).index = ";" ∧ i ≤ (s.statementEnd i).index := by
  fun_induction statementEnd s i with
  | case1 i hi hsemi => exact ⟨hsemi, Nat.le_refl i⟩
  | case2 i hi hsemi hopen r ih =>
    have := le_groupEnd hi
    obtain ⟨hr, hle⟩ := ih (List.append_eq_nil_iff.1 hn).2
    exact ⟨hr, by simp only [r] at *; omega⟩
  | case3 i hi hsemi hopen hclose => cases hn
  | case4 i hi hsemi hopen hclose ih =>
    obtain ⟨hr, hle⟩ := ih hn
    exact ⟨hr, by omega⟩
  | case5 i hi => cases hn

namespace Commented

variable {s s' : Source} {k i i' : Nat} (h : s.Commented s' k)
include h

/-! ## Brackets -/

theorem openingAt_past (i : Nat) : s'.openingAt (past k i) = s.openingAt i := by
  simp only [openingAt, h.spelling]

theorem opensGroup_past (i : Nat) : s'.opensGroup (past k i) = s.opensGroup i := by
  simp only [opensGroup, h.is_past]

theorem opensGroup_comment : s'.opensGroup k = false := by
  simp (disch := decide) only [opensGroup, h.is_comment, Bool.or_self]

theorem spelling_ne_openingAt (i : Nat) : s'.spelling k ≠ s.openingAt i := by
  unfold openingAt
  split
  · exact h.spelling_ne (by decide)
  split
  · exact h.spelling_ne (by decide)
  · exact h.spelling_ne (by decide)

theorem spelling_ne_closingOf (opening : String) : s'.spelling k ≠ closingOf opening := by
  unfold closingOf
  split
  · exact h.spelling_ne (by decide)
  split
  · exact h.spelling_ne (by decide)
  · exact h.spelling_ne (by decide)

theorem closeFrom_past {opening closing : String} (ho : s'.spelling k ≠ opening)
    (hc : s'.spelling k ≠ closing) (depth i : Nat) :
    s'.closeFrom opening closing depth (past k i) =
      (s.closeFrom opening closing depth i).map (past k) := by
  have hcomment (depth : Nat) : s'.closeFrom opening closing depth k =
      s'.closeFrom opening closing depth (k + 1) := by
    rw [closeFrom, if_pos h.lt_size, if_neg ho, if_neg hc]
  have hnext (depth i : Nat) := (abreast_succ k i).congr (hcomment depth)
  fun_induction closeFrom s opening closing depth i with
  | case1 depth i hi hopen ih =>
    rw [closeFrom, if_pos (h.lt_size_past.2 hi), h.spelling, if_pos hopen, hnext, ih]
  | case2 depth i hi hopen hclose hdepth =>
    rw [closeFrom, if_pos (h.lt_size_past.2 hi), h.spelling, if_neg hopen, if_pos hclose,
      if_pos hdepth]
    rfl
  | case3 depth i hi hopen hclose hdepth ih =>
    rw [closeFrom, if_pos (h.lt_size_past.2 hi), h.spelling, if_neg hopen, if_pos hclose,
      if_neg hdepth, hnext, ih]
  | case4 depth i hi hopen hclose ih =>
    rw [closeFrom, if_pos (h.lt_size_past.2 hi), h.spelling, if_neg hopen, if_neg hclose, hnext, ih]
  | case5 depth i hi =>
    rw [closeFrom, if_neg (mt h.lt_size_past.1 hi)]
    rfl

theorem close?_past (i : Nat) : s'.close? (past k i) = (s.close? i).map (past k) := by
  rw [close?, close?, h.openingAt_past]
  exact h.closeFrom_past (h.spelling_ne_openingAt i) (h.spelling_ne_closingOf _) 0 i

/-- **A group ends where it does without the comment.** -/
theorem groupEnd_past (i : Nat) : s'.groupEnd (past k i) = past k (s.groupEnd i) := by
  rw [groupEnd, groupEnd, h.close?_past]
  cases s.close? i with
  | none =>
    have := h.lt
    rw [Option.map_none, Option.getD_none, Option.getD_none, h.size, past_of_le (by omega)]
    omega
  | some e => rfl

theorem groupNotes_past (i : Nat) :
    s'.groupNotes (past k i) = (s.groupNotes i).map (Note.map (past k)) := by
  rw [groupNotes, groupNotes, h.close?_past, h.openingAt_past]
  cases s.close? i <;> rfl

theorem depthAfter_past (i : Nat) (depth : Int) :
    s'.depthAfter (past k i) depth = s.depthAfter i depth := by
  simp only [depthAfter, h.spelling]

theorem depthAfter_comment (depth : Int) : s'.depthAfter k depth = depth := by
  simp (disch := decide) only [depthAfter, h.spelling_ne, decide_false, Bool.or_self,
    Bool.false_eq_true, if_false]

theorem angleDepthAfter_past (i depth : Nat) :
    s'.angleDepthAfter (past k i) depth = s.angleDepthAfter i depth := by
  simp only [angleDepthAfter, h.spelling]

theorem angleDepthAfter_comment (depth : Nat) : s'.angleDepthAfter k depth = depth := by
  simp (disch := decide) only [angleDepthAfter, h.spelling_ne, if_false]

theorem angleEndFrom_comment {depth : Nat} (hdepth : depth ≠ 0) (brackets : Int) :
    s'.angleEndFrom depth brackets k = s'.angleEndFrom depth brackets (k + 1) := by
  rw [angleEndFrom, if_pos h.lt_size, h.depthAfter_comment, h.angleDepthAfter_comment,
    if_neg (h.spelling_ne (by decide)), if_neg hdepth]
  split <;> rfl

/-- Template arguments end where they do without the comment, or, if a `;` cuts them off behind the
comment, with the comment. -/
theorem angleEndFrom_past {depth : Nat} {brackets : Int} (hdepth : depth ≠ 0) (hi : 0 < i) :
    Abreast k (s.angleEndFrom depth brackets i + 1)
      (s'.angleEndFrom depth brackets (past k i) + 1) := by
  fun_induction angleEndFrom s depth brackets i with
  | case1 depth brackets i hlt hbrackets ih =>
    rw [angleEndFrom.eq_def s', if_pos (h.lt_size_past.2 hlt), h.depthAfter_past, if_pos hbrackets,
      (abreast_succ k i).congr (h.angleEndFrom_comment hdepth _)]
    exact ih hdepth (by omega)
  | case2 depth brackets i hlt hbrackets hsemi =>
    rw [angleEndFrom.eq_def s', if_pos (h.lt_size_past.2 hlt), h.depthAfter_past, if_neg hbrackets,
      h.spelling, if_pos hsemi]
    have := past_cases k i
    have := h.pos
    rw [Nat.sub_add_cancel hi, Nat.sub_add_cancel (by omega)]
    exact abreast_past k i
  | case3 depth brackets i hlt hbrackets hsemi hclose =>
    rw [angleEndFrom.eq_def s', if_pos (h.lt_size_past.2 hlt), h.depthAfter_past, if_neg hbrackets,
      h.spelling, if_neg hsemi, h.angleDepthAfter_past, if_pos hclose]
    exact abreast_succ k i
  | case4 depth brackets i hlt hbrackets hsemi hclose ih =>
    rw [angleEndFrom.eq_def s', if_pos (h.lt_size_past.2 hlt), h.depthAfter_past, if_neg hbrackets,
      h.spelling, if_neg hsemi, h.angleDepthAfter_past, if_neg hclose,
      (abreast_succ k i).congr (h.angleEndFrom_comment hclose _)]
    exact ih hclose (by omega)
  | case5 depth brackets i hlt =>
    rw [angleEndFrom.eq_def s', if_neg (mt h.lt_size_past.1 hlt), h.size]
    have := h.lt
    exact .inl (by rw [past_of_le (by omega)]; omega)

theorem angleEnd_past (i : Nat) :
    Abreast k (s.angleEnd i + 1) (s'.angleEnd (past k i) + 1) := by
  rw [angleEnd, angleEnd, (abreast_succ k i).congr (h.angleEndFrom_comment Nat.one_ne_zero 0)]
  exact h.angleEndFrom_past Nat.one_ne_zero (Nat.succ_pos i)

/-! ## Statements -/

theorem statementEnd_comment : s'.statementEnd k = s'.statementEnd (k + 1) := by
  rw [statementEnd, if_pos h.lt_size, if_neg (h.spelling_ne (by decide)), h.opensGroup_comment,
    if_neg Bool.false_ne_true, if_neg (h.spelling_ne (by decide))]

/-- **A statement ends with the `;` that it ends with without the comment.** -/
theorem statementEnd_past (hn : (s.statementEnd i).notes = []) (hi : Abreast k i i') :
    (s'.statementEnd i').index = past k (s.statementEnd i).index := by
  rw [hi.congr h.statementEnd_comment]
  clear hi
  fun_induction statementEnd s i with
  | case1 i hlt hsemi =>
    rw [statementEnd, if_pos (h.lt_size_past.2 hlt), h.spelling, if_pos hsemi]
  | case2 i hlt hsemi hopen r ih =>
    rw [statementEnd, if_pos (h.lt_size_past.2 hlt), h.spelling, if_neg hsemi, h.opensGroup_past,
      if_pos hopen, h.groupEnd_past]
    simp only
    rw [(abreast_succ k _).congr h.statementEnd_comment]
    exact ih (List.append_eq_nil_iff.1 hn).2
  | case3 i hlt hsemi hopen hclose => cases hn
  | case4 i hlt hsemi hopen hclose ih =>
    rw [statementEnd, if_pos (h.lt_size_past.2 hlt), h.spelling, if_neg hsemi, h.opensGroup_past,
      if_neg hopen, if_neg hclose, (abreast_succ k _).congr h.statementEnd_comment]
    exact ih hn
  | case5 i hlt => cases hn

/-! ## Names -/

theorem declaredNames_comment (depth : Int) (outside inside : Option Nat) (n : Nat) :
    s'.declaredNames depth outside inside k (n + 1) =
      s'.declaredNames depth outside inside (k + 1) n := by
  rw [declaredNames]
  simp (disch := decide) only [h.depthAfter_comment, h.spelling_ne, h.isIdentifier_comment,
    ne_eq, not_true_eq_false, if_false, decide_false, Bool.or_self, Bool.false_and,
    Bool.false_eq_true]

theorem declaredNames_past (depth : Int) (outside inside : Option Nat) (i n : Nat) :
    s'.declaredNames depth (outside.map (past k)) (inside.map (past k)) (past k i)
        (past k (i + n) - past k i) =
      ((s.declaredNames depth outside inside i n).1.map (past k),
        (s.declaredNames depth outside inside i n).2.map (past k)) := by
  induction n generalizing i depth outside inside with
  | zero => rw [Nat.add_zero, Nat.sub_self]; rfl
  | succ n ih =>
    -- what is left behind lexeme `i` begins with the comment or behind it
    have hnext (depth : Int) (outside inside : Option Nat) :
        s'.declaredNames depth outside inside (past k i + 1) (past k (i + 1 + n) - (past k i + 1)) =
          s'.declaredNames depth outside inside (past k (i + 1))
            (past k (i + 1 + n) - past k (i + 1)) := by
      by_cases hk : i + 1 = k
      · rw [past_of_lt (show i < k by omega), past_of_le (show k ≤ i + 1 by omega),
          past_of_le (show k ≤ i + 1 + n by omega), hk,
          show k + n + 1 - k = (k + n + 1 - (k + 1)) + 1 by omega, h.declaredNames_comment]
      · rw [past_succ hk]
    have hcount : past k (i + (n + 1)) - past k i = past k (i + 1 + n) - (past k i + 1) + 1 := by
      rw [show i + (n + 1) = i + 1 + n by omega]
      have := (past_lt_past (k := k)).2 (show i < i + 1 + n by omega)
      omega
    rw [hcount, declaredNames, declaredNames]
    simp only [h.depthAfter_past, h.spelling, h.isIdentifier_past, hnext]
    split
    · exact ih _ _ _ _
    split
    · rfl
    split
    · split
      · exact ih _ (some i) _ _
      · have hinside : (inside.map (past k) <|> some (past k i)) =
            (inside <|> some i).map (past k) := by
          cases inside <;> rfl
        rw [hinside]
        exact ih _ _ _ _
    · exact ih _ _ _ _

/-- **A declarator names what it names without the comment.** -/
theorem declaredName?_past (hi : Abreast k i i') (stop : Nat) :
    s'.declaredName? i' (past k stop) = (s.declaredName? i stop).map (past k) := by
  have hcount : s'.declaredNames 0 none none i' (past k stop - i') =
      s'.declaredNames 0 none none (past k i) (past k (i + (stop - i)) - past k i) := by
    have := past_cases k stop
    have := past_cases k i
    have := past_cases k (i + (stop - i))
    rcases hi with rfl | ⟨hk, hk'⟩
    · congr 1; omega
    · by_cases hstop : i ≤ stop
      · rw [hk', show past k stop - k = stop - i + 1 by omega, h.declaredNames_comment]
        congr 1 <;> omega
      · rw [show past k stop - i' = 0 by omega,
          show past k (i + (stop - i)) - past k i = 0 by omega]
        rfl
  have hnames := h.declaredNames_past 0 none none i (stop - i)
  simp only [Option.map_none] at hnames
  simp only [declaredName?]
  rw [hcount, hnames]
  cases (s.declaredNames 0 none none i (stop - i)).1 <;> rfl

/-! ## Qualifiers -/

end Commented

/-- The depth of angle brackets in front of a lexeme, from the depth behind it. -/
def angleDepthBefore (s : Source) (i : Nat) (depth : Int) : Int :=
  if s.spelling i = ">" then depth + 1
  else if s.spelling i = ">>" then depth + 2
  else if s.spelling i = "<" then depth - 1
  else depth

theorem angleStart_eq (s : Source) (depth : Int) {i : Nat} (hi : 0 < i) :
    s.angleStart depth i =
      if s.angleDepthBefore i depth = 0 then i
      else s.angleStart (s.angleDepthBefore i depth) (i - 1) := by
  obtain ⟨j, rfl⟩ : ∃ j, i = j + 1 := ⟨i - 1, by omega⟩
  rfl

/-- Inside of template arguments the depth comes to zero at a `<` only. -/
theorem angleDepthBefore_nonneg {s : Source} {depth : Int} {i : Nat}
    (hdepth : 0 < depth ∨ depth = 0 ∧ s.spelling i = ">") :
    0 ≤ s.angleDepthBefore i depth ∧ (s.angleDepthBefore i depth = 0 → s.spelling i = "<") := by
  unfold angleDepthBefore
  rcases hdepth with hpos | ⟨rfl, hgreater⟩
  · (repeat' split) <;> exact ⟨by omega, fun _ => by first | assumption | omega⟩
  · rw [if_pos hgreater]
    exact ⟨by omega, fun _ => by omega⟩

/-- Template arguments begin with a `<`, or at the front of the text. -/
theorem spelling_angleStart {s : Source} {depth : Int} {i : Nat}
    (hdepth : 0 < depth ∨ depth = 0 ∧ s.spelling i = ">") (hi : s.angleStart depth i ≠ 0) :
    s.spelling (s.angleStart depth i) = "<" := by
  induction i generalizing depth with
  | zero => exact absurd rfl hi
  | succ i ih =>
    have hbefore := angleDepthBefore_nonneg hdepth
    rw [angleStart_eq s depth (show 0 < i + 1 by omega)] at hi ⊢
    split at hi
    · rename_i hzero
      rw [if_pos hzero]
      exact hbefore.2 hzero
    · rename_i hzero
      rw [if_neg hzero]
      exact ih (.inl (by omega)) hi

namespace Commented

variable {s s' : Source} {k : Nat} (h : s.Commented s' k)
include h

theorem angleDepthBefore_past (i : Nat) (depth : Int) :
    s'.angleDepthBefore (past k i) depth = s.angleDepthBefore i depth := by
  simp only [angleDepthBefore, h.spelling]

theorem angleStart_comment {depth : Int} (hdepth : depth ≠ 0) :
    s'.angleStart depth k = s'.angleStart depth (k - 1) := by
  have hbefore : s'.angleDepthBefore k depth = depth := by
    simp (disch := decide) only [angleDepthBefore, h.spelling_ne, if_false]
  rw [angleStart_eq s' depth h.pos, hbefore, if_neg hdepth]

theorem angleStart_past (depth : Int) (i : Nat) :
    s'.angleStart depth (past k i) = past k (s.angleStart depth i) := by
  induction i generalizing depth with
  | zero =>
    rw [past_of_lt h.pos]
    exact (past_of_lt h.pos).symm
  | succ i ih =>
    have hpos : 0 < past k (i + 1) := by
      have := past_cases k (i + 1)
      omega
    rw [angleStart_eq s' depth hpos, angleStart_eq s depth (show 0 < i + 1 by omega),
      h.angleDepthBefore_past]
    split
    · rfl
    rename_i hdepth
    rw [Nat.add_sub_cancel, ← ih]
    by_cases hk : i + 1 = k
    · -- the comment stands in front
      rw [past_of_le (Nat.le_of_eq hk.symm), Nat.add_sub_cancel, past_of_lt (show i < k by omega)]
      have hback := h.angleStart_comment hdepth
      rwa [← hk, Nat.add_sub_cancel] at hback
    · rw [past_succ hk]
      rfl

end Commented

/-- The name in front of the `::` that ends before `i`, template arguments left out. -/
def qualifierPart? (s : Source) (i : Nat) : Option Nat :=
  if 2 ≤ i && s.is (i - 1) "::" then
    if s.is (i - 2) ">" then
      if s.angleStart 0 (i - 2) = 0 then none
      else if s.isIdentifier (s.angleStart 0 (i - 2) - 1) then some (s.angleStart 0 (i - 2) - 1)
      else none
    else if s.isIdentifier (i - 2) then some (i - 2)
    else none
  else none

theorem qualifierFrom_eq (s : Source) (names : List String) (i : Nat) :
    s.qualifierFrom names i =
      match s.qualifierPart? i with
      | some p => s.qualifierFrom (s.spelling p :: names) p
      | none => names := by
  rw [qualifierFrom, qualifierPart?]
  split
  · split
    · simp only
      split
      · rfl
      · split <;> rfl
    · split <;> rfl
  · rfl

theorem lt_of_qualifierPart? {s : Source} {i p : Nat} (hp : s.qualifierPart? i = some p) :
    p < i := by
  unfold qualifierPart? at hp
  have := angleStart_le (s := s) 0 (i - 2)
  split at hp
  · rename_i htwo
    simp only [Bool.and_eq_true, decide_eq_true_eq] at htwo
    split at hp
    · split at hp
      · cases hp
      · split at hp
        · simp only [Option.some.injEq] at hp; omega
        · cases hp
    · split at hp
      · simp only [Option.some.injEq] at hp; omega
      · cases hp
  · cases hp

namespace Commented

variable {s s' : Source} {k : Nat} (h : s.Commented s' k)
include h

omit h in
/-- Over the gap no name is qualified. -/
theorem qualifierPart?_gap (hl : s.Loose k) : s.qualifierPart? k = none := by
  rw [qualifierPart?, if_neg]
  simp only [is, Bool.and_eq_true, beq_iff_eq]
  exact fun hc => hl.before.1 hc.2.2

omit h in
/-- A `::` behind the gap qualifies nothing. -/
theorem qualifierPart?_gap_succ (hl : s.Loose k) : s.qualifierPart? (k + 1) = none := by
  rw [qualifierPart?]
  split
  · rename_i hcolons
    simp only [Bool.and_eq_true, is, beq_iff_eq, Nat.add_sub_cancel] at hcolons
    obtain ⟨hname, hgreater⟩ := hl.name (.inl hcolons.2.2)
    rw [show k + 1 - 2 = k - 1 by omega, if_neg, hname, if_neg Bool.false_ne_true]
    simp only [is, Bool.and_eq_true, beq_iff_eq]
    exact fun hc => hgreater hc.2
  · rfl

theorem qualifierPart?_comment : s'.qualifierPart? (k + 1) = none := by
  rw [qualifierPart?, Nat.add_sub_cancel, h.is_comment (by decide), Bool.and_false,
    if_neg Bool.false_ne_true]

theorem qualifierPart?_comment_succ : s'.qualifierPart? (k + 2) = none := by
  rw [qualifierPart?]
  simp (disch := decide) only [Nat.add_sub_cancel, h.is_comment, h.isIdentifier_comment,
    Bool.false_eq_true, if_false, ite_self]

theorem qualifierPart?_past (hl : s.Loose k) (i : Nat) :
    s'.qualifierPart? (past k i) = (s.qualifierPart? i).map (past k) := by
  have hkpos := h.pos
  by_cases hk : i = k
  · rw [hk, past_of_le (Nat.le_refl k), h.qualifierPart?_comment, qualifierPart?_gap hl]
    rfl
  by_cases hk' : i = k + 1
  · rw [hk', past_of_le (Nat.le_succ k), h.qualifierPart?_comment_succ, qualifierPart?_gap_succ hl]
    rfl
  have hcases := past_cases k i
  have htwo : decide (2 ≤ past k i) = decide (2 ≤ i) := decide_eq_decide.2 (by omega)
  by_cases hi : 2 ≤ i
  · have hback : past k i - 2 = past k (i - 2) := by
      have := past_cases k (i - 2)
      omega
    rw [qualifierPart?, qualifierPart?, htwo, past_pred (by omega) hk, hback, h.is_past, h.is_past,
      h.angleStart_past, h.isIdentifier_past]
    split
    · split
      · rename_i hgreater
        have hzero : past k (s.angleStart 0 (i - 2)) = 0 ↔ s.angleStart 0 (i - 2) = 0 := by
          have := past_cases k (s.angleStart 0 (i - 2))
          omega
        by_cases hfirst : s.angleStart 0 (i - 2) = 0
        · rw [if_pos hfirst, if_pos (hzero.2 hfirst)]
          rfl
        rw [if_neg hfirst, if_neg (mt hzero.1 hfirst)]
        by_cases hat : s.angleStart 0 (i - 2) = k
        · -- the comment stands in front of the template arguments
          simp only [is, Bool.and_eq_true, beq_iff_eq] at hgreater
          have hless := spelling_angleStart (.inr ⟨rfl, hgreater.2⟩) hfirst
          rw [hat] at hless
          rw [hat, past_of_le (Nat.le_refl k), Nat.add_sub_cancel, h.isIdentifier_comment,
            (hl.name (.inr hless)).1]
          rfl
        · rw [past_pred (by omega) hat, h.isIdentifier_past]
          split <;> rfl
      · split <;> rfl
    · rfl
  · rw [qualifierPart?, qualifierPart?, htwo, decide_eq_false hi, Bool.false_and, Bool.false_and]
    rfl

/-- **A name is qualified by what it is qualified by without the comment.** -/
theorem qualifierFrom_past (hl : s.Loose k) (names : List String) (i : Nat) :
    s'.qualifierFrom names (past k i) = s.qualifierFrom names i := by
  induction i using Nat.strongRecOn generalizing names with
  | ind i ih =>
    rw [qualifierFrom_eq s', qualifierFrom_eq s, h.qualifierPart?_past hl]
    cases hp : s.qualifierPart? i with
    | none => rfl
    | some p =>
      simp only [Option.map_some, h.spelling]
      exact ih p (lt_of_qualifierPart? hp) _

theorem qualifierOf_past (hl : s.Loose k) (i : Nat) :
    s'.qualifierOf (past k i) = s.qualifierOf i := by
  have hkpos := h.pos
  rw [qualifierOf, qualifierOf]
  by_cases hk : i = k
  · have htilde : s.is (k - 1) "~" = false := by
      simp only [is, Bool.and_eq_false_iff, beq_eq_false_iff_ne]
      exact .inr hl.before.2.1
    rw [hk, htilde, Bool.and_false, if_neg Bool.false_ne_true, past_of_le (Nat.le_refl k),
      Nat.add_sub_cancel, h.is_comment (by decide), Bool.and_false, if_neg Bool.false_ne_true,
      ← past_of_le (Nat.le_refl k), h.qualifierFrom_past hl]
  by_cases hi : 0 < i
  · have hpast : 0 < past k i := by have := past_cases k i; omega
    rw [decide_eq_true hi, decide_eq_true hpast, Bool.true_and, Bool.true_and, past_pred hi hk,
      h.is_past]
    split
    · exact h.qualifierFrom_past hl _ _
    · exact h.qualifierFrom_past hl _ _
  · obtain rfl : i = 0 := by omega
    have hfrom := h.qualifierFrom_past hl [] 0
    rw [past_of_lt hkpos] at hfrom ⊢
    exact hfrom

end Commented

end Source

end DocIndex
