import DocIndex.Outline.Reading

/-!
# Two sources that agree within a window

Two readings are compared where both of them read the same lexemes: from a lexeme of the first
source on, which has another number in the second one, and as far as the lexemes are seen to agree.
What is asked there of the one source is answered by the other one with the numbers moved.

* `Window` — where the sources are compared, and how the numbers are moved there.
* `Window.whole`, `Window.upTo`, `Window.startingAt` — the windows that are used.
* `Source.Agrees` — the sources agree within a window.
* `previous?_moved`, `startsLine_moved` — looking back goes no further than the window.
-/

namespace DocIndex

/-! ## Windows -/

/-- Where two sources are compared. -/
structure Window where
  /-- The lexeme of the first source that they are compared from. -/
  first : Nat
  /-- The same lexeme, in the second source. -/
  first' : Nat
  /-- The lexemes of the first source that are seen to agree, if they are no earlier. -/
  Seen : Nat → Prop
  seen_of_le : ∀ {i j : Nat}, Seen j → i ≤ j → Seen i
  /-- The second source is laid out anew: the numbers are the same, but lines are not compared. -/
  relaid : Bool
  still : relaid = true → first = 0
  zero : first = 0 ↔ first' = 0

namespace Window

variable (w : Window) {i j : Nat}

/-- The number in the second source of a lexeme in the window. -/
def moved (i : Nat) : Nat :=
  if i < w.first then i else i - w.first + w.first'

/-- In front of the lexeme stands another one in the window, or none at all. -/
def Behind (i : Nat) : Prop :=
  w.first < i ∨ w.first = 0

/-- The second number does for the first one where the sources are laid out anew. -/
def Same (i i' : Nat) : Prop :=
  w.relaid = true → i' = i

variable {w}

theorem moved_eq (hi : w.first ≤ i) : w.moved i = i - w.first + w.first' :=
  if_neg (Nat.not_lt_of_le hi)

theorem moved_add (hi : w.first ≤ i) (n : Nat) : w.moved (i + n) = w.moved i + n := by
  rw [moved_eq hi, moved_eq (Nat.le_add_right_of_le hi)]
  omega

theorem moved_succ (hi : w.first ≤ i) : w.moved (i + 1) = w.moved i + 1 :=
  moved_add hi 1

theorem moved_lt_moved (hi : w.first ≤ i) (hj : w.first ≤ j) :
    w.moved i < w.moved j ↔ i < j := by
  rw [moved_eq hi, moved_eq hj]
  omega

theorem moved_inj (hi : w.first ≤ i) (hj : w.first ≤ j) : w.moved i = w.moved j ↔ i = j := by
  rw [moved_eq hi, moved_eq hj]
  omega

theorem moved_sub (hi : w.first ≤ i) (hj : w.first ≤ j) : w.moved i - w.moved j = i - j := by
  rw [moved_eq hi, moved_eq hj]
  omega

theorem moved_max (hi : w.first ≤ i) (hj : w.first ≤ j) :
    w.moved (max i j) = max (w.moved i) (w.moved j) := by
  rw [moved_eq hi, moved_eq hj, moved_eq (Nat.le_trans hi (Nat.le_max_left i j))]
  omega

theorem Behind.le (hi : w.Behind i) : w.first ≤ i := by
  unfold Behind at hi
  omega

theorem Behind.mono (hi : w.Behind i) (hij : i ≤ j) : w.Behind j := by
  unfold Behind at hi ⊢
  omega

theorem Behind.le_pred (hi : w.Behind i) : w.first ≤ i - 1 := by
  unfold Behind at hi
  omega

theorem behind_succ (hi : w.first ≤ i) : w.Behind (i + 1) := by
  unfold Behind
  omega

theorem moved_pred (hi : w.Behind i) : w.moved (i - 1) = w.moved i - 1 := by
  have hzero := w.zero
  rw [moved_eq hi.le, moved_eq hi.le_pred]
  unfold Behind at hi
  omega

theorem moved_zero (w : Window) : w.moved 0 = 0 := by
  have hzero := w.zero
  unfold moved
  split <;> omega

theorem moved_pos (hi : w.Behind i) : 0 < w.moved i ↔ 0 < i := by
  have hzero := w.zero
  rw [moved_eq hi.le]
  unfold Behind at hi
  omega

theorem same_moved (i : Nat) : w.Same i (w.moved i) := by
  intro hw
  have hfirst := w.still hw
  have hfirst' := w.zero.1 hfirst
  rw [moved_eq (by omega)]
  omega

theorem Same.max {i' j' : Nat} (hi : w.Same i i') (hj : w.Same j j') :
    w.Same (max i j) (max i' j') := fun hw => by rw [hi hw, hj hw]

theorem Same.min {i' j' : Nat} (hi : w.Same i i') (hj : w.Same j j') :
    w.Same (min i j) (min i' j') := fun hw => by rw [hi hw, hj hw]

/-! ## Three windows -/

/-- The whole text is compared, whatever its lines are. -/
def whole : Window where
  first := 0
  first' := 0
  Seen _ := True
  seen_of_le := fun _ _ => trivial
  relaid := true
  still _ := rfl
  zero := Iff.rfl

/-- The texts are compared up to lexeme `last`. -/
def upTo (last : Nat) : Window where
  first := 0
  first' := 0
  Seen i := i ≤ last
  seen_of_le := fun hj hij => Nat.le_trans hij hj
  relaid := false
  still _ := rfl
  zero := Iff.rfl

/-- The texts are compared from two lexemes on, which are not the first ones. -/
def startingAt (first first' : Nat) (hpos : 0 < first) (hpos' : 0 < first') : Window where
  first := first
  first' := first'
  Seen _ := True
  seen_of_le := fun _ _ => trivial
  relaid := false
  still := fun hrelaid => Bool.noConfusion hrelaid
  zero := iff_of_false (Nat.ne_of_gt hpos) (Nat.ne_of_gt hpos')

theorem moved_whole (i : Nat) : whole.moved i = i :=
  rfl

theorem moved_upTo (last i : Nat) : (upTo last).moved i = i :=
  rfl

theorem moved_startingAt {first first' : Nat} {hpos : 0 < first} {hpos' : 0 < first'} (i : Nat) :
    (startingAt first first' hpos hpos').moved (first + i) = first' + i := by
  rw [moved_eq (Nat.le_add_right first i)]
  change first + i - first + first' = first' + i
  rw [Nat.add_sub_cancel_left, Nat.add_comm]

end Window

/-! ## Agreement -/

namespace Source

/-- Within the window the second source has the lexemes of the first one. -/
structure Agrees (w : Window) (s s' : Source) : Prop where
  lt_iff : ∀ {i}, w.first ≤ i → w.Seen i → (w.moved i < s'.size ↔ i < s.size)
  size : w.Seen s.size → s'.size = w.moved s.size
  behind_size : w.Behind s.size
  spelling : ∀ {i}, w.first ≤ i → w.Seen i → s'.spelling (w.moved i) = s.spelling i
  kind : ∀ {i}, w.first ≤ i → w.Seen i → s'.kind? (w.moved i) = s.kind? i
  touches : ∀ {i}, w.first ≤ i → w.Seen (i + 1) → s'.touchesNext (w.moved i) = s.touchesNext i
  /-- The window begins with a sign, or with the text. -/
  anchored : s.kind? w.first = some .punctuation ∨ w.first = 0
  /-- A text that is laid out anew has no preprocessor lines. -/
  hashless : w.relaid = true → ∀ i, s.is i "#" = false
  lines : w.relaid = false → ∀ {p i}, w.first ≤ p → p < i → w.Seen i →
    (s'.stopLine (w.moved p) < s'.startLine (w.moved i) ↔ s.stopLine p < s.startLine i)
  continues : w.relaid = false → ∀ {i}, w.first ≤ i → w.Seen (i + 1) →
    s'.lineContinues (w.moved i) = s.lineContinues i
  /-- Identifiers are words. -/
  word : ∀ {i}, s.isIdentifier i = true →
    ∃ c cs, (s.spelling i).toList = c :: cs ∧ Lexer.isWordStart c = true

namespace Agrees

variable {w : Window} {s s' : Source} (h : s.Agrees w s') {i : Nat}
include h

/-! ## What lexemes are -/

/-- Reading comes to the end of both sources. -/
theorem lt_size (hi : w.first ≤ i) (hs : w.Seen (min i s.size)) :
    w.moved i < s'.size ↔ i < s.size := by
  by_cases hlt : i < s.size
  · rw [Nat.min_eq_left (Nat.le_of_lt hlt)] at hs
    exact h.lt_iff hi hs
  · rw [Nat.min_eq_right (Nat.le_of_not_lt hlt)] at hs
    rw [h.size hs, Window.moved_lt_moved hi h.behind_size.le]

theorem size_pred (hs : w.Seen s.size) : s'.size - 1 = w.moved (s.size - 1) := by
  rw [h.size hs, Window.moved_pred h.behind_size]

theorem is_moved (hi : w.first ≤ i) (hs : w.Seen i) (word : String) :
    s'.is (w.moved i) word = s.is i word := by
  simp only [is, h.spelling hi hs, h.lt_iff hi hs]

theorem isIdentifier_moved (hi : w.first ≤ i) (hs : w.Seen i) :
    s'.isIdentifier (w.moved i) = s.isIdentifier i := by
  simp only [isIdentifier, h.kind hi hs]

theorem isComment_moved (hi : w.first ≤ i) (hs : w.Seen i) :
    s'.isComment (w.moved i) = s.isComment i := by
  simp only [isComment, h.kind hi hs]

theorem mark_moved (hi : w.first ≤ i) (hs : w.Seen i) : s'.mark (w.moved i) = s.mark i := by
  simp only [mark, h.spelling hi hs]

/-- An identifier is spelled like no sign. -/
theorem spelling_ne_of_isIdentifier (hi : s.isIdentifier i = true) {word : String}
    (hw : word.toList.head?.any Lexer.isWordStart = false) : s.spelling i ≠ word := by
  rintro rfl
  obtain ⟨c, cs, hcs, hc⟩ := h.word hi
  rw [hcs, List.head?_cons, Option.any_some, hc] at hw
  cases hw

/-- A text that has a preprocessor line is not laid out anew. -/
theorem lines_of_hash (hi : s.is i "#" = true) : w.relaid = false := by
  refine Bool.eq_false_iff.2 fun hw => ?_
  rw [h.hashless hw i] at hi
  cases hi

/-! ## Looking back -/

/-- What is no sign does not begin the window. -/
theorem behind_of_kind {kind : LexemeKind} (hi : w.first ≤ i) (hkind : s.kind? i = some kind)
    (hne : kind ≠ .punctuation) : w.Behind i := by
  rcases h.anchored with hanchor | hzero
  · refine .inl (Nat.lt_of_le_of_ne hi fun heq => ?_)
    rw [heq, hkind, Option.some.injEq] at hanchor
    exact hne hanchor
  · exact .inr hzero

/-- **The lexeme before is found within the window.** -/
theorem previous?_moved (hi : w.Behind i) (hs : w.Seen i) :
    s'.previous? (w.moved i) = (s.previous? i).map w.moved ∧
      ∀ p ∈ s.previous? i, w.first ≤ p ∧ p < i := by
  induction i with
  | zero =>
    rw [w.moved_zero]
    exact ⟨rfl, fun p hp => by cases hp⟩
  | succ i ih =>
    have hle : w.first ≤ i := hi.le_pred
    have hseen := w.seen_of_le hs (Nat.le_succ i)
    rw [Window.moved_succ hle, previous?, previous?, h.isComment_moved hle hseen]
    cases hcomment : s.isComment i with
    | false => exact ⟨rfl, fun p hp => by cases hp; exact ⟨hle, Nat.lt_succ_self i⟩⟩
    | true =>
      have hbehind : w.Behind i := by
        refine h.behind_of_kind hle ?_ (show LexemeKind.comment ≠ .punctuation by decide)
        simpa only [isComment, beq_iff_eq] using hcomment
      obtain ⟨hprevious, hmem⟩ := ih hbehind hseen
      exact ⟨hprevious, fun p hp => ⟨(hmem p hp).1, Nat.lt_succ_of_lt (hmem p hp).2⟩⟩

/-- A preprocessor line begins where it does in the first source. -/
theorem startsLine_moved (hi : w.Behind i) (hs : w.Seen i) :
    (s'.is (w.moved i) "#" && s'.startsLine (w.moved i)) = (s.is i "#" && s.startsLine i) := by
  rw [h.is_moved hi.le hs]
  cases hw : w.relaid with
  | true => rw [h.hashless hw, Bool.false_and, Bool.false_and]
  | false =>
    obtain ⟨hprevious, hmem⟩ := h.previous?_moved hi hs
    congr 1
    rw [startsLine, startsLine, hprevious]
    cases hp : s.previous? i with
    | none => rfl
    | some p =>
      obtain ⟨hle, hlt⟩ := hmem p hp
      exact decide_eq_decide.2 (h.lines hw hle hlt hs)

/-! ## Joined spellings -/

theorem joinFrom_moved {n : Nat} (hi : w.first ≤ i) (hs : w.Seen (i + n)) :
    s'.joinFrom (w.moved i) n = s.joinFrom i n := by
  induction n generalizing i with
  | zero => rfl
  | succ n ih =>
    have hseen : w.Seen i := w.seen_of_le hs (by omega)
    cases n with
    | zero => exact h.spelling hi hseen
    | succ n =>
      have hnext := ih (Nat.le_succ_of_le hi) (w.seen_of_le hs (by omega))
      rw [Window.moved_succ hi] at hnext
      rw [joinFrom, joinFrom, h.spelling hi hseen, h.touches hi (w.seen_of_le hs (by omega)), hnext]

theorem join_moved {j : Nat} (hi : w.first ≤ i) (hj : w.first ≤ j) (hs : w.Seen (max i j)) :
    s'.join (w.moved i) (w.moved j) = s.join i j := by
  rw [join, join, Window.moved_sub hj hi]
  exact h.joinFrom_moved hi (w.seen_of_le hs (by omega))

end Agrees

end Source

end DocIndex
