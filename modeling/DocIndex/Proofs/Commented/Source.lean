import DocIndex.Outline.Reading

/-!
# A source text with one comment more

`s.Commented s' k` says that `s'` is `s` with a comment in front of lexeme `k`. A reading of `s` and
one of `s'` are compared by where they stand: lexeme `i` of `s` is lexeme `past k i` of `s'`.

* `Abreast` — one reading stands where the other does, or at the comment in front of it.
* `Commented.is_past` and its kin — what is asked of a lexeme is answered as before.
* `previous?_past`, `startsLine_past` — these look back over a comment.
* `Loose` — what must not stand on both sides of the comment.
-/

namespace DocIndex

/-! ## Where lexemes stand -/

/-- Where lexeme `i` stands once there is one more in front of lexeme `k`. -/
def past (k i : Nat) : Nat :=
  if i < k then i else i + 1

/-- Reading stands at `i'` as it does at `i` without the new lexeme: at the same one, or at the new
one in front of it. -/
def Abreast (k i i' : Nat) : Prop :=
  i' = past k i ∨ i = k ∧ i' = k

variable {k i i' j : Nat}

theorem past_cases (k i : Nat) : i < k ∧ past k i = i ∨ k ≤ i ∧ past k i = i + 1 := by
  unfold past
  split <;> omega

theorem past_of_lt (h : i < k) : past k i = i :=
  if_pos h

theorem past_of_le (h : k ≤ i) : past k i = i + 1 :=
  if_neg (by omega)

theorem past_lt_past : past k i < past k j ↔ i < j := by
  have := past_cases k i
  have := past_cases k j
  omega

theorem past_inj : past k i = past k j ↔ i = j := by
  have := past_cases k i
  have := past_cases k j
  omega

theorem past_succ (hi : i + 1 ≠ k) : past k (i + 1) = past k i + 1 := by
  have := past_cases k i
  have := past_cases k (i + 1)
  omega

theorem past_pred (hi : 0 < i) (hk : i ≠ k) : past k i - 1 = past k (i - 1) := by
  have := past_cases k i
  have := past_cases k (i - 1)
  omega

theorem abreast_past (k i : Nat) : Abreast k i (past k i) :=
  .inl rfl

theorem abreast_succ (k i : Nat) : Abreast k (i + 1) (past k i + 1) := by
  by_cases hk : i + 1 = k
  · exact .inr ⟨hk, by rw [past_of_lt (by omega), hk]⟩
  · exact .inl (past_succ hk).symm

theorem Abreast.eq_past (h : Abreast k i i') (hi : i ≠ k) : i' = past k i :=
  h.resolve_right fun hk => hi hk.1

/-- What the new lexeme makes no difference to. -/
theorem Abreast.congr {α : Type} {f : Nat → α} (hf : f k = f (k + 1)) (h : Abreast k i i') :
    f i' = f (past k i) := by
  rcases h with rfl | ⟨rfl, rfl⟩
  · rfl
  · rw [hf, past_of_le (Nat.le_refl _)]

namespace Source

/-- `s'` is `s` with a comment in front of lexeme `k`, which is not the first one. -/
structure Commented (s s' : Source) (k : Nat) : Prop where
  pos : 0 < k
  lt : k < s.size
  size : s'.size = s.size + 1
  spelling : ∀ i, s'.spelling (past k i) = s.spelling i
  kind : ∀ i, s'.kind? (past k i) = s.kind? i
  startLine : ∀ i, s'.startLine (past k i) = s.startLine i
  stopLine : ∀ i, s'.stopLine (past k i) = s.stopLine i
  touches : ∀ i, i + 1 ≠ k → s'.touchesNext (past k i) = s.touchesNext i
  continues : ∀ i, i + 1 ≠ k → s'.lineContinues (past k i) = s.lineContinues i
  isComment : s'.isComment k = true
  slash : ∀ i, s'.isComment i = true → (s'.spelling i).toList.head? = some '/'
  /-- There is a gap for the comment. -/
  apart : s.touchesNext (k - 1) = false
  /-- A line that ends in the gap ends in front of the comment or behind it. -/
  breaks : s.lineContinues (k - 1) = false → s'.lineContinues (k - 1) = true →
    s'.lineContinues k = false
  /-- Identifiers are words. -/
  word : ∀ i, s.isIdentifier i = true →
    ∃ c cs, (s.spelling i).toList = c :: cs ∧ Lexer.isWordStart c = true

namespace Commented

variable {s s' : Source} (h : s.Commented s' k)
include h

/-! ## What lexemes are -/

theorem lt_size_past : past k i < s'.size ↔ i < s.size := by
  have := h.lt
  have := past_cases k i
  rw [h.size]
  omega

theorem lt_size : k < s'.size := by
  have := h.lt
  rw [h.size]
  omega

theorem is_past (i : Nat) (word : String) : s'.is (past k i) word = s.is i word := by
  simp only [is, h.spelling, h.lt_size_past]

theorem isIdentifier_past (i : Nat) : s'.isIdentifier (past k i) = s.isIdentifier i := by
  simp only [isIdentifier, h.kind]

theorem isComment_past (i : Nat) : s'.isComment (past k i) = s.isComment i := by
  simp only [Source.isComment, h.kind]

theorem mark_past (i : Nat) : s'.mark (past k i) = s.mark i := by
  simp only [mark, h.spelling]

/-- A comment is spelled like no word of the language. -/
theorem spelling_ne {word : String} (hw : word.toList.head? ≠ some '/') : s'.spelling k ≠ word := by
  rintro rfl
  exact hw (h.slash k h.isComment)

theorem is_comment {word : String} (hw : word.toList.head? ≠ some '/') : s'.is k word = false := by
  simp only [is, Bool.and_eq_false_iff, beq_eq_false_iff_ne]
  exact .inr (h.spelling_ne hw)

theorem isIdentifier_comment : s'.isIdentifier k = false := by
  have hk := h.isComment
  simp only [Source.isComment, beq_iff_eq] at hk
  simp only [isIdentifier, hk]
  decide

/-- An identifier is spelled like no sign. -/
theorem spelling_ne_of_isIdentifier (hi : s.isIdentifier i = true) {word : String}
    (hw : word.toList.head?.any Lexer.isWordStart = false) : s.spelling i ≠ word := by
  rintro rfl
  obtain ⟨c, cs, hcs, hc⟩ := h.word i hi
  rw [hcs, List.head?_cons, Option.any_some, hc] at hw
  cases hw

/-! ## Looking back -/

/-- **The lexeme before is found over comments.** -/
theorem previous?_past (i : Nat) : s'.previous? (past k i) = (s.previous? i).map (past k) := by
  induction i with
  | zero => rw [past_of_lt h.pos]; rfl
  | succ i ih =>
    have hstep : s'.previous? (past k i + 1) = (s.previous? (i + 1)).map (past k) := by
      simp only [previous?, h.isComment_past, ih]
      split <;> rfl
    by_cases hk : i + 1 = k
    · -- the comment stands in between
      rw [past_of_le (by omega), hk]
      rw [past_of_lt (by omega), hk] at hstep
      rw [previous?, if_pos h.isComment, hstep]
    · rw [past_succ hk, hstep]

theorem startsLine_past (i : Nat) : s'.startsLine (past k i) = s.startsLine i := by
  simp only [startsLine, h.previous?_past]
  cases s.previous? i with
  | none => rfl
  | some p => simp only [Option.map_some, h.stopLine, h.startLine]

/-! ## Joined spellings -/

theorem joinFrom_past {n : Nat} (hi : k ≤ i ∨ i + n ≤ k) :
    s'.joinFrom (past k i) n = s.joinFrom i n := by
  induction n generalizing i with
  | zero => rfl
  | succ n ih =>
    cases n with
    | zero => simp only [joinFrom, h.spelling]
    | succ n =>
      simp only [joinFrom, h.spelling, h.touches i (by omega),
        ← past_succ (show i + 1 ≠ k by omega)]
      rw [ih (by omega)]

theorem join_past (hi : k ≤ i ∨ j < k) : s'.join (past k i) (past k j) = s.join i j := by
  have hn : past k j - past k i = j - i := by
    have := past_cases k i
    have := past_cases k j
    omega
  rw [join, join, hn]
  by_cases hk : k ≤ i
  · exact h.joinFrom_past (.inl hk)
  by_cases hj : i ≤ j
  · exact h.joinFrom_past (.inr (by omega))
  · rw [show j - i = 0 by omega]
    rfl

end Commented

/-! ## The two lexemes around a gap -/

/-- Nothing that is written in two lexemes stands on both sides of the gap in front of `k`: no
qualified name, no destructor, no pointer in parentheses, and no preprocessor line that gets its
word or the word's argument from the line behind it. -/
structure Loose (s : Source) (k : Nat) : Prop where
  before : s.spelling (k - 1) ≠ "::" ∧ s.spelling (k - 1) ≠ "~" ∧ s.spelling (k - 1) ≠ "#" ∧
    s.spelling (k - 1) ≠ "undef"
  name : s.spelling k = "::" ∨ s.spelling k = "<" →
    s.isIdentifier (k - 1) = false ∧ s.spelling (k - 1) ≠ ">"
  pointer : s.spelling (k - 1) = "(" → ["*", "&", "&&", "^"].contains (s.spelling k) = false

end Source

end DocIndex
