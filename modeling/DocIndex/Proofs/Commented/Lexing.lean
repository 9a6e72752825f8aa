import DocIndex.Proofs.Commented.Source
import DocIndex.Proofs.Source.Stretches

/-!
# A text with one comment more

A comment that is put into a gap between two lexemes, and is cut off as a lexeme of its own, leaves
the other lexemes as they are but for their offsets (`CommentInGap.getElem?_past`). They stand on
the same lines, since the comment holds no line feed. So the texts, cut into lexemes, are sources
one of which has one comment more (`CommentInGap.commented`).
-/

namespace DocIndex

/-! ## A comment in a gap -/

/-- The text `cs'` is the text `cs` with a comment of one line in the gap between two neighbouring
lexemes, which is cut off as a lexeme of its own: the texts are cut alike but for that gap. -/
structure CommentInGap (cs cs' : List Char) where
  front : List Stretch
  before : Stretch
  /-- The blanks of the gap, and those of them in front of the comment and behind it. -/
  gap : List Stretch
  gapFront : List Stretch
  gapBack : List Stretch
  comment : List Char
  after : Stretch
  back : List Stretch
  cut : Lexer.stretches cs = front ++ before :: (gap ++ after :: back)
  cut_commented : Lexer.stretches cs' =
    front ++ before :: (gapFront ++ ⟨.lexeme .comment, comment⟩ :: (gapBack ++ after :: back))
  isLexeme_before : before.isLexeme = true
  isLexeme_after : after.isLexeme = true
  blank : ∀ x ∈ gap ++ gapFront ++ gapBack, x.role = .blank
  chars_gap : Lexer.chars gap = Lexer.chars gapFront ++ Lexer.chars gapBack
  gap_ne : Lexer.chars gap ≠ []
  oneLine : '\n' ∉ comment

namespace CommentInGap

open Lexer

variable {cs cs' : List Char} (g : CommentInGap cs cs')

/-- The lexemes in front of the gap. -/
def lexemesFront : List Lexeme :=
  (Lexed.ofStretches 0 [] (g.front ++ [g.before])).lexemes

/-- The text in front of the gap. -/
def textFront : List Char :=
  chars (g.front ++ [g.before])

/-- The number of the lexeme behind the gap. -/
def index : Nat :=
  g.lexemesFront.length

/-- The lexemes behind the gap, where they stand without the comment. -/
def lexemesBack : List Lexeme :=
  (Lexed.ofStretches (byteLength g.textFront + byteLength (chars g.gap)) (chars g.gap).reverse
    (g.after :: g.back)).lexemes

theorem lexemes_eq : (Lexed.ofText cs).lexemes = g.lexemesFront ++ g.lexemesBack := by
  have hblank : ∀ y ∈ g.gap, y.isLexeme = false := fun y hy => by
    rw [Stretch.isLexeme, g.blank y (by simp [hy])]
  rw [Lexed.ofText, g.cut, Lexed.lexemes_append g.isLexeme_before, Lexed.lexemes_blanks hblank]
  simp [lexemesFront, lexemesBack, textFront]

theorem lexemesBack_eq : ∃ u us, g.lexemesBack = u :: us ∧
    u.start = byteLength g.textFront + byteLength (chars g.gap) ∧
    u.gap = String.ofList (chars g.gap) := by
  obtain ⟨kind, hkind⟩ := Lexed.role_of_isLexeme g.isLexeme_after
  exact ⟨_, _, Lexed.lexemes_of_role hkind, rfl, by rw [List.reverse_reverse]⟩

/-- The lexeme of the comment. -/
def commentLexeme : Lexeme :=
  ⟨.comment, String.ofList g.comment, byteLength g.textFront + byteLength (chars g.gapFront),
    String.ofList (chars g.gapFront)⟩

/-- The lexemes behind the gap, where they stand with the comment. -/
def lexemesMoved : List Lexeme :=
  (Lexed.ofStretches (byteLength g.textFront + byteLength (chars g.gap) + byteLength g.comment)
    (chars g.gapBack).reverse (g.after :: g.back)).lexemes

theorem lexemes_commented_eq :
    (Lexed.ofText cs').lexemes = g.lexemesFront ++ g.commentLexeme :: g.lexemesMoved := by
  have hblank {y : Stretch} (hy : y ∈ g.gap ++ g.gapFront ++ g.gapBack) : y.isLexeme = false := by
    rw [Stretch.isLexeme, g.blank y hy]
  have hoffset : byteLength g.textFront + byteLength (chars g.gapFront) + byteLength g.comment +
      byteLength (chars g.gapBack) =
      byteLength g.textFront + byteLength (chars g.gap) + byteLength g.comment := by
    rw [g.chars_gap, byteLength_append]
    omega
  have hbehind : (Lexed.ofStretches (byteLength g.textFront) []
      (g.gapFront ++ ⟨.lexeme .comment, g.comment⟩ :: (g.gapBack ++ g.after :: g.back))).lexemes =
      g.commentLexeme :: g.lexemesMoved := by
    rw [Lexed.lexemes_blanks fun y hy => hblank (by simp [hy]), Lexed.lexemes_of_role rfl,
      Lexed.lexemes_blanks fun y hy => hblank (by simp [hy])]
    simp only [List.append_nil, List.reverse_reverse, hoffset]
    rfl
  rw [Lexed.ofText, g.cut_commented, Lexed.lexemes_append g.isLexeme_before, Nat.zero_add]
  exact congrArg (g.lexemesFront ++ ·) hbehind

/-- The lexemes behind the comment are moved, and the first one has what is left of the gap in
front. -/
theorem lexemesMoved_eq : ∃ t ts, g.lexemesBack = t :: ts ∧
    g.lexemesMoved =
      { t.moved (byteLength g.comment) with gap := String.ofList (chars g.gapBack) } ::
        ts.map (Lexeme.moved (byteLength g.comment)) := by
  obtain ⟨kind, hkind⟩ := Lexed.role_of_isLexeme g.isLexeme_after
  refine ⟨_, _, Lexed.lexemes_of_role hkind, ?_⟩
  rw [lexemesMoved, Lexed.lexemes_of_role hkind, Nat.add_right_comm _ (byteLength g.comment),
    Lexed.lexemes_moved, List.reverse_reverse]
  rfl

/-- A lexeme of the text, as it stands with the comment. -/
def withComment (i : Nat) (t : Lexeme) : Lexeme :=
  { t with
    start := if i < g.index then t.start else t.start + byteLength g.comment
    gap := if i = g.index then String.ofList (chars g.gapBack) else t.gap }

/-- **The other lexemes are what they are without the comment.** -/
theorem getElem?_past (i : Nat) :
    (Lexed.ofText cs').lexemes[past g.index i]? =
      ((Lexed.ofText cs).lexemes[i]?).map (g.withComment i) := by
  obtain ⟨t, ts, hback, hmoved⟩ := g.lexemesMoved_eq
  rw [g.lexemes_eq, g.lexemes_commented_eq, hback, hmoved]
  rcases past_cases g.index i with ⟨hi, hpast⟩ | ⟨hi, hpast⟩
  · rw [hpast, List.getElem?_append_left hi, List.getElem?_append_left hi]
    cases g.lexemesFront[i]? with
    | none => rfl
    | some t => simp [withComment, hi, Nat.ne_of_lt hi]
  · have hnext : i + 1 - g.lexemesFront.length = i - g.lexemesFront.length + 1 := by
      change g.lexemesFront.length ≤ i at hi
      omega
    rw [hpast, List.getElem?_append_right (Nat.le_succ_of_le hi), List.getElem?_append_right hi,
      hnext, List.getElem?_cons_succ]
    change g.lexemesFront.length ≤ i at hi
    rcases Nat.eq_or_lt_of_le hi with heq | hlt
    · rw [← heq, Nat.sub_self]
      simp [withComment, index, Lexeme.moved]
    · obtain ⟨n, hn⟩ : ∃ n, i - g.lexemesFront.length = n + 1 :=
        ⟨i - g.lexemesFront.length - 1, by omega⟩
      have hne : i ≠ g.index := fun heq => by simp [index] at heq; omega
      have hnlt : ¬ i < g.index := fun h => by simp [index] at h; omega
      rw [hn, List.getElem?_cons_succ, List.getElem?_cons_succ, List.getElem?_map]
      cases ts[n]? with
      | none => rfl
      | some t => simp [withComment, hne, hnlt, Lexeme.moved]

/-! ## Lines -/

theorem text_eq : cs = g.textFront ++ (chars g.gap ++ chars (g.after :: g.back)) := by
  refine (chars_stretches cs).symm.trans ?_
  rw [g.cut]
  simp [textFront]

theorem text_commented_eq :
    cs' = g.textFront ++ (chars g.gapFront ++ (g.comment ++ (chars g.gapBack ++
      chars (g.after :: g.back)))) := by
  refine (chars_stretches cs').symm.trans ?_
  rw [g.cut_commented]
  simp [textFront]

/-- A lexeme that stands behind equally many line feeds in two texts is on the same lines there. -/
theorem line_eq {cs cs' ds ds' rest rest' : List Char} {t t' : Lexeme}
    (hspelling : t'.spelling = t.spelling) (hcs : cs = ds ++ (t.spelling.toList ++ rest))
    (hcs' : cs' = ds' ++ (t.spelling.toList ++ rest')) (hstart : t.start = byteLength ds)
    (hstart' : t'.start = byteLength ds') (hcount : ds'.count '\n' = ds.count '\n') :
    ((LineTable.ofText cs').place t'.start).line = ((LineTable.ofText cs).place t.start).line ∧
      ((LineTable.ofText cs').place t'.stop).line = ((LineTable.ofText cs).place t.stop).line := by
  have hlength : t.spelling.utf8ByteSize = byteLength t.spelling.toList := by
    rw [← utf8ByteSize_ofList, String.ofList_toList]
  refine ⟨by rw [hcs, hcs', hstart, hstart', line_place, line_place, hcount], ?_⟩
  rw [Lexeme.stop, Lexeme.stop, hspelling, hstart, hstart', hlength, ← byteLength_append,
    ← byteLength_append, hcs, hcs', ← List.append_assoc, ← List.append_assoc, line_place,
    line_place, List.count_append, List.count_append, hcount]

/-- A lexeme stands on the lines that it stands on without the comment. -/
theorem line_withComment {i : Nat} {t : Lexeme} (ht : (Lexed.ofText cs).lexemes[i]? = some t) :
    ((LineTable.ofText cs').place (g.withComment i t).start).line =
        ((LineTable.ofText cs).place t.start).line ∧
      ((LineTable.ofText cs').place (g.withComment i t).stop).line =
        ((LineTable.ofText cs).place t.stop).line := by
  have hcs := g.text_eq
  have hcs' := g.text_commented_eq
  rw [g.lexemes_eq] at ht
  by_cases hi : i < g.index
  · have hmem := List.mem_of_getElem? ((List.getElem?_append_left hi).symm.trans ht)
    obtain ⟨-, ds, rest, htext, hstart⟩ := Lexed.placed_of_mem hmem
    rw [Nat.zero_add] at hstart
    rw [textFront, htext, List.append_assoc, List.append_assoc] at hcs hcs'
    have hstart' : (g.withComment i t).start = byteLength ds := by
      simp only [withComment, if_pos hi, hstart]
    exact line_eq rfl hcs hcs' hstart hstart' rfl
  · -- the comment in front of it adds bytes, but no line feed
    have hmem := List.mem_of_getElem?
      ((List.getElem?_append_right (Nat.le_of_not_lt hi)).symm.trans ht)
    obtain ⟨-, ds, rest, htext, hstart⟩ := Lexed.placed_of_mem hmem
    have hstart' : (g.withComment i t).start =
        byteLength (g.textFront ++ chars g.gapFront ++ g.comment ++ chars g.gapBack ++ ds) := by
      simp only [withComment, if_neg hi, hstart, g.chars_gap, byteLength_append]
      omega
    rw [← byteLength_append, ← byteLength_append] at hstart
    rw [htext] at hcs hcs'
    have hcut : cs = g.textFront ++ chars g.gap ++ ds ++ (t.spelling.toList ++ rest) := by
      simpa only [List.append_assoc] using hcs
    have hcut' : cs' = g.textFront ++ chars g.gapFront ++ g.comment ++ chars g.gapBack ++ ds ++
        (t.spelling.toList ++ rest) := by
      simpa only [List.append_assoc] using hcs'
    refine line_eq rfl hcut hcut' hstart hstart' ?_
    simp [g.chars_gap, List.count_eq_zero.2 g.oneLine]

/-! ## The sources -/

/-- A backslash in front takes back no less. -/
theorem continuesLine_mono {escaped : Bool} {ds : List Char}
    (hds : Source.continuesLine escaped ds = true) : Source.continuesLine true ds = true := by
  induction ds generalizing escaped with
  | nil => rfl
  | cons c ds ih =>
    rw [Source.continuesLine] at hds ⊢
    by_cases hc : c = '\n'
    · rw [if_pos hc, Bool.and_eq_true] at hds
      rw [if_pos hc, hds.2, Bool.and_self]
    · rw [if_neg hc] at hds ⊢
      cases hflag : (decide (c = '\\') || (decide (c = '\r') && true)) with
      | true => exact ih hds
      | false =>
        rw [Bool.and_true, Bool.or_eq_false_iff] at hflag
        rw [hflag.1, hflag.2] at hds
        exact hds

/-- A line that goes on over two texts goes on over both. -/
theorem continuesLine_append {escaped : Bool} {ds es : List Char}
    (hds : Source.continuesLine escaped ds = true) (hes : Source.continuesLine false es = true) :
    Source.continuesLine escaped (ds ++ es) = true := by
  induction ds generalizing escaped with
  | nil =>
    cases escaped with
    | false => exact hes
    | true => exact continuesLine_mono hes
  | cons c ds ih =>
    rw [Source.continuesLine] at hds
    rw [List.cons_append, Source.continuesLine]
    by_cases hc : c = '\n'
    · rw [if_pos hc, Bool.and_eq_true] at hds
      rw [if_pos hc, hds.1, ih hds.2, Bool.and_self]
    · rw [if_neg hc] at hds ⊢
      exact ih hds

open Source

theorem getElem?_lexemes_past (i : Nat) : (Source.ofText cs').lexemes[past g.index i]? =
    ((Source.ofText cs).lexemes[i]?).map (g.withComment i) := by
  rw [getElem?_ofText, getElem?_ofText, g.getElem?_past]

theorem getElem?_lexemes_index : (Source.ofText cs').lexemes[g.index]? = some g.commentLexeme := by
  rw [getElem?_ofText, g.lexemes_commented_eq, index]
  simp

/-- The lexemes around the gap do not touch, and what is between them is the gap. -/
theorem around_gap : ∃ t u, (Source.ofText cs).lexemes[g.index - 1]? = some t ∧
    (Source.ofText cs).lexemes[g.index]? = some u ∧ t.stop < u.start ∧
    u.gap = String.ofList (chars g.gap) ∧ 0 < g.index := by
  obtain ⟨ts, t, hfront, hstop⟩ := Lexed.lexemes_concat g.front 0 [] g.isLexeme_before
  obtain ⟨u, us, hback, hstart, hgap⟩ := g.lexemesBack_eq
  have hindex : g.index = ts.length + 1 := by
    rw [index, lexemesFront, hfront, List.length_append, List.length_singleton]
  have hlexemes : (Lexed.ofText cs).lexemes = ts ++ t :: u :: us := by
    rw [g.lexemes_eq, lexemesFront, hfront, hback, List.append_assoc, List.singleton_append]
  have hpos := byteLength_pos g.gap_ne
  refine ⟨t, u, ?_, ?_, ?_, hgap, by omega⟩
  · rw [getElem?_ofText, hlexemes, hindex]
    simp
  · rw [getElem?_ofText, hlexemes, hindex]
    simp
  · rw [hstop, hstart, textFront]
    omega

/-- **The text with the comment is, cut into lexemes, the one without and a comment more.** -/
theorem commented : (Source.ofText cs).Commented (Source.ofText cs') g.index where
  pos := by
    obtain ⟨t, u, -, -, -, -, hpos⟩ := g.around_gap
    exact hpos
  lt := by
    obtain ⟨t, u, -, hu, -⟩ := g.around_gap
    exact (Array.getElem?_eq_some_iff.1 hu).1
  size := by
    obtain ⟨t, ts, hback, hmoved⟩ := g.lexemesMoved_eq
    have hsize (cs : List Char) : (Source.ofText cs).size = (Lexed.ofText cs).lexemes.length :=
      List.size_toArray
    rw [hsize, hsize, g.lexemes_eq, g.lexemes_commented_eq, hback, hmoved]
    simp only [List.length_append, List.length_cons, List.length_map]
    omega
  spelling i := by
    rw [Source.spelling, Source.spelling, g.getElem?_lexemes_past]
    cases (Source.ofText cs).lexemes[i]? <;> rfl
  kind i := by
    rw [kind?, kind?, g.getElem?_lexemes_past]
    cases (Source.ofText cs).lexemes[i]? <;> rfl
  startLine i := by
    rw [Source.startLine, Source.startLine, g.getElem?_lexemes_past]
    cases ht : (Source.ofText cs).lexemes[i]? with
    | none => rfl
    | some t => exact (g.line_withComment ((getElem?_ofText cs i).symm.trans ht)).1
  stopLine i := by
    rw [Source.stopLine, Source.stopLine, g.getElem?_lexemes_past]
    cases ht : (Source.ofText cs).lexemes[i]? with
    | none => rfl
    | some t => exact (g.line_withComment ((getElem?_ofText cs i).symm.trans ht)).2
  touches i hi := by
    rw [touchesNext, touchesNext, ← past_succ hi, g.getElem?_lexemes_past, g.getElem?_lexemes_past]
    cases (Source.ofText cs).lexemes[i]? with
    | none => rfl
    | some t =>
      cases (Source.ofText cs).lexemes[i + 1]? with
      | none => rfl
      | some u =>
        simp only [Option.map_some, withComment, Lexeme.stop]
        by_cases hlt : i < g.index
        · rw [if_pos hlt, if_pos (show i + 1 < g.index by omega)]
        · rw [if_neg hlt, if_neg (show ¬ i + 1 < g.index by omega), Bool.eq_iff_iff, beq_iff_eq,
            beq_iff_eq]
          omega
  continues i hi := by
    rw [lineContinues, lineContinues, ← past_succ hi, g.getElem?_lexemes_past]
    cases (Source.ofText cs).lexemes[i + 1]? with
    | none => rfl
    | some t => simp only [Option.map_some, withComment, if_neg hi]
  isComment := by
    rw [Source.isComment, kind?, g.getElem?_lexemes_index]
    rfl
  slash i hi := by
    rw [Source.isComment, beq_iff_eq] at hi
    obtain ⟨c, ds, es, hspelling, hfront⟩ := front_of_kind? hi
    rw [hspelling, slash_of_front hfront]
    rfl
  apart := by
    obtain ⟨t, u, ht, hu, hlt, -, hpos⟩ := g.around_gap
    rw [touchesNext, ht, Nat.sub_add_cancel hpos, hu]
    exact beq_eq_false_iff_ne.2 (Nat.ne_of_lt hlt)
  breaks hfront hbefore := by
    obtain ⟨t, u, -, hu, -, hgap, hpos⟩ := g.around_gap
    have hnext := g.getElem?_lexemes_past g.index
    rw [past_of_le (Nat.le_refl _), hu] at hnext
    rw [lineContinues, Nat.sub_add_cancel hpos, hu] at hfront
    rw [lineContinues, Nat.sub_add_cancel hpos, g.getElem?_lexemes_index] at hbefore
    rw [lineContinues, hnext]
    simp only [Option.map_some, withComment, if_true, String.toList_ofList]
    simp only [hgap, g.chars_gap, String.toList_ofList] at hfront
    simp only [commentLexeme, String.toList_ofList] at hbefore
    -- if the line went on in both parts of the gap, it would go on in the gap
    cases hbehind : continuesLine false (chars g.gapBack) with
    | false => rfl
    | true => exact absurd (continuesLine_append hbefore hbehind) (by rw [hfront]; decide)
  word _ hi := word_of_isIdentifier hi

end CommentInGap

end DocIndex
