import DocIndex.Proofs.Body.Declaration
import DocIndex.Proofs.Source.Stretches

/-!
# A text with another body

Where the braces of a body nest, the body ends at the brace behind it, whatever else it holds. Two
texts that are cut into the same lexemes but for such a body agree up to the brace in front of the
body, and again from the brace behind it on.

* `openBraces` — how many braces are left open by some words.
* `HasBody` — a text with a body between two braces.
* `HasBody.groupEnd_opening` — the braces around the body belong together.
* `HasBody.agrees_upTo`, `HasBody.agrees_startingAt` — **what stands around the body does not tell
  of it.**
-/

namespace DocIndex

/-! ## Braces -/

/-- How many braces are open behind some words, if `depth` of them are open in front, and none is
closed that has not been opened. -/
def openBraces (depth : Nat) : List String → Option Nat
  | [] => some depth
  | word :: words =>
    if word = "\x7b" then openBraces (depth + 1) words
    else if word = "\x7d" then if depth = 0 then none else openBraces (depth - 1) words
    else openBraces depth words

/-- Within a brace, braces that nest are passed over. -/
theorem Source.closeFrom_openBraces {s : Source} {words : List String} {i depth depth' : Nat}
    (hwords : ∀ m word, words[m]? = some word → s.is (i + m) word = true)
    (hbraces : openBraces depth words = some depth') :
    s.closeFrom "\x7b" "\x7d" (depth + 1) i =
      s.closeFrom "\x7b" "\x7d" (depth' + 1) (i + words.length) := by
  induction words generalizing i depth with
  | nil =>
    cases hbraces
    rfl
  | cons word words ih =>
    have hword := hwords 0 word rfl
    simp only [is, Nat.add_zero, Bool.and_eq_true, decide_eq_true_eq, beq_iff_eq] at hword
    obtain ⟨hi, rfl⟩ := hword
    have hrest (m : Nat) (word : String) (hm : words[m]? = some word) :
        s.is (i + 1 + m) word = true := by
      rw [Nat.add_right_comm, Nat.add_assoc]
      exact hwords (m + 1) word hm
    have hlength : i + (s.spelling i :: words).length = i + 1 + words.length := by
      rw [List.length_cons]
      omega
    rw [hlength, closeFrom, if_pos hi]
    unfold openBraces at hbraces
    split
    · rename_i hopen
      rw [if_pos hopen] at hbraces
      exact ih hrest hbraces
    rename_i hopen
    rw [if_neg hopen] at hbraces
    split
    · rename_i hclose
      rw [if_pos hclose] at hbraces
      split at hbraces
      · cases hbraces
      · rename_i hdepth
        obtain ⟨depth, rfl⟩ := Nat.exists_eq_succ_of_ne_zero hdepth
        rw [if_neg (by omega)]
        exact ih hrest hbraces
    · rename_i hclose
      rw [if_neg hclose] at hbraces
      exact ih hrest hbraces

/-! ## Lexemes of the parts of a text -/

namespace Lexed

open Lexer

/-- The lexemes of stretches, as they are spelled. -/
def words (ss : List Stretch) : List String :=
  (ss.filter Stretch.isLexeme).map fun x => String.ofList x.text

theorem spelling_lexemes (offset : Nat) (gap : List Char) (ss : List Stretch) :
    (ofStretches offset gap ss).lexemes.map Lexeme.spelling = words ss := by
  induction ss generalizing offset gap with
  | nil => rfl
  | cons x ss ih =>
    cases hx : x.isLexeme with
    | false =>
      rw [lexemes_of_not_isLexeme hx, ih, words, words, List.filter_cons_of_neg (by simp [hx])]
    | true =>
      obtain ⟨kind, hkind⟩ := role_of_isLexeme hx
      rw [lexemes_of_role hkind, List.map_cons, ih, words, words, List.filter_cons_of_pos hx,
        List.map_cons]

theorem length_lexemes (offset : Nat) (gap : List Char) (ss : List Stretch) :
    (ofStretches offset gap ss).lexemes.length = (words ss).length := by
  rw [← spelling_lexemes offset gap ss, List.length_map]

/-- Behind some stretches the lexemes depend on the offset alone, but for the gap in front of the
first. -/
theorem lexemes_append_gap (ss : List Stretch) (offset : Nat) (gap : List Char) :
    ∃ gap', ∀ rest, (ofStretches offset gap (ss ++ rest)).lexemes =
      (ofStretches offset gap ss).lexemes ++
        (ofStretches (offset + byteLength (chars ss)) gap' rest).lexemes := by
  induction ss generalizing offset gap with
  | nil => exact ⟨gap, fun rest => rfl⟩
  | cons x ss ih =>
    cases hx : x.isLexeme with
    | false =>
      obtain ⟨gap', hrest⟩ := ih (offset + byteLength x.text) (x.text.reverse ++ gap)
      refine ⟨gap', fun rest => ?_⟩
      rw [List.cons_append, lexemes_of_not_isLexeme hx, lexemes_of_not_isLexeme hx, hrest,
        chars_cons, byteLength_append, Nat.add_assoc]
    | true =>
      obtain ⟨kind, hkind⟩ := role_of_isLexeme hx
      obtain ⟨gap', hrest⟩ := ih (offset + byteLength x.text) []
      refine ⟨gap', fun rest => ?_⟩
      rw [List.cons_append, lexemes_of_role hkind, lexemes_of_role hkind, hrest, chars_cons,
        byteLength_append, Nat.add_assoc, List.cons_append]

end Lexed

/-- A lexeme is on the lines that the line feeds in front of it and in it make. -/
theorem Source.lines_ofText {cs front rest : List Char} {i : Nat} {t : Lexeme}
    (ht : (ofText cs).lexemes[i]? = some t) (hcs : cs = front ++ (t.spelling.toList ++ rest))
    (hstart : t.start = byteLength front) :
    (ofText cs).startLine i = front.count '\n' + 1 ∧
      (ofText cs).stopLine i = front.count '\n' + t.spelling.toList.count '\n' + 1 := by
  have hlength : t.spelling.utf8ByteSize = byteLength t.spelling.toList := by
    rw [← utf8ByteSize_ofList, String.ofList_toList]
  have hlines : (ofText cs).lines = LineTable.ofText cs := rfl
  rw [startLine, stopLine, ht, hlines]
  simp only
  refine ⟨by rw [hstart, hcs, line_place], ?_⟩
  rw [Lexeme.stop, hstart, hlength, ← byteLength_append, hcs, ← List.append_assoc, line_place,
    List.count_append]

/-! ## How lexemes are spelled -/

theorem Mark.of_slash {word : String} {cs : List Char} (h : word.toList = '/' :: cs) :
    Mark.of word = .other := by
  unfold Mark.of
  split
  case h_14 => rfl
  all_goals simp at h

theorem Mark.isPassed_of_wordStart {word : String} {c : Char} {cs : List Char}
    (h : word.toList = c :: cs) (hc : Lexer.isWordStart c = true) :
    (Mark.of word).isPassed = true := by
  unfold Mark.of
  split
  case h_14 => rfl
  all_goals
    simp only [String.reduceToList, List.cons.injEq] at h
    obtain ⟨rfl, -⟩ := h
    first | rfl | cases hc

/-- The lexemes of a text are spelled as what they are. -/
theorem Source.wellSpelled_ofText (cs : List Char) : (ofText cs).WellSpelled where
  comment hi := by
    rw [isComment, beq_iff_eq] at hi
    obtain ⟨c, ds, es, hspelling, hfront⟩ := front_of_kind? hi
    rw [Lexer.slash_of_front hfront] at hspelling
    exact Mark.of_slash hspelling
  identifier hi := by
    obtain ⟨c, ds, hspelling, hc⟩ := word_of_isIdentifier hi
    exact Mark.isPassed_of_wordStart hspelling hc

/-! ## A body between braces -/

def Stretch.openBrace : Stretch := ⟨.lexeme .punctuation, ['\x7b']⟩

def Stretch.closeBrace : Stretch := ⟨.lexeme .punctuation, ['\x7d']⟩

/-- Between a brace behind `front` and one in front of `back`, the text has a body in which braces
nest. The body is cut off from the braces. -/
structure HasBody (cs : List Char) (front body back : List Stretch) : Prop where
  cut : Lexer.stretches cs = front ++ Stretch.openBrace :: (body ++ Stretch.closeBrace :: back)
  nests : openBraces 0 (Lexed.words body) = some 0

namespace HasBody

open Lexer Lexed

/-- The number of the brace that opens the body. -/
def opening (front : List Stretch) : Nat :=
  (words front).length

/-- The number of the brace that closes the body. -/
def closing (front body : List Stretch) : Nat :=
  opening front + 1 + (words body).length

theorem opening_lt_closing (front body : List Stretch) : opening front < closing front body :=
  Nat.lt_of_lt_of_le (Nat.lt_succ_self _) (Nat.le_add_right _ _)

theorem closing_pos (front body : List Stretch) : 0 < closing front body :=
  Nat.zero_lt_of_lt (opening_lt_closing front body)

/-- The text in front of the brace that closes the body. -/
def textInFront (front body : List Stretch) : List Char :=
  chars (front ++ [Stretch.openBrace]) ++ chars body

/-- The lexemes up to the brace that opens the body. -/
def lexemesFront (front : List Stretch) : List Lexeme :=
  (ofStretches 0 [] (front ++ [Stretch.openBrace])).lexemes

/-- The lexemes from the brace that closes the body on, as if the text began there. -/
def lexemesBack (back : List Stretch) : List Lexeme :=
  (ofStretches 0 [] (Stretch.closeBrace :: back)).lexemes

/-- Lexeme `i` of those from the closing brace on, where it stands in the text. -/
def placed (n : Nat) (gap : String) (i : Nat) (t : Lexeme) : Lexeme :=
  { t with start := t.start + n, gap := if i = 0 then gap else t.gap }

variable {cs cs' : List Char} {front body body' back : List Stretch}

theorem lexemesFront_eq (front : List Stretch) :
    ∃ ts t, lexemesFront front = ts ++ [t] ∧ ts.length = opening front ∧
      t.kind = .punctuation ∧ t.spelling = "\x7b" := by
  obtain ⟨gap, hrest⟩ := lexemes_append_gap front 0 []
  exact ⟨_, _, hrest _, length_lexemes _ _ _, rfl, rfl⟩

theorem length_lexemesFront : (lexemesFront front).length = opening front + 1 := by
  obtain ⟨ts, t, heq, hlength, -⟩ := lexemesFront_eq front
  rw [heq, List.length_append, hlength, List.length_singleton]

/-- The lexemes from the closing brace on, behind anything. -/
theorem getElem?_placed (offset : Nat) (gap : List Char) (i : Nat) :
    (ofStretches offset gap (Stretch.closeBrace :: back)).lexemes[i]? =
      ((lexemesBack back)[i]?).map (placed offset (String.ofList gap.reverse) i) := by
  have hone : byteLength Stretch.closeBrace.text = 1 := rfl
  rw [lexemesBack, lexemes_of_role rfl, lexemes_of_role rfl, hone, Nat.add_comm offset,
    lexemes_moved]
  cases i with
  | zero =>
    simp only [List.getElem?_cons_zero, Option.map_some, placed, Nat.zero_add, if_true]
  | succ i =>
    rw [List.getElem?_cons_succ, List.getElem?_cons_succ, List.getElem?_map, Nat.zero_add]
    rfl

variable (h : HasBody cs front body back)
include h

theorem text_eq : ∃ rest, cs = chars (front ++ [Stretch.openBrace]) ++ rest ∧
    cs = textInFront front body ++ chars (Stretch.closeBrace :: back) := by
  have hcs := chars_stretches cs
  rw [h.cut] at hcs
  refine ⟨chars (body ++ Stretch.closeBrace :: back), ?_, ?_⟩
  · rw [← hcs]
    simp
  · rw [← hcs, textInFront]
    simp

theorem lexemes_eq : ∃ gap, (Lexed.ofText cs).lexemes = lexemesFront front ++
    ((ofStretches (byteLength (chars (front ++ [Stretch.openBrace]))) [] body).lexemes ++
      (ofStretches (byteLength (textInFront front body)) gap
        (Stretch.closeBrace :: back)).lexemes) := by
  obtain ⟨gap, hrest⟩ := lexemes_append_gap body
    (byteLength (chars (front ++ [Stretch.openBrace]))) []
  refine ⟨gap, ?_⟩
  rw [Lexed.ofText, h.cut, lexemes_append rfl, Nat.zero_add, hrest, textInFront, byteLength_append]
  rfl

/-- Up to the opening brace the lexemes do not tell of the body. -/
theorem getElem?_front {i : Nat} (hi : i ≤ opening front) :
    (Source.ofText cs).lexemes[i]? = (lexemesFront front)[i]? := by
  obtain ⟨gap, heq⟩ := h.lexemes_eq
  rw [Source.getElem?_ofText, heq, List.getElem?_append_left]
  rw [length_lexemesFront]
  exact Nat.lt_succ_of_le hi

/-- The body stands between the braces. -/
theorem is_body (m : Nat) (word : String) (hm : (words body)[m]? = some word) :
    (Source.ofText cs).is (opening front + 1 + m) word = true := by
  obtain ⟨gap, heq⟩ := h.lexemes_eq
  have hlength := length_lexemes (byteLength (chars (front ++ [Stretch.openBrace]))) [] body
  have hlt : m < (words body).length := (List.getElem?_eq_some_iff.1 hm).1
  rw [← spelling_lexemes (byteLength (chars (front ++ [Stretch.openBrace]))) [],
    List.getElem?_map, Option.map_eq_some_iff] at hm
  obtain ⟨t, ht, rfl⟩ := hm
  have hget : (Source.ofText cs).lexemes[opening front + 1 + m]? = some t := by
    rw [Source.getElem?_ofText, heq, ← length_lexemesFront,
      List.getElem?_append_right (Nat.le_add_right _ m), Nat.add_sub_cancel_left,
      List.getElem?_append_left (by rw [hlength]; exact hlt), ht]
  rw [Source.is, Bool.and_eq_true, decide_eq_true_eq, beq_iff_eq, Source.spelling, hget]
  exact ⟨(Array.getElem?_eq_some_iff.1 hget).1, rfl⟩

/-- From the closing brace on, the lexemes tell of the body only where they stand. -/
theorem getElem?_back : ∃ gap, ∀ i, (Source.ofText cs).lexemes[closing front body + i]? =
    ((lexemesBack back)[i]?).map (placed (byteLength (textInFront front body)) gap i) := by
  obtain ⟨gap, heq⟩ := h.lexemes_eq
  refine ⟨String.ofList gap.reverse, fun i => ?_⟩
  have hclosing : closing front body = (lexemesFront front).length + (ofStretches (byteLength
      (chars (front ++ [Stretch.openBrace]))) [] body).lexemes.length := by
    rw [length_lexemesFront, length_lexemes, closing]
  rw [Source.getElem?_ofText, heq, ← List.append_assoc, List.getElem?_append_right]
  · rw [List.length_append, ← hclosing, Nat.add_sub_cancel_left, getElem?_placed]
  · rw [List.length_append, ← hclosing]
    exact Nat.le_add_right _ i

theorem size_eq : (Source.ofText cs).size = closing front body + (lexemesBack back).length := by
  obtain ⟨gap, heq⟩ := h.lexemes_eq
  have hsize : (Source.ofText cs).size = (Lexed.ofText cs).lexemes.length := List.size_toArray
  rw [hsize, heq, List.length_append, List.length_append, length_lexemesFront, length_lexemes,
    length_lexemes, lexemesBack, length_lexemes, closing, Nat.add_assoc, Nat.add_assoc,
    Nat.add_assoc]

omit h in
/-- Behind the body a lexeme is on the line that the line feeds in front make, and those from the
closing brace on. -/
theorem lines_back {i : Nat} {t : Lexeme} (ht : (lexemesBack back)[i]? = some t) :
    ∃ first last : Nat, ∀ {cs front body}, HasBody cs front body back →
      (Source.ofText cs).startLine (closing front body + i) =
          (textInFront front body).count '\n' + first ∧
        (Source.ofText cs).stopLine (closing front body + i) =
          (textInFront front body).count '\n' + last := by
  obtain ⟨-, ds, es, hchars, hstart⟩ := placed_of_mem (List.mem_of_getElem? ht)
  rw [Nat.zero_add] at hstart
  refine ⟨ds.count '\n' + 1, ds.count '\n' + t.spelling.toList.count '\n' + 1, ?_⟩
  intro cs front body h
  obtain ⟨gap, hback⟩ := h.getElem?_back
  obtain ⟨-, -, hcs⟩ := h.text_eq
  have hget := hback i
  rw [ht, Option.map_some] at hget
  rw [hchars, ← List.append_assoc] at hcs
  obtain ⟨hfirst, hlast⟩ := Source.lines_ofText hget hcs (by
    rw [byteLength_append, ← hstart, Nat.add_comm]
    rfl)
  rw [hfirst, hlast, List.count_append]
  exact ⟨Nat.add_assoc .., by simp only [placed, Nat.add_assoc]⟩

/-! ## The braces around the body -/

theorem getElem?_opening : ∃ t, (Source.ofText cs).lexemes[opening front]? = some t ∧
    t.kind = .punctuation ∧ t.spelling = "\x7b" := by
  obtain ⟨ts, t, heq, hlength, hkind, hspelling⟩ := lexemesFront_eq front
  refine ⟨t, ?_, hkind, hspelling⟩
  rw [h.getElem?_front (Nat.le_refl _), heq, ← hlength, List.getElem?_concat_length]

theorem is_opening : (Source.ofText cs).is (opening front) "\x7b" = true := by
  obtain ⟨t, ht, -, hspelling⟩ := h.getElem?_opening
  rw [Source.is, Bool.and_eq_true, decide_eq_true_eq, beq_iff_eq, Source.spelling, ht]
  exact ⟨(Array.getElem?_eq_some_iff.1 ht).1, hspelling⟩

theorem getElem?_closing : ∃ t, (Source.ofText cs).lexemes[closing front body]? = some t ∧
    t.kind = .punctuation ∧ t.spelling = "\x7d" := by
  obtain ⟨gap, hback⟩ := h.getElem?_back
  exact ⟨_, hback 0, rfl, rfl⟩

/-- **The braces around the body belong together**, since the braces within it nest. -/
theorem groupEnd_opening : (Source.ofText cs).groupEnd (opening front) = closing front body := by
  obtain ⟨u, hu, -, hspelling'⟩ := h.getElem?_closing
  have hopens := h.is_opening
  rw [Source.is, Bool.and_eq_true, decide_eq_true_eq, beq_iff_eq] at hopens
  obtain ⟨hlt, hopen⟩ := hopens
  have hlt' : closing front body < (Source.ofText cs).size := (Array.getElem?_eq_some_iff.1 hu).1
  have hclose : (Source.ofText cs).spelling (closing front body) = "\x7d" := by
    rw [Source.spelling, hu]
    exact hspelling'
  have hopening : (Source.ofText cs).openingAt (opening front) = "\x7b" := by
    rw [Source.openingAt, hopen]
    rfl
  have hclosing : (Source.ofText cs).close? (opening front) = some (closing front body) := by
    rw [Source.close?, hopening, Source.closeFrom, if_pos hlt, if_pos hopen]
    refine (Source.closeFrom_openBraces h.is_body h.nests).trans ?_
    change Source.closeFrom _ _ _ 1 (closing front body) = _
    rw [Source.closeFrom, if_pos hlt', if_neg (by rw [hclose]; decide), if_pos hclose,
      if_pos (Nat.le_refl 1)]
  rw [Source.groupEnd, hclosing, Option.getD_some]

/-! ## What stands around the body -/

variable (h' : HasBody cs' front body' back)
include h'

/-- **Up to the brace that opens the body, the texts agree.** -/
theorem agrees_upTo : (Source.ofText cs).Agrees (.upTo (opening front)) (Source.ofText cs') := by
  have hlexemes {i : Nat} (hi : i ≤ opening front) :
      (Source.ofText cs').lexemes[i]? = (Source.ofText cs).lexemes[i]? := by
    rw [h.getElem?_front hi, h'.getElem?_front hi]
  have hlt (i : Nat) (hi : i ≤ opening front) : i < (Source.ofText cs).size := by
    obtain ⟨t, ht, -⟩ := h.getElem?_opening
    exact Nat.lt_of_le_of_lt hi (Array.getElem?_eq_some_iff.1 ht).1
  have hlt' (i : Nat) (hi : i ≤ opening front) : i < (Source.ofText cs').size := by
    obtain ⟨t, ht, -⟩ := h'.getElem?_opening
    exact Nat.lt_of_le_of_lt hi (Array.getElem?_eq_some_iff.1 ht).1
  have hlines {i : Nat} (hi : i ≤ opening front) :
      (Source.ofText cs').startLine i = (Source.ofText cs).startLine i ∧
        (Source.ofText cs').stopLine i = (Source.ofText cs).stopLine i := by
    obtain ⟨t, ht⟩ : ∃ t, (Source.ofText cs).lexemes[i]? = some t :=
      ⟨_, Array.getElem?_eq_getElem (hlt i hi)⟩
    have hmem := List.mem_of_getElem? ((h.getElem?_front hi).symm.trans ht)
    obtain ⟨-, ds, es, hchars, hstart⟩ := placed_of_mem hmem
    rw [Nat.zero_add] at hstart
    obtain ⟨rest, hcs, -⟩ := h.text_eq
    obtain ⟨rest', hcs', -⟩ := h'.text_eq
    rw [hchars, List.append_assoc, List.append_assoc] at hcs hcs'
    obtain ⟨hfirst, hlast⟩ := Source.lines_ofText ht hcs hstart
    obtain ⟨hfirst', hlast'⟩ := Source.lines_ofText ((hlexemes hi).trans ht) hcs' hstart
    exact ⟨hfirst'.trans hfirst.symm, hlast'.trans hlast.symm⟩
  exact {
    lt_iff := fun {i} _ hi => iff_of_true (hlt' i hi) (hlt i hi)
    size := fun hsize => absurd (hlt _ hsize) (Nat.lt_irrefl _)
    behind_size := .inr rfl
    spelling := fun _ hi => by
      rw [Window.moved_upTo, Source.spelling, Source.spelling, hlexemes hi]
    kind := fun _ hi => by rw [Window.moved_upTo, Source.kind?, Source.kind?, hlexemes hi]
    touches := fun _ hi => by
      rw [Window.moved_upTo, Source.touchesNext, Source.touchesNext, hlexemes hi,
        hlexemes (Nat.le_trans (Nat.le_succ _) hi)]
    anchored := .inr rfl
    hashless := fun hrelaid => Bool.noConfusion hrelaid
    lines := fun _ {p i} _ hp hi => by
      rw [Window.moved_upTo, Window.moved_upTo, (hlines hi).1,
        (hlines (Nat.le_trans (Nat.le_of_lt hp) hi)).2]
    continues := fun _ {i} _ hi => by
      rw [Window.moved_upTo, Source.lineContinues, Source.lineContinues, hlexemes hi]
    word := Source.word_of_isIdentifier }

/-- **From the brace that closes the body on, the texts agree.** -/
theorem agrees_startingAt : (Source.ofText cs).Agrees
    (.startingAt (closing front body) (closing front body') (closing_pos ..) (closing_pos ..))
    (Source.ofText cs') := by
  obtain ⟨gap, hback⟩ := h.getElem?_back
  obtain ⟨gap', hback'⟩ := h'.getElem?_back
  have hsize := h.size_eq
  have hsize' := h'.size_eq
  obtain ⟨brace, hbrace, hkind, -⟩ := h.getElem?_closing
  -- lexemes are numbered from the closing brace on
  have hnumber {i : Nat} (hi : closing front body ≤ i) : ∃ m, i = closing front body + m :=
    Nat.exists_eq_add_of_le hi
  refine ⟨fun hi _ => ?_, fun _ => by rw [hsize, hsize', Window.moved_startingAt],
    .inl (Array.getElem?_eq_some_iff.1 hbrace).1, fun hi _ => ?_, fun hi _ => ?_, fun hi _ => ?_,
    .inl ?_, fun hrelaid => Bool.noConfusion hrelaid, fun _ p i hp hlt _ => ?_, fun _ i hi _ => ?_,
    Source.word_of_isIdentifier⟩
  · obtain ⟨m, rfl⟩ := hnumber hi
    rw [Window.moved_startingAt, hsize, hsize']
    omega
  · obtain ⟨m, rfl⟩ := hnumber hi
    rw [Window.moved_startingAt, Source.spelling, Source.spelling, hback, hback']
    cases (lexemesBack back)[m]? <;> rfl
  · obtain ⟨m, rfl⟩ := hnumber hi
    rw [Window.moved_startingAt, Source.kind?, Source.kind?, hback, hback']
    cases (lexemesBack back)[m]? <;> rfl
  · obtain ⟨m, rfl⟩ := hnumber hi
    rw [Window.moved_startingAt, Source.touchesNext, Source.touchesNext, Nat.add_assoc,
      Nat.add_assoc, hback, hback, hback', hback']
    cases (lexemesBack back)[m]? with
    | none => rfl
    | some t =>
      cases (lexemesBack back)[m + 1]? with
      | none => rfl
      | some u =>
        simp only [Option.map_some, placed, Lexeme.stop]
        rw [Bool.eq_iff_iff, beq_iff_eq, beq_iff_eq]
        omega
  · change (Source.ofText cs).kind? (closing front body) = _
    rw [Source.kind?, hbrace, Option.map_some, hkind]
  · obtain ⟨m, rfl⟩ := hnumber hp
    obtain ⟨n, rfl⟩ := hnumber (Nat.le_trans hp (Nat.le_of_lt hlt))
    rw [Window.moved_startingAt, Window.moved_startingAt]
    cases hn : (lexemesBack back)[n]? with
    | none =>
      -- behind the end of the text no lexeme is on a later line
      have hnone := hback n
      have hnone' := hback' n
      rw [hn, Option.map_none] at hnone hnone'
      rw [Source.startLine, Source.startLine, hnone, hnone']
      exact iff_of_false (Nat.not_lt_zero _) (Nat.not_lt_zero _)
    | some u =>
      have hm : m < (lexemesBack back).length :=
        Nat.lt_trans (Nat.lt_of_add_lt_add_left hlt) (List.getElem?_eq_some_iff.1 hn).1
      obtain ⟨_, last, hstop⟩ := lines_back (List.getElem?_eq_getElem hm)
      obtain ⟨first, _, hstart⟩ := lines_back hn
      rw [(hstop h).2, (hstart h).1, (hstop h').2, (hstart h').1]
      omega
  · obtain ⟨m, rfl⟩ := hnumber hi
    rw [Window.moved_startingAt, Source.lineContinues, Source.lineContinues, Nat.add_assoc,
      Nat.add_assoc, hback, hback']
    cases (lexemesBack back)[m + 1]? <;> rfl

end HasBody

end DocIndex
