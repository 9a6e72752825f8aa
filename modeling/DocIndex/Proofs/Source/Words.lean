import DocIndex.Source.Parse
import DocIndex.Proofs.Source.Place

/-!
# Texts written as words

A text is often known as the words that it was written from, each with the blank behind it. Where
every word ends before the next one begins, cutting the text gives back the words.

* `Word` — a lexeme to be, and the blank behind it.
* `Word.Reads` — the word is cut off in front of what follows.
* `ofText_spell` — **a text is cut into the words that it was written from.**
-/

namespace DocIndex

open Lexer

/-! ## Fronts -/

/-- Neither a word nor a literal goes on with the text. -/
def EndsWord (cs : List Char) : Prop :=
  ∀ c ∈ cs.head?, isWordPart c = false ∧ c ≠ '"' ∧ c ≠ '\''

/-- The text does not go on with a blank. -/
def EndsBlank (cs : List Char) : Prop :=
  ∀ c ∈ cs.head?, isLayout c = false ∧ c ≠ '\\'

/-- The characters are read as one word. -/
def IsWord (cs : List Char) : Prop :=
  ∃ c rest, cs = c :: rest ∧ isWordStart c = true ∧ ∀ d ∈ cs, isWordPart d = true

theorem isWord_of_all {c : Char} {cs rest : List Char} (h : cs = c :: rest)
    (hc : isWordStart c = true) (hall : cs.all isWordPart = true) : IsWord cs :=
  ⟨c, rest, h, hc, List.all_eq_true.1 hall⟩

section Fronts

variable {c : Char} {cs ws rest : List Char}

theorem layoutLength_eq_zero (h : EndsBlank cs) : layoutLength cs = 0 := by
  cases cs with
  | nil => rfl
  | cons c cs =>
    have hc := h c rfl
    unfold layoutLength
    split
    · rfl
    · simp_all
    · simp_all
    · simp_all

theorem front_blank (hc : c = ' ' ∨ c = '\n') (h : EndsBlank cs) :
    front c cs = (.blank, 1) := by
  have hlay : isLayout c = true := by rcases hc with rfl | rfl <;> rfl
  have htail : layoutTail cs = 0 := by
    cases cs with
    | nil => rfl
    | cons d ds =>
      have hd := h d rfl
      unfold layoutTail
      split <;> simp_all
  have hlen : layoutLength (c :: cs) = 1 := by
    rcases hc with rfl | rfl <;> simp [layoutLength, isLayout, htail]
  simp [front, hlen]

theorem openingMark?_eq_none (hws : ∀ c ∈ ws, isWordPart c = true) (h : EndsWord rest) :
    openingMark? (ws ++ rest) = none := by
  have hquote : ∀ {c}, isWordPart c = true → c ≠ '"' ∧ c ≠ '\'' := by
    intro c hc
    constructor <;> rintro rfl <;> revert hc <;> decide
  -- whatever stands behind an `R` in front, it is no quote
  have hnext : ∀ c cs, ws ++ rest = c :: cs → (c ≠ '"' ∧ c ≠ '\'') ∧
      (c = 'R' → cs.head? ≠ some '"') := by
    intro c cs he
    cases ws with
    | nil =>
      rw [List.nil_append] at he
      subst he
      have hc := h c rfl
      refine ⟨hc.2, ?_⟩
      rintro rfl
      exact absurd hc.1 (by decide)
    | cons d ds =>
      rw [List.cons_append, List.cons.injEq] at he
      obtain ⟨rfl, rfl⟩ := he
      refine ⟨hquote (hws d List.mem_cons_self), fun _ hhead => ?_⟩
      cases ds with
      | nil => exact (h '"' hhead).2.1 rfl
      | cons e es =>
        cases hhead
        exact absurd (hws '"' (List.mem_cons_of_mem _ List.mem_cons_self)) (by decide)
  unfold openingMark?
  split
  · rename_i he
    exact absurd rfl ((hnext _ _ he).2 rfl)
  · rename_i he
    exact absurd rfl (hnext _ _ he).1.1
  · rename_i he
    exact absurd rfl (hnext _ _ he).1.2
  · rfl

theorem opening?_eq_none (hws : ∀ c ∈ ws, isWordPart c = true) (hne : ws ≠ [])
    (h : EndsWord rest) : opening? (ws ++ rest) = none := by
  obtain ⟨c, ws, rfl⟩ := List.exists_cons_of_ne_nil hne
  have hmark : openingMark? (ws ++ rest) = none :=
    openingMark?_eq_none (fun d hd => hws d (List.mem_cons_of_mem _ hd)) h
  have hall := openingMark?_eq_none hws h
  unfold opening?
  split
  · rename_i cs he
    rw [List.cons_append, List.cons.injEq] at he
    obtain ⟨rfl, he⟩ := he
    cases ws with
    | nil =>
      rw [List.nil_append] at he
      subst he
      exact absurd (h '8' rfl).1 (by decide)
    | cons d ws =>
      rw [List.cons_append, List.cons.injEq] at he
      obtain ⟨rfl, rfl⟩ := he
      rw [openingMark?_eq_none (fun e he => hws e (by simp [he])) h]
      rfl
  all_goals first
    | exact hall
    | rename_i cs he
      rw [List.cons_append, List.cons.injEq] at he
      obtain ⟨rfl, rfl⟩ := he
      rw [hmark]
      rfl

theorem endsBlank_of_isWordStart (hc : isWordStart c = true) : EndsBlank (c :: cs) := by
  rintro d hd
  cases hd
  constructor
  · cases hl : isLayout c with
    | false => rfl
    | true =>
      simp only [isLayout, Bool.or_eq_true, decide_eq_true_eq] at hl
      rcases hl with ((((rfl | rfl) | rfl) | rfl) | rfl) | rfl <;> revert hc <;> decide
  · rintro rfl
    revert hc
    decide

theorem front_word (hc : isWordStart c = true) (hws : ∀ d ∈ c :: ws, isWordPart d = true)
    (h : EndsWord rest) :
    front c (ws ++ rest) = (.lexeme (wordKind (c :: ws)), (c :: ws).length) := by
  have hslash : c ≠ '/' := by
    rintro rfl
    revert hc
    decide
  have hlay : layoutLength (c :: (ws ++ rest)) = 0 :=
    layoutLength_eq_zero (endsBlank_of_isWordStart hc)
  have hopen : opening? (c :: (ws ++ rest)) = none :=
    opening?_eq_none hws (List.cons_ne_nil _ _) h
  have htake : (c :: (ws ++ rest)).takeWhile isWordPart = c :: ws := by
    rw [← List.cons_append, List.takeWhile_append_of_pos hws]
    cases rest with
    | nil => rw [List.takeWhile_nil, List.append_nil]
    | cons d ds => rw [List.takeWhile_cons_of_neg (by simp [(h d rfl).1]), List.append_nil]
  have hline : ['/', '/'].isPrefixOf (c :: (ws ++ rest)) = false := by
    simp [List.isPrefixOf, hslash.symm]
  have hblock : ['/', '*'].isPrefixOf (c :: (ws ++ rest)) = false := by
    simp [List.isPrefixOf, hslash.symm]
  simp only [front, hlay, hline, hblock, hopen, hc, htake]
  simp

theorem front_mark (hc : c ∈ ['\x7b', '\x7d', '(', ')', ';', ',']) :
    front c cs = (.lexeme .punctuation, 1) := by
  simp only [List.mem_cons, List.not_mem_nil, or_false] at hc
  rcases hc with rfl | rfl | rfl | rfl | rfl | rfl <;> rfl

theorem front_equals : front '=' (' ' :: cs) = (.lexeme .punctuation, 1) := rfl

theorem front_quoted : front '"' ('C' :: '"' :: cs) = (.lexeme .literal, 3) := rfl

theorem front_line (ht : ∀ c ∈ ws, c ≠ '\r' ∧ c ≠ '\n') :
    front '/' ('/' :: ws ++ '\n' :: rest) = (.lexeme .comment, ws.length + 2) := by
  have htake : (ws ++ '\n' :: rest).takeWhile (fun c => c != '\r' && c != '\n') = ws := by
    rw [List.takeWhile_append_of_pos (by simpa using ht), List.takeWhile_cons_of_neg (by decide),
      List.append_nil]
  have hlen : lineLength ('/' :: '/' :: (ws ++ '\n' :: rest)) = ws.length + 2 := by
    rw [lineLength, List.takeWhile_cons_of_pos (by decide), List.takeWhile_cons_of_pos (by decide),
      htake]
    rfl
  have hlay : layoutLength ('/' :: '/' :: (ws ++ '\n' :: rest)) = 0 := rfl
  simp [front, hlay, List.isPrefixOf, hlen]

end Fronts

/-! ## Words -/

/-- The blank behind a word. -/
inductive Gap
  | none
  | space
  | line
  deriving DecidableEq

/-- The blank as it is written. -/
def Gap.chars : Gap → List Char
  | none => []
  | space => [' ']
  | line => ['\n']

/-- A lexeme to be, and the blank behind it. -/
structure Word where
  kind : LexemeKind
  chars : List Char
  gap : Gap
  deriving DecidableEq

/-- The text of some words. -/
def spell (ws : List Word) : List Char :=
  ws.flatMap fun w => w.chars ++ w.gap.chars

@[simp] theorem spell_nil : spell [] = [] := rfl

@[simp] theorem spell_cons (w : Word) (ws : List Word) :
    spell (w :: ws) = w.chars ++ (w.gap.chars ++ spell ws) := by
  simp [spell]

@[simp] theorem spell_append (ws vs : List Word) : spell (ws ++ vs) = spell ws ++ spell vs := by
  simp [spell]

/-- The word is cut off in front of `rest`, and so is the blank behind it. -/
structure Word.Cuts (w : Word) (rest : List Char) : Prop where
  front : ∃ c cs, w.chars = c :: cs ∧
    Lexer.front c (cs ++ (w.gap.chars ++ rest)) = (.lexeme w.kind, w.chars.length)
  gap : w.gap ≠ .none → EndsBlank rest

/-- Every word is cut off in front of the next one. -/
def Cuttable : List Word → Prop
  | [] => True
  | w :: ws => w.Cuts (spell ws) ∧ Cuttable ws

/-- The word stands on one line and is cut off in front of `rest`, and so is the blank behind it. -/
structure Word.Reads (w : Word) (rest : List Char) : Prop where
  oneLine : '\n' ∉ w.chars
  front : ∃ c cs, w.chars = c :: cs ∧
    Lexer.front c (cs ++ (w.gap.chars ++ rest)) = (.lexeme w.kind, w.chars.length)
  gap : w.gap ≠ .none → EndsBlank rest

/-- Every word stands on one line and is cut off in front of the next one. -/
def Readable : List Word → Prop
  | [] => True
  | w :: ws => w.Reads (spell ws) ∧ Readable ws

theorem Readable.cuttable {ws : List Word} (h : Readable ws) : Cuttable ws := by
  induction ws with
  | nil => trivial
  | cons w ws ih => exact ⟨⟨h.1.front, h.1.gap⟩, ih h.2⟩

/-- The lexemes of words that are written from `offset` on, behind the blank `before`. -/
def lexemesFrom (offset : Nat) (before : List Char) : List Word → List Lexeme
  | [] => []
  | w :: ws =>
    { kind := w.kind
      spelling := String.ofList w.chars
      start := offset
      gap := String.ofList before } ::
        lexemesFrom (offset + byteLength w.chars + byteLength w.gap.chars) w.gap.chars ws

theorem stretches_cons {c : Char} {cs rest : List Char} {role : Role}
    (h : front c (cs ++ rest) = (role, cs.length + 1)) :
    stretches (c :: cs ++ rest) = ⟨role, c :: cs⟩ :: stretches rest := by
  rw [List.cons_append, stretches, h]
  simp

/-- A blank that ends is passed over. -/
theorem ofStretches_gap {g : Gap} {rest : List Char} (h : g ≠ .none → EndsBlank rest)
    (offset : Nat) :
    Lexed.ofStretches offset [] (stretches (g.chars ++ rest)) =
      Lexed.ofStretches (offset + byteLength g.chars) g.chars (stretches rest) := by
  have hblank : ∀ c, g ≠ .none → c = ' ' ∨ c = '\n' →
      stretches (c :: rest) = ⟨.blank, [c]⟩ :: stretches rest := by
    intro c hg hc
    have hfront : front c ([] ++ rest) = (.blank, 1) := front_blank hc (h hg)
    exact stretches_cons hfront
  cases g with
  | none => rfl
  | space =>
    simp only [Gap.chars, List.cons_append, List.nil_append]
    rw [hblank ' ' (by simp) (.inl rfl)]
    simp [Lexed.ofStretches]
  | line =>
    simp only [Gap.chars, List.cons_append, List.nil_append]
    rw [hblank '\n' (by simp) (.inr rfl)]
    simp [Lexed.ofStretches]

/-- Words are read off one by one. -/
theorem ofStretches_spell {ws : List Word} (h : Cuttable ws) (offset : Nat) {before : List Char}
    (hbefore : before.reverse = before) :
    Lexed.ofStretches offset before (stretches (spell ws)) =
      ⟨lexemesFrom offset before ws, []⟩ := by
  induction ws generalizing offset before with
  | nil => simp [spell, stretches, Lexed.ofStretches, lexemesFrom]
  | cons w ws ih =>
    obtain ⟨⟨⟨c, cs, hchars, hfront⟩, hgap⟩, hws⟩ := h
    have hg : w.gap.chars.reverse = w.gap.chars := by cases w.gap <;> rfl
    have hrest := (ofStretches_gap hgap (offset + byteLength w.chars)).trans (ih hws _ hg)
    have hlen : w.chars.length = cs.length + 1 := by rw [hchars, List.length_cons]
    rw [hlen] at hfront
    have hcut := stretches_cons hfront
    rw [← hchars] at hcut
    rw [spell_cons, hcut, Lexed.ofStretches, lexemesFrom]
    simp only
    rw [hrest, hbefore]

/-- **A text is cut into the words that it was written from.** -/
theorem ofText_spell {ws : List Word} (h : Cuttable ws) :
    Lexed.ofText (spell ws) = ⟨lexemesFrom 0 [] ws, []⟩ :=
  ofStretches_spell h 0 rfl

/-! ## Kinds of words -/

/-- A word of letters. -/
def letters (text : String) (gap : Gap) : Word :=
  { kind := wordKind text.toList, chars := text.toList, gap }

/-- A punctuator of one character. -/
def mark (c : Char) (gap : Gap) : Word :=
  { kind := .punctuation, chars := [c], gap }

/-- A line comment, without its first slash. -/
def lineComment (cs : List Char) : Word :=
  { kind := .comment, chars := '/' :: cs, gap := .line }

section Kinds

variable {text : String} {c : Char} {cs rest : List Char} {g : Gap} {ws : List Word}

theorem endsBlank_letters (h : IsWord text.toList) : EndsBlank (spell (letters text g :: ws)) := by
  obtain ⟨c, cs, hcs, hc, -⟩ := h
  rw [spell_cons, letters, hcs]
  exact endsBlank_of_isWordStart hc

theorem endsBlank_mark (hc : isLayout c = false ∧ c ≠ '\\') :
    EndsBlank (spell (mark c g :: ws)) := by
  rintro d hd
  cases hd
  exact hc

theorem endsWord_mark (hc : isWordPart c = false ∧ c ≠ '"' ∧ c ≠ '\'') :
    EndsWord (spell (mark c g :: ws)) := by
  rintro d hd
  cases hd
  exact hc

theorem oneLine_letters (h : IsWord text.toList) : '\n' ∉ (letters text g).chars := by
  obtain ⟨c, cs, -, -, hall⟩ := h
  exact fun hmem => absurd (hall _ hmem) (by decide)

theorem front_letters (h : IsWord text.toList) (hend : g = .none → EndsWord rest) :
    ∃ c cs, (letters text g).chars = c :: cs ∧
      front c (cs ++ ((letters text g).gap.chars ++ rest)) =
        (.lexeme (letters text g).kind, (letters text g).chars.length) := by
  obtain ⟨c, cs, hcs, hc, hall⟩ := h
  refine ⟨c, cs, hcs, ?_⟩
  have hrest : EndsWord (g.chars ++ rest) := by
    cases g with
    | none => exact hend rfl
    | space => rintro d hd; cases hd; decide
    | line => rintro d hd; cases hd; decide
  rw [hcs] at hall
  simpa [letters, hcs] using front_word hc hall hrest

theorem reads_letters (h : IsWord text.toList) (hgap : g ≠ .none → EndsBlank rest)
    (hend : g = .none → EndsWord rest) : (letters text g).Reads rest :=
  ⟨oneLine_letters h, front_letters h hend, hgap⟩

theorem reads_mark (hc : c ∈ ['\x7b', '\x7d', '(', ')', ';', ','])
    (hgap : g ≠ .none → EndsBlank rest) : (mark c g).Reads rest := by
  refine ⟨?_, ⟨c, [], rfl, front_mark hc⟩, hgap⟩
  rintro hmem
  obtain rfl := List.mem_singleton.1 hmem
  revert hc
  decide

theorem reads_equals (h : EndsBlank rest) : (mark '=' .space).Reads rest :=
  ⟨by decide, ⟨'=', [], rfl, front_equals⟩, fun _ => h⟩

theorem reads_lineComment (hcs : ∀ d ∈ cs, d ≠ '\r' ∧ d ≠ '\n') (h : EndsBlank rest) :
    (lineComment ('/' :: cs)).Reads rest := by
  refine ⟨?_, ⟨'/', '/' :: cs, rfl, ?_⟩, fun _ => h⟩
  · rintro hmem
    simp only [lineComment, List.mem_cons, Char.reduceEq, false_or] at hmem
    exact (hcs _ hmem).2 rfl
  · exact front_line hcs

end Kinds

end DocIndex
