import DocIndex.Outline.Declaration
import DocIndex.Proofs.Rescan.Groups

/-!
# A text that is one statement

A text is one statement if its last lexeme is a `;` and in front of that stand words and groups, one
behind the other. Whatever is read in such a text comes to stand in front of a word or a group
again, or at the `;`.

* `Source.IsStatement` — the text is one statement.
* `Source.Runs` — from some lexeme on, words and groups follow up to the `;`.
* `Source.Runs.index_statementEnd` — **a statement that is read from there reaches to the end of
  the text.**
-/

namespace DocIndex

/-! ## Names -/

/-- The text is a word that can name something. -/
structure IsName (text : String) : Prop where
  isWord : IsWord text.toList
  notKeyword : isKeyword text = false

/-- A name is neither a keyword nor a mark. -/
theorem IsName.not_mem {text : String} (h : IsName text) {words : List String}
    (hwords : ∀ word ∈ words,
      isKeyword word = true ∨ word.toList.head?.any Lexer.isWordStart = false) :
    text ∉ words := by
  intro hmem
  obtain ⟨c, rest, hchars, hstart, -⟩ := h.isWord
  rcases hwords text hmem with hkeyword | hhead
  · rw [h.notKeyword] at hkeyword
    cases hkeyword
  · rw [hchars, List.head?_cons, Option.any_some, hstart] at hhead
    cases hhead

theorem IsName.mark {text : String} (h : IsName text) : Mark.of text = .other := by
  have hmarks : text ∉ [";", ",", ":", "=", "<", ">", ">>", "(", "[", "\x7b", "\x7d", "operator",
      "static"] := h.not_mem (by decide)
  simp only [List.mem_cons, List.not_mem_nil, or_false, not_or] at hmarks
  unfold Mark.of
  split <;> simp_all

namespace Source

/-! ## Statements -/

/-- From lexeme `i` up to the last one, `stop`, stand words and groups. -/
inductive Runs (s : Source) (stop : Nat) : Nat → Prop
  | stop : Runs s stop stop
  | word {i : Nat} (hi : i < stop) (hword : s.spelling i ∉ ";" :: bracketWords)
      (hnext : Runs s stop (i + 1)) : Runs s stop i
  | group {i k : Nat} (hi : i < k) (hk : k < stop) (hopening : s.spelling i ∈ ["(", "["])
      (hclose : s.close? i = some k)
      (hangles : ∀ depth, s.angleEndFrom depth 0 i = s.angleEndFrom depth 0 (k + 1))
      (hnext : Runs s stop (k + 1)) : Runs s stop i

/-- The text is one statement, whose `;` is lexeme `stop`. -/
structure IsStatement (s : Source) (stop : Nat) : Prop where
  size : s.size = stop + 1
  semicolon : s.spelling stop = ";"
  /-- A statement holds no comment. -/
  code : ∀ i, s.isComment i = false
  names : ∀ i, s.isIdentifier i = true → IsName (s.spelling i)
  /-- What is no word is spelled as no literal is. -/
  marks : ∀ i < s.size, s.spelling i ∈ ";" :: bracketWords → s.kind? i = some .punctuation
  runs : s.Runs stop 0

/-! ## Going on -/

section

variable {s : Source} {stop i depth : Nat} {word : String}

theorem Runs.le (hr : s.Runs stop i) : i ≤ stop := by
  cases hr with
  | stop => exact Nat.le_refl _
  | word hi => exact Nat.le_of_lt hi
  | group hi hk => exact Nat.le_of_lt (Nat.lt_trans hi hk)

theorem Runs.lt_size (hr : s.Runs stop i) (h : s.IsStatement stop) : i < s.size := by
  rw [h.size]
  exact Nat.lt_succ_of_le hr.le

theorem Runs.is_eq (hr : s.Runs stop i) (h : s.IsStatement stop) (word : String) :
    s.is i word = decide (s.spelling i = word) := by
  rw [is, decide_eq_true (hr.lt_size h), Bool.true_and]
  rfl

theorem Runs.ne_brace (hr : s.Runs stop i) (h : s.IsStatement stop) :
    s.spelling i ≠ "\x7b" ∧ s.spelling i ≠ "\x7d" := by
  cases hr with
  | stop => rw [h.semicolon]; decide
  | word _ hword => constructor <;> intro heq <;> rw [heq] at hword <;> revert hword <;> decide
  | group _ _ hopening =>
    constructor <;> intro heq <;> rw [heq] at hopening <;> revert hopening <;> decide

/-- What opens a group is no word, and no `;` either. -/
theorem mem_of_opening (hopening : word ∈ ["(", "["]) :
    word ∈ ";" :: bracketWords ∧ word ≠ ";" := by
  simp only [List.mem_cons, List.not_mem_nil, or_false] at hopening
  rcases hopening with rfl | rfl <;> decide

theorem groupEnd_of_close {k : Nat} (hclose : s.close? i = some k) : s.groupEnd i = k := by
  rw [groupEnd, hclose, Option.getD_some]

theorem Runs.opensGroup (hr : s.Runs stop i) (h : s.IsStatement stop)
    (hopening : s.spelling i ∈ ["(", "["]) : s.opensGroup i = true := by
  simp only [List.mem_cons, List.not_mem_nil, or_false] at hopening
  rcases hopening with heq | heq <;> simp [Source.opensGroup, hr.is_eq h, heq]

theorem Runs.succ_of_spelling (hr : s.Runs stop i) (h : s.IsStatement stop)
    (hword : s.spelling i ∉ ";" :: bracketWords) : s.Runs stop (i + 1) := by
  cases hr with
  | stop => exact absurd (by rw [h.semicolon]; decide) hword
  | word _ _ hnext => exact hnext
  | group _ _ hopening => exact absurd (mem_of_opening hopening).1 hword

theorem Runs.succ_of_is (hr : s.Runs stop i) (h : s.IsStatement stop) (his : s.is i word = true)
    (hword : word ∉ ";" :: bracketWords) : s.Runs stop (i + 1) :=
  hr.succ_of_spelling h (by rwa [spelling_of_is his])

/-- A mark that ends a word or a group is no word. -/
theorem mem_of_mark {m : Mark} (hm : Mark.of word = m)
    (hmem : m ∈ [.semicolon, .openParen, .openBracket, .openBrace, .closeBrace]) :
    word ∈ ";" :: bracketWords := by
  subst hm
  unfold Mark.of at hmem
  split at hmem <;> first | decide | exact absurd hmem (by decide)

theorem spelling_of_isIdentifier (h : s.IsStatement stop) (hname : s.isIdentifier i = true) :
    s.spelling i ∉ ";" :: bracketWords :=
  (h.names i hname).not_mem (by decide)

theorem Runs.succ_of_isIdentifier (hr : s.Runs stop i) (h : s.IsStatement stop)
    (hname : s.isIdentifier i = true) : s.Runs stop (i + 1) :=
  hr.succ_of_spelling h (spelling_of_isIdentifier h hname)

theorem Runs.behind_group (hr : s.Runs stop i) (h : s.IsStatement stop)
    (hopening : s.spelling i ∈ ["(", "["]) : s.Runs stop (s.groupEnd i + 1) := by
  cases hr with
  | stop => exact absurd h.semicolon (mem_of_opening hopening).2
  | word _ hword => exact absurd (mem_of_opening hopening).1 hword
  | group _ _ _ hclose _ hnext => rwa [groupEnd_of_close hclose]

theorem Runs.eq_stop (hr : s.Runs stop i) (h : s.spelling i = ";") : i = stop := by
  cases hr with
  | stop => rfl
  | word _ hword => rw [h] at hword; exact absurd List.mem_cons_self hword
  | group _ _ hopening => exact absurd h (mem_of_opening hopening).2

/-! ## Statements and template arguments -/

theorem Runs.index_statementEnd (hr : s.Runs stop i) (h : s.IsStatement stop) :
    (s.statementEnd i).index = stop := by
  induction hr with
  | stop => rw [statementEnd, if_pos (Runs.stop.lt_size h), if_pos h.semicolon]
  | @word i hi hword hnext ih =>
    have hr : s.Runs stop i := .word hi hword hnext
    simp only [bracketWords, List.mem_cons, List.not_mem_nil, or_false, not_or] at hword
    have hgroup : s.opensGroup i = false := by
      simp [Source.opensGroup, hr.is_eq h, hword]
    rw [statementEnd, if_pos (hr.lt_size h), if_neg hword.1, hgroup, if_neg (by decide),
      if_neg hword.2.2.2.2.2.2, ih]
  | @group i k hi hk hopening hclose hangles hnext ih =>
    have hr : s.Runs stop i := .group hi hk hopening hclose hangles hnext
    rw [statementEnd, if_pos (hr.lt_size h), if_neg (mem_of_opening hopening).2,
      if_pos (hr.opensGroup h hopening), groupEnd_of_close hclose]
    exact ih

/-- Template arguments end in front of what follows. -/
theorem Runs.behind_angles (hr : s.Runs stop i) (h : s.IsStatement stop) (hi : 0 < i)
    (depth : Nat) : s.Runs stop (s.angleEndFrom depth 0 i + 1) := by
  induction hr generalizing depth with
  | stop =>
    have hword : s.spelling stop ∉ bracketWords := by rw [h.semicolon]; decide
    -- arguments that nothing closes end in front of the `;`
    rw [angleEndFrom, if_pos (Runs.stop.lt_size h), depthAfter_word hword,
      if_neg (by decide), if_pos h.semicolon, Nat.sub_add_cancel hi]
    exact .stop
  | @word i hlt hword hnext ih =>
    have hr : s.Runs stop i := .word hlt hword hnext
    obtain ⟨hsemicolon, hword⟩ := not_or.1 (mt List.mem_cons.2 hword)
    rw [angleEndFrom, if_pos (hr.lt_size h), depthAfter_word hword, if_neg (by decide),
      if_neg hsemicolon]
    split
    · exact hnext
    · exact ih (Nat.succ_pos i) _
  | @group i k _ _ _ _ hangles _ ih =>
    rw [hangles]
    exact ih (Nat.succ_pos k) depth

theorem Runs.behind_angleEnd (hr : s.Runs stop i) (h : s.IsStatement stop)
    (his : s.is i "<" = true) : s.Runs stop (s.angleEnd i + 1) :=
  (hr.succ_of_is h his (by decide)).behind_angles h (Nat.succ_pos i) 1

/-! ## Heads -/

theorem Runs.skipDecorations (hr : s.Runs stop i) (h : s.IsStatement stop) :
    s.Runs stop (s.skipDecorations [] i).index := by
  fun_induction Source.skipDecorations s [] i with
  | case1 i _ hbrackets r ih =>
    rw [Bool.and_eq_true] at hbrackets
    exact ih (hr.behind_group h (by rw [spelling_of_is hbrackets.1]; decide))
  | case2 i _ _ hspecifier r ih =>
    rw [Bool.and_eq_true] at hspecifier
    have hword : s.spelling i ∉ ";" :: bracketWords := by
      have hapart : ∀ word ∈ specifiers, word ∉ ";" :: bracketWords := by decide
      exact hapart _ (List.contains_iff_mem.1 hspecifier.1)
    exact ih ((hr.succ_of_spelling h hword).behind_group h
      (by rw [spelling_of_is hspecifier.2]; decide))
  | case3 i _ _ _ hmacro ih => simp at hmacro
  | case4 => exact hr
  | case5 => exact hr

theorem Runs.skipBrackets (hr : s.Runs stop i) (h : s.IsStatement stop) :
    s.Runs stop (s.skipBrackets i).index := by
  fun_induction Source.skipBrackets s i with
  | case1 i hbracket r ih =>
    exact ih (hr.behind_group h (by rw [spelling_of_is hbracket]; decide))
  | case2 => exact hr

theorem Runs.skipInline (hr : s.Runs stop i) (h : s.IsStatement stop) :
    s.Runs stop (s.skipInline i) := by
  unfold Source.skipInline
  split
  · exact hr.succ_of_is h ‹_› (by decide)
  · exact hr

theorem Runs.namespaceNames (hr : s.Runs stop i) (h : s.IsStatement stop) (names : List String) :
    s.Runs stop (s.namespaceNames names i).2 := by
  fun_induction Source.namespaceNames s names i with
  | case1 names i j hname hcolons ih =>
    exact ih (((hr.skipInline h).succ_of_isIdentifier h hname).succ_of_is h hcolons (by decide))
  | case2 names i j hname _ => exact (hr.skipInline h).succ_of_isIdentifier h hname
  | case3 => exact hr.skipInline h

theorem Runs.recordName (hr : s.Runs stop i) (h : s.IsStatement stop) (qualifier : List String)
    (isSpecialized : Bool) : s.Runs stop (s.recordName qualifier isSpecialized i).index := by
  -- template arguments may stand behind each part of the name
  have hbehind {i : Nat} (hr : s.Runs stop i) (hname : s.isIdentifier i = true) :
      s.Runs stop (if s.is (i + 1) "<" = true then s.angleEnd (i + 1) + 1 else i + 1) := by
    have hnext := hr.succ_of_isIdentifier h hname
    split
    · exact hnext.behind_angleEnd h ‹_›
    · exact hnext
  fun_induction Source.recordName s qualifier isSpecialized i with
  | case1 qualifier isSpecialized i hname hasArguments j hcolons ih =>
    exact ih ((hbehind hr hname).succ_of_is h hcolons (by decide))
  | case2 qualifier isSpecialized i hname hasArguments j _ => exact hbehind hr hname
  | case3 => exact hr

/-- A brace or a `;` stands behind what holds none. -/
theorem le_of_bare (hbare : ∀ k, i ≤ k → k < stop → s.spelling k ≠ "\x7b" ∧ s.spelling k ≠ ";")
    (his : (s.is i "\x7b" || s.is i ";") = true) : stop ≤ i := by
  refine Nat.le_of_not_lt fun hlt => ?_
  obtain ⟨hbrace, hsemicolon⟩ := hbare i (Nat.le_refl i) hlt
  rw [Bool.or_eq_true] at his
  exact his.elim (fun h => hbrace (spelling_of_is h)) fun h => hsemicolon (spelling_of_is h)

/-- A list of base classes that is not ended in front of the last lexeme reaches to that. -/
theorem le_baseListEnd_of_bare
    (hbare : ∀ k, i ≤ k → k < stop → s.spelling k ≠ "\x7b" ∧ s.spelling k ≠ ";")
    (h : s.IsStatement stop) : stop ≤ (s.baseListEnd i).index := by
  fun_induction baseListEnd s i with
  | case1 i hi his => exact le_of_bare hbare his
  | case2 i hi _ _ ih =>
    have hle := le_angleEnd hi
    exact ih fun k hk => hbare k (by omega)
  | case3 i hi _ _ _ r ih =>
    have hle := le_groupEnd hi
    exact ih fun k hk => hbare k (by omega)
  | case4 i hi _ _ _ ih => exact ih fun k hk => hbare k (by omega)
  | case5 i hi =>
    rw [h.size] at hi
    show stop ≤ i
    omega

theorem underlyingEnd_of_bare (hi : i ≤ stop)
    (hbare : ∀ k, i ≤ k → k < stop → s.spelling k ≠ "\x7b" ∧ s.spelling k ≠ ";")
    (h : s.IsStatement stop) : s.underlyingEnd i = stop := by
  fun_induction underlyingEnd s i with
  | case1 i hlt his => exact Nat.le_antisymm hi (le_of_bare hbare his)
  | case2 i hlt his ih =>
    have hne : i ≠ stop := by
      rintro rfl
      rw [Runs.stop.is_eq h, Runs.stop.is_eq h, h.semicolon] at his
      exact his (by decide)
    exact ih (by omega) fun k hk => hbare k (by omega)
  | case3 i hlt =>
    rw [h.size] at hlt
    omega

end

end Source

end DocIndex
