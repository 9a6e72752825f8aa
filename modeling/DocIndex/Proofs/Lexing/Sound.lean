import DocIndex.Proofs.Source.Fronts

/-!
# What is cut off a text

A text is cut into layout, lexemes, and what cannot be read. Here it is said what each of them may
be, with what follows it in the text, and that what is cut off is of that form.

* `Lexer.Passed` — a character that is passed over as layout.
* `Lexer.Terminated` — a comment or raw string that is a lexeme ends at the first closing.
* `Lexer.Unlexable` — what is told as a fault.
* `sound_of_stretches` — **every stretch of a text is of its form.**
-/

namespace DocIndex

namespace Lexer

/-! ## The forms -/

/-- The character `c` is passed over between `front` and `back`: it is layout, or a backslash that
continues a line, or a backslash directly behind layout. -/
inductive Passed (front : List Char) (c : Char) (back : List Char) : Prop
  | layout (hc : isLayout c = true)
  | continued (hc : c = '\\') (hback : ['\n'] <+: back ∨ ['\r', '\n'] <+: back)
  | behindLayout (hc : c = '\\') {d : Char} (hd : d ∈ front.getLast?) (hlayout : isLayout d = true)

/-- What closes a comment of more lines. -/
def blockEnd : List Char :=
  ['*', '/']

/-- What closes a raw string. -/
def rawEnd (delimiter : List Char) : List Char :=
  ')' :: (delimiter ++ ['"'])

/-- The text `body` is followed by the word for the first time where it ends. -/
def EndsFirst (word body : List Char) : Prop :=
  ¬ word <:+: body ++ word.dropLast

/-- A comment or raw string, with `rest` behind it, ends where it is closed for the first time. -/
structure Terminated (kind : LexemeKind) (text rest : List Char) : Prop where
  comment : kind = .comment →
    (∃ body, text = '/' :: '/' :: body ∧ '\r' ∉ body ∧ '\n' ∉ body ∧
        (rest = [] ∨ ['\r'] <+: rest ∨ ['\n'] <+: rest)) ∨
      ∃ body, text = '/' :: '*' :: (body ++ blockEnd) ∧ EndsFirst blockEnd body
  rawString : ∀ enc ∈ encodings, ∀ tail, text = enc ++ 'R' :: '"' :: tail →
    ∃ delimiter body, isDelimiter delimiter = true ∧ '(' ∉ delimiter ∧
      tail = delimiter ++ '(' :: (body ++ rawEnd delimiter) ∧ EndsFirst (rawEnd delimiter) body

/-- The text may stand between two marks: no mark or end of line stands in it, unless the mark is
escaped. -/
inductive Quotable (mark : Char) : List Char → Prop
  | nil : Quotable mark []
  | char {c : Char} {cs : List Char} (hmark : c ≠ mark) (hend : c ≠ '\n') (hescape : c ≠ '\\')
      (hcs : Quotable mark cs) : Quotable mark (c :: cs)
  | escape {c : Char} {cs : List Char} (hend : c ≠ '\n') (hcs : Quotable mark cs) :
      Quotable mark ('\\' :: c :: cs)

/-- No literal goes on: the text is over, but for a backslash that escapes nothing, or the line
is. -/
def Broken (rest : List Char) : Prop :=
  rest = [] ∨ rest = ['\\'] ∨ ['\n'] <+: rest ∨ ['\\', '\n'] <+: rest

/-- No lexeme begins with the character, and no layout. -/
structure Foreign (c : Char) : Prop where
  layout : isLayout c = false
  word : isWordStart c = false
  number : c.isDigit = false
  punctuator : c ∉ shortPunctuators
  mark : c ≠ '"' ∧ c ≠ '\''

/-- What cannot be read, with what follows it: a comment or raw string that is never closed, which
takes in the rest of the text, the opening of a raw string without a delimiter, a literal up to
where it breaks off, or a character that nothing begins with. -/
inductive Unlexable : List Char → List Char → Prop
  | comment {body : List Char} (hbody : ¬ blockEnd <:+: body) : Unlexable ('/' :: '*' :: body) []
  | rawOpening {enc rest : List Char} (henc : enc ∈ encodings)
      (hrest : ∀ delimiter tail, rest = delimiter ++ '(' :: tail → '(' ∉ delimiter →
        isDelimiter delimiter = false) :
      Unlexable (enc ++ ['R', '"']) rest
  | rawString {enc delimiter body : List Char} (henc : enc ∈ encodings)
      (hdelimiter : isDelimiter delimiter = true) (hopen : '(' ∉ delimiter)
      (hbody : ¬ rawEnd delimiter <:+: body) :
      Unlexable (enc ++ 'R' :: '"' :: (delimiter ++ '(' :: body)) []
  | literal {enc body rest : List Char} {mark : Char} (henc : enc ∈ encodings)
      (hmark : mark = '"' ∨ mark = '\'') (hbody : Quotable mark body) (hrest : Broken rest) :
      Unlexable (enc ++ mark :: body) rest
  | character {c : Char} {rest : List Char} (hc : Foreign c) : Unlexable [c] rest

/-- The stretch is of its form, with `rest` behind it. -/
def Sound (x : Stretch) (rest : List Char) : Prop :=
  match x.role with
  | .blank => ∀ front c back, x.text = front ++ c :: back → Passed front c (back ++ rest)
  | .lexeme kind => Terminated kind x.text rest
  | .fault => Unlexable x.text rest

/-! ## Words that are looked for -/

variable {c : Char} {cs word text rest : List Char} {n : Nat} {found : Bool}

theorem before?_eq_some (hword : word ≠ []) (h : before? word text = some n) :
    ∃ body rest, text = body ++ (word ++ rest) ∧ body.length = n ∧ EndsFirst word body := by
  induction text generalizing n with
  | nil =>
    rw [before?] at h
    split at h
    · rename_i hempty
      exact absurd (List.isEmpty_iff.1 hempty) hword
    · cases h
  | cons c text ih =>
    rw [before?] at h
    split at h
    · rename_i hpre
      cases h
      obtain ⟨rest, hrest⟩ := List.isPrefixOf_iff_prefix.1 hpre
      refine ⟨[], rest, hrest.symm, rfl, fun hin => ?_⟩
      have hlen := hin.length_le
      have hpos := List.length_pos_iff.2 hword
      rw [List.nil_append, List.length_dropLast] at hlen
      omega
    · rename_i hpre
      obtain ⟨m, hm, rfl⟩ := Option.map_eq_some_iff.1 h
      obtain ⟨body, rest, rfl, rfl, hfirst⟩ := ih hm
      refine ⟨c :: body, rest, rfl, rfl, fun hin => ?_⟩
      rw [List.cons_append, List.infix_cons_iff] at hin
      rcases hin with hhere | hlater
      · -- the word would have been found at once
        refine hpre (List.isPrefixOf_iff_prefix.2 (hhere.trans ?_))
        rw [List.prefix_cons_inj, List.prefix_append_right_inj]
        exact (List.dropLast_prefix word).trans (List.prefix_append word rest)
      · exact hfirst hlater

theorem before?_eq_none (h : before? word text = none) : ¬ word <:+: text := by
  induction text with
  | nil =>
    rw [before?] at h
    split at h
    · cases h
    · rename_i hempty
      intro hin
      exact hempty (List.isEmpty_iff.2 (List.infix_nil.1 hin))
  | cons c text ih =>
    rw [before?] at h
    split at h
    · cases h
    · rename_i hpre
      intro hin
      rcases List.infix_cons_iff.1 hin with hhere | hlater
      · exact hpre (List.isPrefixOf_iff_prefix.2 hhere)
      · exact ih (Option.map_eq_none_iff.1 h) hlater

/-! ## Layout -/

/-- A character is the first one, or one of those behind it. -/
theorem passed_cons (front : List Char) {e : Char} {mid back : List Char}
    (htext : e :: cs = mid ++ c :: back) (hhere : Passed front e cs)
    (hlater : ∀ mid', mid.length = mid'.length + 1 → cs = mid' ++ c :: back →
      Passed ((front ++ [e]) ++ mid') c back) : Passed (front ++ mid) c back := by
  rcases List.cons_eq_append_iff.1 htext with ⟨rfl, hhead⟩ | ⟨mid', rfl, htail⟩
  · obtain ⟨rfl, rfl⟩ := List.cons.inj hhead
    rwa [List.append_nil]
  · rw [List.append_cons]
    exact hlater mid' List.length_cons htail

/-- What goes on with layout is passed over. -/
theorem passed_layoutTail (front : List Char) {d : Char} (hd : d ∈ front.getLast?)
    (hlayout : isLayout d = true) {mid back : List Char} (htext : cs = mid ++ c :: back)
    (hlt : mid.length < layoutTail cs) : Passed (front ++ mid) c back := by
  fun_induction layoutTail cs generalizing front d mid with
  | case1 => cases hlt
  | case2 cs ih =>
    refine passed_cons _ htext (.continued rfl (.inr ⟨cs, rfl⟩)) fun mid₁ h₁ htext => ?_
    refine passed_cons _ htext (.layout rfl) fun mid₂ h₂ htext => ?_
    refine passed_cons _ htext (.layout rfl) fun mid₃ h₃ htext => ?_
    exact ih _ (d := '\n') (by simp) rfl htext (by omega)
  | case3 cs ih =>
    refine passed_cons _ htext (.continued rfl (.inl ⟨cs, rfl⟩)) fun mid₁ h₁ htext => ?_
    refine passed_cons _ htext (.layout rfl) fun mid₂ h₂ htext => ?_
    exact ih _ (d := '\n') (by simp) rfl htext (by omega)
  | case4 cs =>
    refine passed_cons _ htext (.behindLayout rfl hd hlayout) fun mid₁ h₁ _ => ?_
    omega
  | case5 e cs _ _ _ he ih =>
    refine passed_cons _ htext (.layout he) fun mid₁ h₁ htext => ?_
    exact ih _ (d := e) (by simp) he htext (by omega)
  | case6 => cases hlt

/-- Layout is passed over. -/
theorem passed_layoutLength {mid back : List Char} (htext : cs = mid ++ c :: back)
    (hlt : mid.length < layoutLength cs) : Passed mid c back := by
  unfold layoutLength at hlt
  split at hlt
  · cases hlt
  · rename_i cs
    refine passed_cons [] htext (.continued rfl (.inr ⟨cs, rfl⟩)) fun mid₁ h₁ htext => ?_
    refine passed_cons _ htext (.layout rfl) fun mid₂ h₂ htext => ?_
    refine passed_cons _ htext (.layout rfl) fun mid₃ h₃ htext => ?_
    exact passed_layoutTail _ (d := '\n') (by simp) rfl htext (by omega)
  · rename_i cs
    refine passed_cons [] htext (.continued rfl (.inl ⟨cs, rfl⟩)) fun mid₁ h₁ htext => ?_
    refine passed_cons _ htext (.layout rfl) fun mid₂ h₂ htext => ?_
    exact passed_layoutTail _ (d := '\n') (by simp) rfl htext (by omega)
  · rename_i e cs _ _
    split at hlt
    · rename_i he
      refine passed_cons [] htext (.layout he) fun mid₁ h₁ htext => ?_
      exact passed_layoutTail _ (d := e) (by simp) he htext (by omega)
    · cases hlt

/-! ## Literals -/

/-- What is cut off for the body of a literal: all of it with its mark, or what can be read. -/
theorem bodyLength_cases {mark : Char} (h : bodyLength mark text = (n, found)) :
    ∃ body rest, Quotable mark body ∧
      (found = true ∧ text = body ++ mark :: rest ∧ n = body.length + 1 ∨
        found = false ∧ text = body ++ rest ∧ n = body.length ∧ Broken rest) := by
  fun_induction bodyLength mark text generalizing n with
  | case1 =>
    obtain ⟨rfl, rfl⟩ := Prod.mk.inj h
    exact ⟨[], [], .nil, .inr ⟨rfl, rfl, rfl, .inl rfl⟩⟩
  | case2 cs =>
    obtain ⟨rfl, rfl⟩ := Prod.mk.inj h
    exact ⟨[], _, .nil, .inr ⟨rfl, rfl, rfl, .inr (.inr (.inr ⟨cs, rfl⟩))⟩⟩
  | case3 c cs hc b =>
    rename_i ih
    obtain ⟨rfl, rfl⟩ := Prod.mk.inj h
    obtain ⟨body, rest, hbody, hcases⟩ := ih (Prod.ext rfl rfl)
    refine ⟨'\\' :: c :: body, rest, .escape hc hbody, ?_⟩
    refine hcases.imp ?_ ?_
    · rintro ⟨hfound, rfl, hlen⟩
      exact ⟨hfound, rfl, by simp [b, hlen]⟩
    · rintro ⟨hfound, rfl, hlen, hbroken⟩
      exact ⟨hfound, rfl, by simp [b, hlen], hbroken⟩
  | case4 cs =>
    obtain ⟨rfl, rfl⟩ := Prod.mk.inj h
    exact ⟨[], cs, .nil, .inl ⟨rfl, rfl, rfl⟩⟩
  | case5 c cs hescape hc hstop =>
    obtain ⟨rfl, rfl⟩ := Prod.mk.inj h
    refine ⟨[], _, .nil, .inr ⟨rfl, rfl, rfl, ?_⟩⟩
    simp only [Bool.or_eq_true, decide_eq_true_eq] at hstop
    rcases hstop with rfl | rfl
    · exact .inr (.inr (.inl ⟨cs, rfl⟩))
    · cases cs with
      | nil => exact .inr (.inl rfl)
      | cons d ds => exact (hescape d ds rfl rfl).elim
  | case6 c cs hescape hc hstop b =>
    rename_i ih
    obtain ⟨rfl, rfl⟩ := Prod.mk.inj h
    obtain ⟨body, rest, hbody, hcases⟩ := ih (Prod.ext rfl rfl)
    simp only [Bool.or_eq_true, decide_eq_true_eq, not_or] at hstop
    refine ⟨c :: body, rest, .char hc hstop.1 hstop.2 hbody, ?_⟩
    refine hcases.imp ?_ ?_
    · rintro ⟨hfound, rfl, hlen⟩
      exact ⟨hfound, rfl, by simp [b, hlen]⟩
    · rintro ⟨hfound, rfl, hlen, hbroken⟩
      exact ⟨hfound, rfl, by simp [b, hlen], hbroken⟩

/-- What stands in front of the first parenthesis. -/
theorem delimiter_eq {delimiter delimiter' tail tail' : List Char} (h : '(' ∉ delimiter)
    (h' : '(' ∉ delimiter') (htext : delimiter ++ '(' :: tail = delimiter' ++ '(' :: tail') :
    delimiter = delimiter' := by
  have hfront {ds : List Char} (tail : List Char) (h : '(' ∉ ds) :
      (ds ++ '(' :: tail).takeWhile (· != '(') = ds := by
    have hall : ∀ c ∈ ds, (c != '(') = true := by
      intro c hc
      rw [bne_iff_ne]
      rintro rfl
      exact h hc
    rw [List.takeWhile_append_of_pos hall]
    simp
  rw [← hfront tail h, htext, hfront tail' h']

/-- What is cut off behind the opening of a raw string: the string up to where it is closed, all of
the text, or nothing. -/
theorem rawTail_cases (text : List Char) :
    (∃ delimiter body rest, isDelimiter delimiter = true ∧ '(' ∉ delimiter ∧
        text = delimiter ++ '(' :: (body ++ rawEnd delimiter) ++ rest ∧
        EndsFirst (rawEnd delimiter) body ∧
        rawTail text = (.lexeme .literal, (delimiter ++ '(' :: (body ++ rawEnd delimiter)).length)) ∨
      (∃ delimiter body, isDelimiter delimiter = true ∧ '(' ∉ delimiter ∧
        text = delimiter ++ '(' :: body ∧ ¬ rawEnd delimiter <:+: body ∧
        rawTail text = (.fault, text.length)) ∨
      (∀ delimiter tail, text = delimiter ++ '(' :: tail → '(' ∉ delimiter →
        isDelimiter delimiter = false) ∧ rawTail text = (.fault, 0) := by
  cases hopen : before? ['('] text with
  | none =>
    refine .inr (.inr ⟨fun delimiter tail htext _ => ?_, by simp only [rawTail, hopen]⟩)
    exact absurd ⟨delimiter, tail, by simp [htext]⟩ (before?_eq_none hopen)
  | some n =>
    obtain ⟨delimiter, tail, rfl, rfl, hfirst⟩ := before?_eq_some (List.cons_ne_nil _ _) hopen
    have hparen : '(' ∉ delimiter := by
      intro hmem
      obtain ⟨front, back, rfl⟩ := List.append_of_mem hmem
      exact hfirst ⟨front, back, by simp⟩
    have hdrop : (delimiter ++ ('(' :: tail)).drop (delimiter.length + 1) = tail := by
      rw [← List.drop_drop, List.drop_left]
      rfl
    rw [List.singleton_append] at hopen ⊢
    cases hdelimiter : isDelimiter delimiter with
    | false =>
      refine .inr (.inr ⟨fun delimiter' tail' htext hparen' => ?_, ?_⟩)
      · rw [← delimiter_eq hparen hparen' htext]
        exact hdelimiter
      · simp only [rawTail, hopen, List.take_left, hdelimiter, Bool.false_eq_true, if_false]
    | true =>
      cases hclose : before? (rawEnd delimiter) tail with
      | none =>
        have hnone : before? (')' :: delimiter ++ ['"']) tail = none := hclose
        refine .inr (.inl ⟨delimiter, tail, hdelimiter, hparen, rfl, before?_eq_none hclose, ?_⟩)
        simp only [rawTail, hopen, List.take_left, hdrop, hdelimiter, if_true, hnone]
      | some m =>
        have hsome : before? (')' :: delimiter ++ ['"']) tail = some m := hclose
        have hraw : rawTail (delimiter ++ '(' :: tail) =
            (.lexeme .literal, delimiter.length + 1 + m + (rawEnd delimiter).length) := by
          simp only [rawTail, hopen, List.take_left, hdrop, hdelimiter, if_true, hsome]
          rfl
        obtain ⟨body, rest, rfl, rfl, hend⟩ := before?_eq_some (List.cons_ne_nil _ _) hclose
        refine .inl ⟨delimiter, body, rest, hdelimiter, hparen, by simp [rawEnd], hend,
          hraw.trans ?_⟩
        refine Prod.ext rfl ?_
        simp only [List.length_append, List.length_cons]
        omega

/-- The marks that open a literal, behind its encoding. -/
def Opens (mark : List Char) : LiteralForm → Prop
  | .raw => mark = ['R', '"']
  | .between c => (c = '"' ∨ c = '\'') ∧ mark = [c]

/-- A literal is opened by an encoding and the marks behind it. -/
theorem opening?_cases {form : LiteralForm} (h : opening? text = some (n, form)) :
    ∃ enc ∈ encodings, ∃ mark rest, Opens mark form ∧ text = (enc ++ mark) ++ rest ∧
      n = (enc ++ mark).length := by
  have hencoded {cs : List Char} {k : Nat} (enc : List Char) (henc : enc ∈ encodings)
      (htext : text = enc ++ cs) (hk : openingMark? cs = some (k, form))
      (hn : n = enc.length + k) :
      ∃ enc ∈ encodings, ∃ mark rest, Opens mark form ∧ text = (enc ++ mark) ++ rest ∧
        n = (enc ++ mark).length := by
    refine ⟨enc, henc, cs.take k, cs.drop k, ?_, ?_, ?_⟩
    · unfold openingMark? at hk
      split at hk <;> cases hk <;> simp [Opens]
    · rw [htext, List.append_assoc, List.take_append_drop]
    · unfold openingMark? at hk
      split at hk <;> cases hk <;> simpa using hn
  have hmapped {cs : List Char} (enc : List Char) (henc : enc ∈ encodings)
      (htext : text = enc ++ cs)
      (h : (openingMark? cs).map (fun m => (m.1 + enc.length, m.2)) = some (n, form)) :
      ∃ enc ∈ encodings, ∃ mark rest, Opens mark form ∧ text = (enc ++ mark) ++ rest ∧
        n = (enc ++ mark).length := by
    obtain ⟨⟨k, form'⟩, hk, heq⟩ := Option.map_eq_some_iff.1 h
    cases heq
    exact hencoded enc henc htext hk (Nat.add_comm _ _)
  unfold opening? at h
  split at h
  · exact hmapped ['u', '8'] (by decide) rfl h
  · exact hmapped ['u'] (by decide) rfl h
  · exact hmapped ['U'] (by decide) rfl h
  · exact hmapped ['L'] (by decide) rfl h
  · exact hencoded [] (by decide) rfl h (Nat.zero_add _).symm

/-! ## Fronts -/

/-- What is cut off is the front of the text. -/
theorem cut_eq {front : List Char} (htext : c :: cs = front ++ rest) (hn : front.length = n)
    (hpos : 0 < n) : c :: cs.take (n - 1) = front ∧ cs.drop (n - 1) = rest := by
  subst hn
  cases front with
  | nil => cases hpos
  | cons d front =>
    obtain ⟨rfl, rfl⟩ := List.cons.inj htext
    simp

/-- The first `n` characters of the text are of their form. -/
def SoundCut (c : Char) (cs : List Char) (f : Role × Nat) : Prop :=
  Sound ⟨f.1, c :: cs.take (f.2 - 1)⟩ (cs.drop (f.2 - 1))

theorem SoundCut.of_append {role : Role} {front : List Char} (htext : c :: cs = front ++ rest)
    (hn : front.length = n) (hpos : 0 < n) (h : Sound ⟨role, front⟩ rest) :
    SoundCut c cs (role, n) := by
  obtain ⟨hfront, hrest⟩ := cut_eq htext hn hpos
  unfold SoundCut
  simp only [hfront, hrest]
  exact h

/-- A lexeme is no raw string if none is opened where it stands. -/
theorem Terminated.of_not_raw {kind : LexemeKind} (htext : cs = text ++ rest)
    (hraw : ∀ n, opening? cs ≠ some (n, .raw))
    (hcomment : kind = .comment →
      (∃ body, text = '/' :: '/' :: body ∧ '\r' ∉ body ∧ '\n' ∉ body ∧
          (rest = [] ∨ ['\r'] <+: rest ∨ ['\n'] <+: rest)) ∨
        ∃ body, text = '/' :: '*' :: (body ++ blockEnd) ∧ EndsFirst blockEnd body) :
    Terminated kind text rest where
  comment := hcomment
  rawString enc henc tail htail := by
    refine absurd ?_ (hraw (enc.length + 2))
    rw [htext, htail]
    simp only [encodings, List.mem_cons, List.not_mem_nil, or_false] at henc
    rcases henc with rfl | rfl | rfl | rfl | rfl <;> rfl

theorem opening?_slash (cs : List Char) (n : Nat) : opening? ('/' :: cs) ≠ some (n, .raw) := by
  simp [opening?, openingMark?]

/-- A comment up to the end of the line. -/
theorem sound_lineComment (cs : List Char) :
    SoundCut '/' ('/' :: cs) (.lexeme .comment, lineLength ('/' :: '/' :: cs)) := by
  have htext : '/' :: '/' :: cs =
      ('/' :: '/' :: cs.takeWhile fun c => c != '\r' && c != '\n') ++
        cs.dropWhile fun c => c != '\r' && c != '\n' := by
    simp [List.takeWhile_append_dropWhile]
  refine .of_append htext rfl (Nat.succ_pos _) ?_
  refine .of_not_raw htext (opening?_slash _) fun _ => .inl ⟨_, rfl, ?_, ?_, ?_⟩
  · exact fun h => absurd (List.all_eq_true.1 List.all_takeWhile _ h) (by decide)
  · exact fun h => absurd (List.all_eq_true.1 List.all_takeWhile _ h) (by decide)
  · have hend := List.head?_dropWhile_not (fun c => c != '\r' && c != '\n') cs
    cases hrest : cs.dropWhile fun c => c != '\r' && c != '\n' with
    | nil => exact .inl rfl
    | cons d ds =>
      rw [hrest] at hend
      simp only [List.head?_cons, Bool.and_eq_false_iff, bne_eq_false_iff_eq] at hend
      rcases hend with rfl | rfl
      · exact .inr (.inl ⟨ds, rfl⟩)
      · exact .inr (.inr ⟨ds, rfl⟩)

/-- A comment up to where it is closed, or all the rest of the text. -/
theorem sound_blockComment (cs : List Char) :
    SoundCut '/' ('*' :: cs)
      (match before? blockEnd cs with
        | some n => (.lexeme .comment, n + 4)
        | none => (.fault, ('/' :: '*' :: cs).length)) := by
  cases h : before? blockEnd cs with
  | none =>
    exact .of_append (List.append_nil _).symm rfl (Nat.succ_pos _)
      (.comment (before?_eq_none h))
  | some n =>
    obtain ⟨body, rest, rfl, rfl, hfirst⟩ := before?_eq_some (List.cons_ne_nil _ _) h
    have htext : '/' :: '*' :: (body ++ (blockEnd ++ rest)) =
        ('/' :: '*' :: (body ++ blockEnd)) ++ rest := by
      simp
    refine .of_append htext (by simp [blockEnd]) (Nat.succ_pos _) ?_
    exact .of_not_raw htext (opening?_slash _) fun _ => .inr ⟨body, rfl, hfirst⟩

/-- The opening of a raw string can be read in one way only. -/
theorem tail_eq_of_rawOpening {enc enc' tail tail' : List Char} (henc : enc ∈ encodings)
    (henc' : enc' ∈ encodings)
    (h : enc ++ 'R' :: '"' :: tail = enc' ++ 'R' :: '"' :: tail') : tail = tail' := by
  simp only [encodings, List.mem_cons, List.not_mem_nil, or_false] at henc henc'
  rcases henc with rfl | rfl | rfl | rfl | rfl <;>
    rcases henc' with rfl | rfl | rfl | rfl | rfl <;> simp at h <;> exact h

/-- A raw string up to where it is closed, or what cannot be read of it. -/
theorem sound_rawString {enc ds : List Char} (henc : enc ∈ encodings) (cs : List Char)
    (htext : c :: ds = (enc ++ ['R', '"']) ++ cs) :
    SoundCut c ds ((rawTail cs).1, (enc ++ ['R', '"']).length + (rawTail cs).2) := by
  have hpos (k : Nat) : 0 < (enc ++ ['R', '"']).length + k := by
    simp only [List.length_append, List.length_cons]
    omega
  rcases rawTail_cases cs with ⟨delimiter, body, rest, hdelimiter, hparen, rfl, hend, hraw⟩ |
    ⟨delimiter, body, hdelimiter, hparen, rfl, hbody, hraw⟩ | ⟨hdelimiter, hraw⟩
  · rw [hraw]
    rw [← List.append_assoc] at htext
    refine .of_append htext List.length_append (hpos _) ⟨fun hkind => (nomatch hkind), ?_⟩
    intro enc' henc' tail htail
    rw [List.append_assoc] at htail
    exact ⟨delimiter, body, hdelimiter, hparen, (tail_eq_of_rawOpening henc henc' htail).symm, hend⟩
  · rw [hraw]
    rw [← List.append_nil (enc ++ _ ++ _)] at htext
    refine .of_append htext List.length_append (hpos _) ?_
    rw [List.append_assoc]
    exact .rawString henc hdelimiter hparen hbody
  · rw [hraw]
    exact .of_append htext rfl (hpos 0) (.rawOpening henc hdelimiter)

/-- A literal between marks, or what cannot be read of it. -/
theorem sound_quoted {enc ds : List Char} {mark : Char} (henc : enc ∈ encodings)
    (hmark : mark = '"' ∨ mark = '\'') (cs : List Char) (htext : c :: ds = (enc ++ [mark]) ++ cs)
    (hraw : ∀ n, opening? (c :: ds) ≠ some (n, .raw)) :
    SoundCut c ds (if (bodyLength mark cs).2 then .lexeme .literal else .fault,
      (enc ++ [mark]).length + (bodyLength mark cs).1) := by
  have hpos (k : Nat) : 0 < (enc ++ [mark]).length + k := by
    simp only [List.length_append, List.length_cons]
    omega
  have hcut : bodyLength mark cs = ((bodyLength mark cs).1, (bodyLength mark cs).2) := rfl
  obtain ⟨body, rest, hbody, ⟨hfound, rfl, hn⟩ | ⟨hfound, rfl, hn, hbroken⟩⟩ :=
    bodyLength_cases hcut
  · rw [hfound, if_pos rfl]
    have hall : c :: ds = ((enc ++ [mark]) ++ (body ++ [mark])) ++ rest := by simp [htext]
    refine .of_append hall (by simp [hn]; omega) (hpos _) ?_
    exact .of_not_raw hall hraw fun hkind => (nomatch hkind)
  · rw [hfound, if_neg Bool.false_ne_true]
    rw [← List.append_assoc] at htext
    refine .of_append htext (by rw [hn, List.length_append]) (hpos _) ?_
    rw [List.append_assoc]
    exact .literal henc hmark hbody hbroken

/-- Layout at the front of a text. -/
theorem sound_layout (hpos : 0 < n) (hn : n = layoutLength (c :: cs)) :
    SoundCut c cs (.blank, n) := by
  intro front d back (hfront : c :: cs.take (n - 1) = front ++ d :: back)
  have hlen := congrArg List.length hfront
  simp only [List.length_cons, List.length_take, List.length_append] at hlen
  have htext : c :: cs = front ++ d :: (back ++ cs.drop (n - 1)) := by
    rw [← List.cons_append, ← List.append_assoc, ← hfront, List.cons_append, List.take_append_drop]
  exact passed_layoutLength htext (by omega)

/-- A lexeme that opens no literal and is no comment. -/
theorem sound_plain {kind : LexemeKind} (hkind : kind ≠ .comment)
    (hopen : opening? (c :: cs) = none) : SoundCut c cs (.lexeme kind, n) := by
  have htext : c :: cs = (c :: cs.take (n - 1)) ++ cs.drop (n - 1) := by simp
  exact .of_not_raw htext (by simp [hopen]) fun hcomment => absurd hcomment hkind

/-- A character that begins nothing. -/
theorem foreign_of_none (hlayout : layoutLength (c :: cs) = 0) (hopen : opening? (c :: cs) = none)
    (hword : isWordStart c = false) (hnumber : startsNumber (c :: cs) = false)
    (hpunctuator : punctuator? (c :: cs) = none) : Foreign c := by
  have hshort : c ∉ shortPunctuators := by
    unfold punctuator? at hpunctuator
    split at hpunctuator
    · cases hpunctuator
    · simpa using hpunctuator
  have hmark (d : Char) (hd : (openingMark? (d :: cs)).isSome = true)
      (hplain : d ≠ 'u' ∧ d ≠ 'U' ∧ d ≠ 'L') : c ≠ d := by
    rintro rfl
    unfold opening? at hopen
    split at hopen <;> simp_all
  refine ⟨(layoutLength_cons_eq_zero.1 hlayout).1, hword, ?_, hshort, hmark '"' rfl (by decide),
    hmark '\'' rfl (by decide)⟩
  by_cases hdot : c = '.'
  · subst hdot
    rfl
  · simpa [startsNumber, hdot] using hnumber

/-- **What stands at the front of a text is of its form.** -/
theorem sound_front (c : Char) (cs : List Char) : SoundCut c cs (front c cs) := by
  unfold front
  simp only
  split
  · rename_i hlayout
    exact sound_layout hlayout rfl
  rename_i hlayout
  split
  · rename_i hslash
    obtain ⟨rest, hrest⟩ := List.isPrefixOf_iff_prefix.1 hslash
    cases hrest
    exact sound_lineComment rest
  split
  · rename_i hslash
    obtain ⟨rest, hrest⟩ := List.isPrefixOf_iff_prefix.1 hslash
    cases hrest
    exact sound_blockComment rest
  split
  · rename_i n form hopen
    obtain ⟨enc, henc, mark, rest, hmark, htext, rfl⟩ := opening?_cases hopen
    have hdrop : (c :: cs).drop (enc ++ mark).length = rest := by rw [htext, List.drop_left]
    cases form with
    | raw =>
      cases hmark
      simp only [literal, hdrop]
      exact sound_rawString henc rest htext
    | between q =>
      obtain ⟨hq, rfl⟩ := hmark
      simp only [literal, hdrop]
      refine sound_quoted henc hq rest htext fun n hraw => ?_
      rw [hopen] at hraw
      cases hraw
  rename_i hopen
  split
  · refine sound_plain ?_ hopen
    unfold wordKind
    split <;> simp
  rename_i hword
  split
  · exact sound_plain (by simp) hopen
  rename_i hnumber
  split
  · exact sound_plain (by simp) hopen
  · rename_i hpunctuator
    refine .character (foreign_of_none (by omega) hopen ?_ ?_ hpunctuator)
    · exact Bool.eq_false_iff.2 hword
    · exact Bool.eq_false_iff.2 hnumber

/-- **Every stretch of a text is of its form.** -/
theorem sound_of_stretches {ss ss' : List Stretch} {x : Stretch}
    (h : stretches cs = ss ++ x :: ss') : Sound x (chars ss') := by
  fun_induction stretches cs generalizing ss with
  | case1 => simp at h
  | case2 c cs f =>
    rename_i ih
    rcases List.cons_eq_append_iff.1 h with ⟨rfl, hhead⟩ | ⟨ss₁, rfl, htail⟩
    · obtain ⟨rfl, rfl⟩ := List.cons.inj hhead
      rw [chars_stretches]
      exact sound_front c cs
    · exact ih htail

end Lexer

end DocIndex
