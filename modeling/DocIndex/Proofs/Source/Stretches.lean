import DocIndex.Proofs.Source.Place
import DocIndex.Source.Parse

/-!
# Stretches and lexemes

A text is the text of its stretches, one behind the other (`chars_stretches`), and its lexemes are
read off from them (`Lexed.placed_of_mem`). Which lexemes come behind a lexeme depends on the
stretches behind it, and on the offset (`Lexed.lexemes_append`). What a lexeme is shows at its front
(`Source.front_of_kind?`).
-/

namespace DocIndex

namespace Lexer

/-! ## Roles -/

theorem role_literal (n : Nat) (form : LiteralForm) (cs : List Char) :
    (literal n form cs).1 = .lexeme .literal ∨ (literal n form cs).1 = .fault := by
  unfold literal rawTail
  simp only
  (repeat' split) <;> simp

/-- A comment goes up to the end of its line, or up to the first `*/` behind its opening. -/
theorem of_front_comment {c : Char} {cs : List Char} {n : Nat}
    (h : front c cs = (.lexeme .comment, n)) : c = '/' ∧
      ((∃ ds, cs = '/' :: ds ∧ n = lineLength ds + 2) ∨
        ∃ ds m, cs = '*' :: ds ∧ before? ['*', '/'] ds = some m ∧ n = m + 4) := by
  have hmarks {mark : Char} (hpre : ['/', mark].isPrefixOf (c :: cs) = true) :
      ∃ ds, c = '/' ∧ cs = mark :: ds := by
    obtain ⟨ds, hds⟩ := List.isPrefixOf_iff_prefix.1 hpre
    obtain ⟨rfl, rfl⟩ := List.cons.inj hds
    exact ⟨ds, rfl, rfl⟩
  unfold front at h
  simp only at h
  split at h
  · cases h
  split at h
  · obtain ⟨ds, rfl, rfl⟩ := hmarks (by assumption)
    exact ⟨rfl, .inl ⟨ds, rfl, (congrArg Prod.snd h).symm⟩⟩
  split at h
  · obtain ⟨ds, rfl, rfl⟩ := hmarks (by assumption)
    split at h
    · rename_i m hm
      exact ⟨rfl, .inr ⟨ds, m, rfl, hm, (congrArg Prod.snd h).symm⟩⟩
    · cases h
  split at h
  · rename_i k form _
    rcases role_literal k form (c :: cs) with hrole | hrole <;> rw [h] at hrole <;> cases hrole
  split at h
  · have hkind : wordKind _ = .comment := Role.lexeme.inj (congrArg Prod.fst h)
    unfold wordKind at hkind
    split at hkind <;> cases hkind
  split at h
  · cases h
  split at h <;> cases h

/-- A comment begins with a slash. -/
theorem slash_of_front {c : Char} {cs : List Char} (hc : (front c cs).1 = .lexeme .comment) :
    c = '/' :=
  (of_front_comment (Prod.ext hc rfl)).1

/-- An identifier is a whole word that is no keyword. -/
theorem of_front_identifier {c : Char} {cs : List Char} {n : Nat}
    (h : front c cs = (.lexeme .identifier, n)) : isWordStart c = true ∧
      n = ((c :: cs).takeWhile isWordPart).length ∧
      isKeyword (String.ofList ((c :: cs).takeWhile isWordPart)) = false := by
  unfold front at h
  simp only at h
  split at h
  · cases h
  split at h
  · cases h
  split at h
  · split at h <;> cases h
  split at h
  · rename_i k form _
    rcases role_literal k form (c :: cs) with hrole | hrole <;> rw [h] at hrole <;> cases hrole
  split at h
  · rename_i hstart
    have hkind : wordKind _ = .identifier := Role.lexeme.inj (congrArg Prod.fst h)
    refine ⟨hstart, (congrArg Prod.snd h).symm, ?_⟩
    unfold wordKind at hkind
    split at hkind
    · cases hkind
    · exact eq_false_of_ne_true (by assumption)
  split at h
  · cases h
  split at h <;> cases h

/-- An identifier begins like a word. -/
theorem isWordStart_of_front {c : Char} {cs : List Char}
    (hc : (front c cs).1 = .lexeme .identifier) : isWordStart c = true :=
  (of_front_identifier (Prod.ext hc rfl)).1

/-- A stretch is what stands at the front where it begins. -/
theorem front_of_mem_stretches {cs : List Char} {x : Stretch} (hx : x ∈ stretches cs) :
    ∃ c ds es, x.text = c :: ds ∧ (front c es).1 = x.role := by
  fun_induction stretches cs with
  | case1 => simp at hx
  | case2 c cs f ih =>
    rcases List.mem_cons.1 hx with rfl | hx
    · exact ⟨c, _, cs, rfl, rfl⟩
    · exact ih hx

/-- The text of stretches. -/
def chars (ss : List Stretch) : List Char :=
  ss.flatMap Stretch.text

@[simp] theorem chars_nil : chars [] = [] := rfl

@[simp] theorem chars_cons (x : Stretch) (ss : List Stretch) :
    chars (x :: ss) = x.text ++ chars ss := rfl

@[simp] theorem chars_append (ss rest : List Stretch) :
    chars (ss ++ rest) = chars ss ++ chars rest := by
  simp [chars]

/-- **The stretches of a text make it up.** -/
theorem chars_stretches (cs : List Char) : chars (stretches cs) = cs := by
  fun_induction stretches cs with
  | case1 => rfl
  | case2 c cs f ih =>
    rw [chars_cons, ih, List.cons_append, List.take_append_drop]

end Lexer

/-! ## Lexemes -/

/-- The stretch is a lexeme. -/
def Stretch.isLexeme (x : Stretch) : Bool :=
  match x.role with
  | .lexeme _ => true
  | _ => false

/-- The same lexeme, further back in the text. -/
def Lexeme.moved (n : Nat) (t : Lexeme) : Lexeme :=
  { t with start := t.start + n }

namespace Lexed

open Lexer

variable {offset : Nat} {gap : List Char} {x : Stretch} {ss rest : List Stretch}

theorem lexemes_of_not_isLexeme (hx : x.isLexeme = false) :
    (ofStretches offset gap (x :: rest)).lexemes =
      (ofStretches (offset + byteLength x.text) (x.text.reverse ++ gap) rest).lexemes := by
  rw [ofStretches]
  cases hrole : x.role with
  | blank => rfl
  | fault => rfl
  | lexeme kind => simp [Stretch.isLexeme, hrole] at hx

theorem lexemes_of_role {kind : LexemeKind} (hx : x.role = .lexeme kind) :
    (ofStretches offset gap (x :: rest)).lexemes =
      ⟨kind, String.ofList x.text, offset, String.ofList gap.reverse⟩ ::
        (ofStretches (offset + byteLength x.text) [] rest).lexemes := by
  rw [ofStretches]
  simp only [hx]

theorem role_of_isLexeme (hx : x.isLexeme = true) : ∃ kind, x.role = .lexeme kind := by
  unfold Stretch.isLexeme at hx
  split at hx
  · exact ⟨_, by assumption⟩
  · cases hx

/-- Behind a lexeme the lexemes depend on the offset alone. -/
theorem lexemes_append (hx : x.isLexeme = true) :
    (ofStretches offset gap (ss ++ x :: rest)).lexemes =
      (ofStretches offset gap (ss ++ [x])).lexemes ++
        (ofStretches (offset + byteLength (chars (ss ++ [x]))) [] rest).lexemes := by
  induction ss generalizing offset gap with
  | nil =>
    obtain ⟨kind, hkind⟩ := role_of_isLexeme hx
    rw [List.nil_append, List.nil_append, lexemes_of_role hkind, lexemes_of_role hkind]
    simp [ofStretches]
  | cons y ss ih =>
    rw [List.cons_append, List.cons_append]
    cases hy : y.isLexeme with
    | false =>
      rw [lexemes_of_not_isLexeme hy, lexemes_of_not_isLexeme hy, ih]
      simp [Nat.add_assoc]
    | true =>
      obtain ⟨kind, hkind⟩ := role_of_isLexeme hy
      rw [lexemes_of_role hkind, lexemes_of_role hkind, ih]
      simp [Nat.add_assoc]

/-- The last of some stretches is the last of their lexemes, and ends with their text. -/
theorem lexemes_concat (ss : List Stretch) (offset : Nat) (gap : List Char)
    (hx : x.isLexeme = true) :
    ∃ ts t, (ofStretches offset gap (ss ++ [x])).lexemes = ts ++ [t] ∧
      t.stop = offset + byteLength (chars (ss ++ [x])) := by
  induction ss generalizing offset gap with
  | nil =>
    obtain ⟨kind, hkind⟩ := role_of_isLexeme hx
    refine ⟨[], _, lexemes_of_role hkind, ?_⟩
    simp [Lexeme.stop, utf8ByteSize_ofList]
  | cons y ss ih =>
    rw [List.cons_append]
    cases hy : y.isLexeme with
    | false =>
      rw [lexemes_of_not_isLexeme hy]
      obtain ⟨ts, t, hts, hstop⟩ := ih (offset + byteLength y.text) (y.text.reverse ++ gap)
      exact ⟨ts, t, hts, by rw [hstop, chars_cons, byteLength_append, Nat.add_assoc]⟩
    | true =>
      obtain ⟨kind, hkind⟩ := role_of_isLexeme hy
      rw [lexemes_of_role hkind]
      obtain ⟨ts, t, hts, hstop⟩ := ih (offset + byteLength y.text) []
      refine ⟨_ :: ts, t, by rw [hts, List.cons_append], ?_⟩
      rw [hstop, chars_cons, byteLength_append, Nat.add_assoc]

/-- Over blanks the lexemes behind are reached. -/
theorem lexemes_blanks (hss : ∀ y ∈ ss, y.isLexeme = false) :
    (ofStretches offset gap (ss ++ rest)).lexemes =
      (ofStretches (offset + byteLength (chars ss)) ((chars ss).reverse ++ gap) rest).lexemes := by
  induction ss generalizing offset gap with
  | nil => simp
  | cons y ss ih =>
    rw [List.cons_append, lexemes_of_not_isLexeme (hss y List.mem_cons_self),
      ih fun z hz => hss z (List.mem_cons_of_mem y hz)]
    simp [Nat.add_assoc]

/-- Lexemes that are read off further back are moved. -/
theorem lexemes_moved (n : Nat) :
    (ofStretches (offset + n) gap ss).lexemes =
      (ofStretches offset gap ss).lexemes.map (Lexeme.moved n) := by
  induction ss generalizing offset gap with
  | nil => rfl
  | cons y ss ih =>
    have hnext : offset + n + byteLength y.text = offset + byteLength y.text + n := by omega
    cases hy : y.isLexeme with
    | false => rw [lexemes_of_not_isLexeme hy, lexemes_of_not_isLexeme hy, hnext, ih]
    | true =>
      obtain ⟨kind, hkind⟩ := role_of_isLexeme hy
      rw [lexemes_of_role hkind, lexemes_of_role hkind, hnext, ih]
      rfl

/-- A lexeme is a stretch with the text in front of it. -/
theorem exists_of_mem_lexemes {t : Lexeme} (ht : t ∈ (ofStretches offset gap ss).lexemes) :
    ∃ ss₁ x ss₂, ss = ss₁ ++ x :: ss₂ ∧ x.role = .lexeme t.kind ∧
      t.spelling = String.ofList x.text ∧ t.start = offset + byteLength (chars ss₁) := by
  induction ss generalizing offset gap with
  | nil => simp [ofStretches] at ht
  | cons y ss ih =>
    have hrest {offset' : Nat} {gap' : List Char} (hoffset : offset' = offset + byteLength y.text)
        (ht : t ∈ (ofStretches offset' gap' ss).lexemes) :
        ∃ ss₁ x ss₂, y :: ss = ss₁ ++ x :: ss₂ ∧ x.role = .lexeme t.kind ∧
          t.spelling = String.ofList x.text ∧ t.start = offset + byteLength (chars ss₁) := by
      obtain ⟨ss₁, x, ss₂, rfl, hrole, htext, hstart⟩ := ih ht
      refine ⟨y :: ss₁, x, ss₂, rfl, hrole, htext, ?_⟩
      rw [hstart, hoffset, chars_cons, byteLength_append, Nat.add_assoc]
    cases hy : y.isLexeme with
    | false =>
      rw [lexemes_of_not_isLexeme hy] at ht
      exact hrest rfl ht
    | true =>
      obtain ⟨kind, hkind⟩ := role_of_isLexeme hy
      rw [lexemes_of_role hkind] at ht
      rcases List.mem_cons.1 ht with rfl | ht
      · exact ⟨[], y, ss, rfl, hkind, rfl, rfl⟩
      · exact hrest rfl ht

/-- A lexeme comes from a stretch, and begins behind the text in front of it. -/
theorem placed_of_mem {t : Lexeme} (ht : t ∈ (ofStretches offset gap ss).lexemes) :
    (∃ y ∈ ss, y.role = .lexeme t.kind ∧ t.spelling = String.ofList y.text) ∧
      ∃ front back, chars ss = front ++ (t.spelling.toList ++ back) ∧
        t.start = offset + byteLength front := by
  obtain ⟨ss₁, x, ss₂, rfl, hrole, hspelling, hstart⟩ := exists_of_mem_lexemes ht
  refine ⟨⟨x, by simp, hrole, hspelling⟩, chars ss₁, chars ss₂, ?_, hstart⟩
  rw [chars_append, chars_cons, hspelling, String.toList_ofList]

end Lexed

/-- A text, cut into lexemes. -/
def Source.ofText (cs : List Char) : Source :=
  .ofLexed cs (Lexed.ofText cs)

namespace Source

theorem getElem?_ofText (cs : List Char) (i : Nat) :
    (ofText cs).lexemes[i]? = (Lexed.ofText cs).lexemes[i]? :=
  List.getElem?_toArray ..

variable {cs : List Char} {i : Nat}

/-- What stands at the front of a lexeme of a text tells its kind. -/
theorem front_of_kind? {kind : LexemeKind} (hkind : (ofText cs).kind? i = some kind) :
    ∃ c ds es, ((ofText cs).spelling i).toList = c :: ds ∧
      (Lexer.front c es).1 = .lexeme kind := by
  rw [kind?, getElem?_ofText, Option.map_eq_some_iff] at hkind
  obtain ⟨t, ht, rfl⟩ := hkind
  obtain ⟨⟨y, hy, hrole, hspelling⟩, -⟩ := Lexed.placed_of_mem (List.mem_of_getElem? ht)
  obtain ⟨c, ds, es, htext, hfront⟩ := Lexer.front_of_mem_stretches hy
  refine ⟨c, ds, es, ?_, hfront.trans hrole⟩
  rw [Source.spelling, getElem?_ofText, ht]
  simp only [hspelling, htext, String.toList_ofList]

/-- An identifier of a text is a word. -/
theorem word_of_isIdentifier (hi : (ofText cs).isIdentifier i = true) :
    ∃ c ds, ((ofText cs).spelling i).toList = c :: ds ∧ Lexer.isWordStart c = true := by
  rw [isIdentifier, beq_iff_eq] at hi
  obtain ⟨c, ds, es, hspelling, hfront⟩ := front_of_kind? hi
  exact ⟨c, ds, hspelling, Lexer.isWordStart_of_front hfront⟩

end Source

end DocIndex
