import DocIndex.Comment.Declaration
import DocIndex.Outline.Groups

/-!
# What a signature keeps

The tokens that a signature keeps are the same if they are looked through once more
(`headTokens_headTokens`). If their brackets are nested, no brace and no `;` stands outside of round
and square brackets (`Flat`), and a `;` behind them ends the signature there (`headTokens_concat`).
-/

namespace DocIndex

/-! ## Looking twice -/

variable {brackets angles angles' : Nat} {previous previous' : Option String} {t : Token}
  {ts : List Token}

theorem headFrom_sublist (brackets angles : Nat) (previous : Option String) (ts : List Token) :
    (headFrom brackets angles previous ts).Sublist ts := by
  induction ts generalizing brackets angles previous with
  | nil => exact .slnil
  | cons t ts ih =>
    unfold headFrom
    split
    · exact (ih ..).cons t
    split
    · exact List.nil_sublist _
    simp only
    split
    · exact (ih ..).cons t
    · exact (ih ..).cons_cons t

theorem throughParen_sublist (ts : List Token) : (throughParen ts).Sublist ts := by
  induction ts with
  | nil => exact .slnil
  | cons t ts ih =>
    unfold throughParen
    split
    · exact List.singleton_sublist.2 List.mem_cons_self
    · exact ih.cons_cons t

theorem macroHeadTokens_sublist (ts : List Token) : (macroHeadTokens ts).Sublist ts := by
  unfold macroHeadTokens
  split
  · exact .slnil
  · exact List.Sublist.refl _
  · split
    · exact (throughParen_sublist _).cons_cons _
    · exact List.singleton_sublist.2 List.mem_cons_self

theorem SourceUnit.tokensOf_sublist (u : SourceUnit) (id : CursorId) :
    (u.tokensOf id).Sublist u.tokens.toList := by
  rw [tokensOf, Array.toList_extract, List.extract_eq_take_drop]
  exact (List.take_sublist _ _).trans (List.drop_sublist _ _)

theorem SourceUnit.keptTokens_sublist (u : SourceUnit) (id : CursorId) :
    (u.keptTokens id).Sublist (u.tokensOf id) := by
  unfold keptTokens
  split
  · exact macroHeadTokens_sublist _
  · exact headFrom_sublist ..

/-- The tokens of a signature are tokens of the file. -/
theorem SourceUnit.mem_tokens_of_mem_keptTokens {u : SourceUnit} {id : CursorId} {t : Token}
    (h : t ∈ u.keptTokens id) : t ∈ u.tokens :=
  Array.mem_toList_iff.1 ((u.tokensOf_sublist id).subset ((u.keptTokens_sublist id).subset h))

/-- A first token is kept that is no comment, ends nothing and is not left out. -/
theorem headFrom_cons (hcode : t.kind ≠ .comment)
    (hend : ¬(brackets = 0 ∧ (t.spelling = "\x7b" ∨ t.spelling = ";")))
    (hloud : ¬(t.bracketsAfter brackets = 0 ∧ t.anglesAfter angles previous = 0 ∧
      t.spelling ∈ silentKeywords)) (ts : List Token) :
    headFrom brackets angles previous (t :: ts) =
      t :: headFrom (t.bracketsAfter brackets) (t.anglesAfter angles previous) (some t.spelling)
        ts := by
  have hend : (brackets = 0 && (t.spelling = "\x7b" || t.spelling = ";")) = false := by
    simpa using hend
  have hloud : (t.bracketsAfter brackets = 0 && t.anglesAfter angles previous = 0 &&
      silentKeywords.contains t.spelling) = false := by
    simpa [and_assoc] using hloud
  simp only [headFrom, hcode, hend, hloud, if_false, Bool.false_eq_true]

/-- If all tokens are kept, the first one is, and then the others. -/
theorem headFrom_cons_eq_self :
    headFrom brackets angles previous (t :: ts) = t :: ts ↔
      t.kind ≠ .comment ∧ ¬(brackets = 0 ∧ (t.spelling = "\x7b" ∨ t.spelling = ";")) ∧
        ¬(t.bracketsAfter brackets = 0 ∧ t.anglesAfter angles previous = 0 ∧
          t.spelling ∈ silentKeywords) ∧
        headFrom (t.bracketsAfter brackets) (t.anglesAfter angles previous) (some t.spelling) ts =
          ts := by
  have hshort (b a : Nat) (p : Option String) : headFrom b a p ts ≠ t :: ts := by
    intro h
    have hlen := (headFrom_sublist b a p ts).length_le
    rw [h, List.length_cons] at hlen
    omega
  by_cases hcode : t.kind = .comment
  · simp [headFrom, hcode, hshort]
  by_cases hend : brackets = 0 ∧ (t.spelling = "\x7b" ∨ t.spelling = ";")
  · simp [headFrom, hcode, hend]
  by_cases hloud : t.bracketsAfter brackets = 0 ∧ t.anglesAfter angles previous = 0 ∧
      t.spelling ∈ silentKeywords
  · simp [headFrom, hcode, hend, hloud, hshort]
  · rw [headFrom_cons hcode hend hloud]
    simp only [List.cons.injEq, ne_eq, hcode, hend, hloud, not_false_eq_true, true_and]

theorem kind_of_mem_headFrom (h : t ∈ headFrom brackets angles previous ts) :
    t.kind ≠ .comment := by
  induction ts generalizing brackets angles previous with
  | nil => cases h
  | cons u ts ih =>
    unfold headFrom at h
    split at h
    · exact ih h
    rename_i hkind
    split at h
    · cases h
    simp only at h
    split at h
    · exact ih h
    · rcases List.mem_cons.1 h with rfl | h
      · exact hkind
      · exact ih h

/-- Angle brackets that are deeper in front are no less deep behind. -/
theorem Token.anglesAfter_mono (t : Token) (h : angles ≤ angles')
    (hp : previous = some "template" → previous' = some "template") :
    t.anglesAfter angles previous ≤ t.anglesAfter angles' previous' := by
  unfold Token.anglesAfter
  simp only [Bool.or_eq_true, decide_eq_true_eq]
  split
  · by_cases hopen : 0 < angles ∨ previous = some "template"
    · have hopen' : 0 < angles' ∨ previous' = some "template" :=
        hopen.imp (fun hpos => Nat.lt_of_lt_of_le hpos h) hp
      rw [if_pos hopen, if_pos hopen']
      exact Nat.succ_le_succ h
    · rw [if_neg hopen]
      split <;> omega
  · (repeat' split) <;> omega

theorem bracketsAfter_of_silent (h : t.spelling ∈ silentKeywords) (brackets : Nat) :
    t.bracketsAfter brackets = brackets := by
  simp only [silentKeywords, List.mem_cons, List.not_mem_nil, or_false] at h
  rcases h with h | h | h | h | h | h <;> simp [Token.bracketsAfter, h]

/-- Looking through what is kept keeps all of it. A keyword that was left out may hide that
`template` stands in front of a `<`, so angle brackets may reach deeper now; that leaves out no
more. -/
theorem headFrom_headFrom (h : angles ≤ angles')
    (hp : previous = some "template" → previous' = some "template") :
    headFrom brackets angles' previous' (headFrom brackets angles previous ts) =
      headFrom brackets angles previous ts := by
  induction ts generalizing brackets angles angles' previous previous' with
  | nil => rfl
  | cons t ts ih =>
    rw [headFrom]
    by_cases hcomment : t.kind = .comment
    · rw [if_pos hcomment]
      exact ih h hp
    rw [if_neg hcomment]
    by_cases hend : (brackets = 0 && (t.spelling = "\x7b" || t.spelling = ";")) = true
    · rw [if_pos hend]
      rfl
    rw [if_neg hend]
    by_cases hsilent : (t.bracketsAfter brackets = 0 && t.anglesAfter angles previous = 0 &&
        silentKeywords.contains t.spelling) = true
    · simp only [hsilent, if_true]
      simp only [Bool.and_eq_true, decide_eq_true_eq, List.contains_iff_mem] at hsilent
      obtain ⟨⟨-, hangles⟩, hmem⟩ := hsilent
      rw [bracketsAfter_of_silent hmem]
      -- what is left out is no `template`
      refine ih (by omega) fun htemplate => ?_
      rw [Option.some.inj htemplate] at hmem
      exact absurd hmem (by decide)
    · simp only [hsilent, Bool.false_eq_true, if_false]
      have hmono := t.anglesAfter_mono h hp
      refine headFrom_cons_eq_self.2 ⟨hcomment, by simpa using hend, ?_, ih hmono fun h => h⟩
      rintro ⟨hbrackets, hangles, hmem⟩
      have hangles : t.anglesAfter angles previous = 0 := by omega
      exact hsilent (by simp [hbrackets, hangles, hmem])

theorem headTokens_headTokens (ts : List Token) : headTokens (headTokens ts) = headTokens ts :=
  headFrom_headFrom (Nat.le_refl 0) fun h => h

/-! ## Nested brackets -/

/-- The words that open or close a group. -/
def bracketWords : List String :=
  ["(", ")", "[", "]", "\x7b", "\x7d"]

/-- Every bracket is closed, in the order in which they are opened. -/
inductive Balanced : List String → Prop
  | nil : Balanced []
  | word {w : String} {ws : List String} (hw : w ∉ bracketWords) (hws : Balanced ws) :
      Balanced (w :: ws)
  | group {opening : String} {inner rest : List String} (hopening : opening ∈ ["(", "[", "\x7b"])
      (hinner : Balanced inner) (hrest : Balanced rest) :
      Balanced (opening :: (inner ++ Source.closingOf opening :: rest))

theorem Balanced.words {ws rest : List String} (hws : ∀ w ∈ ws, w ∉ bracketWords)
    (hrest : Balanced rest) : Balanced (ws ++ rest) := by
  induction ws with
  | nil => exact hrest
  | cons w ws ih =>
    rw [List.forall_mem_cons] at hws
    exact .word hws.1 (ih hws.2)

/-- Brackets are nested, and outside of them stands no brace and no `;`. -/
inductive Flat : List String → Prop
  | nil : Flat []
  | word {w : String} {ws : List String} (hw : w ∉ bracketWords) (hsemicolon : w ≠ ";")
      (hws : Flat ws) : Flat (w :: ws)
  | group {opening : String} {inner rest : List String} (hopening : opening ∈ ["(", "["])
      (hinner : Balanced inner) (hrest : Flat rest) :
      Flat (opening :: (inner ++ Source.closingOf opening :: rest))

theorem bracketsAfter_of_word (h : t.spelling ∉ bracketWords) (depth : Nat) :
    t.bracketsAfter depth = depth := by
  simp only [bracketWords, List.mem_cons, List.not_mem_nil, or_false, not_or] at h
  simp [Token.bracketsAfter, h]

/-- Tokens, or words, whose texts make up a group. -/
theorem exists_of_map_eq_group {α : Type} {text : α → String} {ts : List α}
    {opening closing : String} {inner rest : List String}
    (h : ts.map text = opening :: (inner ++ closing :: rest)) :
    ∃ o is c rs, ts = o :: (is ++ c :: rs) ∧ text o = opening ∧ is.map text = inner ∧
      text c = closing ∧ rs.map text = rest := by
  obtain ⟨o, ts, rfl, ho, hts⟩ := List.map_eq_cons_iff.1 h
  obtain ⟨is, cs, rfl, his, hcs⟩ := List.map_eq_append_iff.1 hts
  obtain ⟨c, rs, rfl, hc, hrs⟩ := List.map_eq_cons_iff.1 hcs
  exact ⟨o, is, c, rs, rfl, ho, his, hc, hrs⟩

/-- Within brackets every token is kept that is no comment. -/
theorem headFrom_within {depth depth' : Nat} (ht : t.kind ≠ .comment)
    (hdepth : t.bracketsAfter (depth + 1) = depth' + 1) (angles : Nat) (previous : Option String)
    (ts : List Token) :
    headFrom (depth + 1) angles previous (t :: ts) =
      t :: headFrom (depth' + 1) (t.anglesAfter angles previous) (some t.spelling) ts := by
  rw [headFrom_cons ht (by simp) (by simp [hdepth]), hdepth]

/-- The depth within a group that is opened at some depth, and behind it. -/
theorem bracketsAfter_group {o c : Token} {opening : String}
    (hopening : opening ∈ ["(", "[", "\x7b"]) (ho : o.spelling = opening)
    (hc : c.spelling = Source.closingOf opening) (depth : Nat) :
    ∃ depth', o.bracketsAfter (depth + 1) = depth' + 1 ∧
      c.bracketsAfter (depth' + 1) = depth + 1 := by
  simp only [List.mem_cons, List.not_mem_nil, or_false] at hopening
  rcases hopening with rfl | rfl | rfl
  · exact ⟨depth + 1, by simp [Token.bracketsAfter, ho, hc, Source.closingOf]⟩
  · exact ⟨depth + 1, by simp [Token.bracketsAfter, ho, hc, Source.closingOf]⟩
  · exact ⟨depth, by simp [Token.bracketsAfter, ho, hc, Source.closingOf]⟩

/-- Within brackets all tokens are kept that are no comments, and the brackets behind nested ones
are as deep as those in front. -/
theorem headFrom_of_balanced {words : List String} (hwords : Balanced words) {ts : List Token}
    (hts : ts.map Token.spelling = words) (hcode : ∀ t ∈ ts, t.kind ≠ .comment)
    (depth angles : Nat) (previous : Option String) :
    ∃ angles' previous', ∀ rest, headFrom (depth + 1) angles previous (ts ++ rest) =
      ts ++ headFrom (depth + 1) angles' previous' rest := by
  induction hwords generalizing ts depth angles previous with
  | nil =>
    obtain rfl := List.map_eq_nil_iff.1 hts
    exact ⟨angles, previous, fun rest => rfl⟩
  | @word w ws hw _ ih =>
    obtain ⟨t, ts, rfl, rfl, hrest⟩ := List.map_eq_cons_iff.1 hts
    have hdepth := bracketsAfter_of_word hw (depth + 1)
    obtain ⟨angles', previous', hkept⟩ := ih hrest
      (fun u hu => hcode u (List.mem_cons_of_mem t hu)) depth (t.anglesAfter angles previous)
      (some t.spelling)
    refine ⟨angles', previous', fun rest => ?_⟩
    rw [List.cons_append, headFrom_within (hcode t List.mem_cons_self) hdepth, hkept,
      List.cons_append]
  | group hopening _ _ ihInner ihRest =>
    obtain ⟨o, is, c, rs, rfl, ho, his, hc, hrs⟩ := exists_of_map_eq_group hts
    obtain ⟨depth', hopen, hclose⟩ := bracketsAfter_group hopening ho hc depth
    have hmem {u : Token} (hu : u ∈ is ++ c :: rs) : u.kind ≠ .comment :=
      hcode u (List.mem_cons_of_mem o hu)
    obtain ⟨angles₁, previous₁, hinner⟩ := ihInner his
      (fun u hu => hmem (List.mem_append_left _ hu)) depth' (o.anglesAfter angles previous)
      (some o.spelling)
    obtain ⟨angles₂, previous₂, hrest⟩ := ihRest hrs
      (fun u hu => hmem (List.mem_append_right _ (List.mem_cons_of_mem c hu))) depth
      (c.anglesAfter angles₁ previous₁) (some c.spelling)
    refine ⟨angles₂, previous₂, fun rest => ?_⟩
    have hc : c.kind ≠ .comment := hmem (List.mem_append_right _ List.mem_cons_self)
    rw [List.cons_append, headFrom_within (hcode o List.mem_cons_self) hopen, List.append_assoc,
      hinner, List.cons_append, headFrom_within hc hclose, hrest, List.cons_append,
      List.append_assoc, List.cons_append]

/-- Outside of brackets, what is kept is kept in front of anything else. -/
theorem flat_of_headFrom {words : List String} (hwords : Balanced words) {ts : List Token}
    (hts : ts.map Token.spelling = words) {angles : Nat} {previous : Option String}
    (hkept : headFrom 0 angles previous ts = ts) :
    Flat words ∧ ∃ angles' previous', ∀ rest, headFrom 0 angles previous (ts ++ rest) =
      ts ++ headFrom 0 angles' previous' rest := by
  induction hwords generalizing ts angles previous with
  | nil =>
    obtain rfl := List.map_eq_nil_iff.1 hts
    exact ⟨.nil, angles, previous, fun rest => rfl⟩
  | word hw _ ih =>
    obtain ⟨t, ts, rfl, rfl, hrest⟩ := List.map_eq_cons_iff.1 hts
    obtain ⟨hcode, hend, hloud, hkept⟩ := headFrom_cons_eq_self.1 hkept
    rw [bracketsAfter_of_word hw] at hkept hloud
    obtain ⟨hflat, angles', previous', hbehind⟩ := ih hrest hkept
    refine ⟨.word hw (fun hsemicolon => hend ⟨rfl, .inr hsemicolon⟩) hflat, angles', previous',
      fun rest => ?_⟩
    rw [List.cons_append, headFrom_cons hcode hend (by rwa [bracketsAfter_of_word hw]),
      bracketsAfter_of_word hw, hbehind, List.cons_append]
  | @group opening inner rest hopening hinner _ _ ih =>
    obtain ⟨o, is, c, rs, rfl, rfl, his, hc, hrs⟩ := exists_of_map_eq_group hts
    obtain ⟨hcode, hend, hloud, hgroup⟩ := headFrom_cons_eq_self.1 hkept
    -- a brace would have ended the signature
    have hround : o.spelling ∈ ["(", "["] := by
      simp only [List.mem_cons, List.not_mem_nil, or_false] at hopening ⊢
      exact hopening.imp_right fun h => h.resolve_right fun hbrace => hend ⟨rfl, .inl hbrace⟩
    have hopen : o.bracketsAfter 0 = 0 + 1 := by
      simp only [List.mem_cons, List.not_mem_nil, or_false] at hround
      rcases hround with h | h <;> simp [Token.bracketsAfter, h]
    have hclose : c.bracketsAfter (0 + 1) = 0 := by
      simp only [List.mem_cons, List.not_mem_nil, or_false] at hround
      rcases hround with h | h <;> simp [Token.bracketsAfter, hc, h, Source.closingOf]
    have hmem {u : Token} (hu : u ∈ is ++ c :: rs) : u.kind ≠ .comment := by
      rw [← hgroup] at hu
      exact kind_of_mem_headFrom hu
    rw [hopen] at hgroup hloud
    -- within the group all is kept, so its last bracket is the first of what else was kept
    obtain ⟨angles₁, previous₁, hinside⟩ := headFrom_of_balanced hinner his
      (fun u hu => hmem (List.mem_append_left _ hu)) 0 (o.anglesAfter angles previous)
      (some o.spelling)
    rw [hinside] at hgroup
    obtain ⟨hcode', hend', hloud', hbehind⟩ :=
      headFrom_cons_eq_self.1 (List.append_cancel_left hgroup)
    rw [hclose] at hbehind hloud'
    obtain ⟨hflat, angles₂, previous₂, hrest⟩ := ih hrs hbehind
    refine ⟨.group hround hinner hflat, angles₂, previous₂, fun rest => ?_⟩
    rw [List.cons_append, headFrom_cons hcode hend (by rwa [hopen]), hopen, List.append_assoc,
      hinside, List.cons_append, headFrom_cons hcode' hend' (by rwa [hclose]), hclose, hrest,
      List.cons_append, List.append_assoc, List.cons_append]

/-- A `;` ends the signature that is kept. -/
theorem headTokens_concat {ts : List Token} (hwords : Balanced (ts.map Token.spelling))
    (hkept : headTokens ts = ts) {semicolon : Token} (hcode : semicolon.kind ≠ .comment)
    (hsemicolon : semicolon.spelling = ";") : headTokens (ts ++ [semicolon]) = ts := by
  obtain ⟨-, angles, previous, hbehind⟩ := flat_of_headFrom hwords rfl hkept
  have hend : headFrom 0 angles previous [semicolon] = [] := by
    simp [headFrom, hcode, hsemicolon]
  rw [headTokens, hbehind, hend, List.append_nil]

/-- How a token is spelled, and what it is. -/
def Token.face (t : Token) : LexemeKind × String :=
  (t.kind, t.spelling)

/-- Tokens that are spelled like others of which all are kept are all kept. -/
theorem headFrom_eq_self_congr {ts us : List Token} (h : us.map Token.face = ts.map Token.face)
    (hkept : headFrom brackets angles previous ts = ts) :
    headFrom brackets angles previous us = us := by
  induction ts generalizing us brackets angles previous with
  | nil =>
    obtain rfl := List.map_eq_nil_iff.1 h
    rfl
  | cons t ts ih =>
    obtain ⟨u, us, rfl, hface, hrest⟩ := List.map_eq_cons_iff.1 h
    obtain ⟨hkind, hspelling⟩ := Prod.mk.inj hface
    have hbrackets (b : Nat) : u.bracketsAfter b = t.bracketsAfter b := by
      rw [Token.bracketsAfter, Token.bracketsAfter, hspelling]
    have hangles (a : Nat) (p : Option String) : u.anglesAfter a p = t.anglesAfter a p := by
      rw [Token.anglesAfter, Token.anglesAfter, hspelling]
    rw [headFrom_cons_eq_self, hkind, hspelling, hbrackets, hangles]
    obtain ⟨hcode, hend, hloud, hbehind⟩ := headFrom_cons_eq_self.1 hkept
    exact ⟨hcode, hend, hloud, ih hrest hbehind⟩

theorem headTokens_eq_self_congr {ts us : List Token} (h : us.map Token.face = ts.map Token.face)
    (hkept : headTokens ts = ts) : headTokens us = us :=
  headFrom_eq_self_congr h hkept

end DocIndex
