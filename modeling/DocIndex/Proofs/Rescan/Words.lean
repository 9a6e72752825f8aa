import DocIndex.Proofs.Layout.Unit
import DocIndex.Proofs.Source.Fronts
import DocIndex.Proofs.Source.Tokens

/-!
# The words of a signature

A signature is the text of tokens that were cut off a text. Cut into lexemes again, it gives back
these tokens: each of them is followed by what followed it, as far as they touched, and then by a
space or a `;`, which no lexeme takes in.

* `Token.CutBefore` — the token is cut off in front of some text.
* `wordsOfTokens` — tokens as the words that their text is written from.
* `cuttable_wordsOfTokens` — **these words are cut off as they were.**
-/

namespace DocIndex

open Lexer

/-! ## Tokens at their places -/

/-- The token is cut off in front of `rest`. -/
def Token.CutBefore (t : Token) (rest : List Char) : Prop :=
  ∃ c ds, t.spelling.toList = c :: ds ∧
    front c (ds ++ rest) = (.lexeme t.kind, ds.length + 1)

namespace Lexed

/-- A lexeme is cut off where it begins. -/
theorem cut_of_mem {offset : Nat} {gap cs : List Char} {t : Lexeme}
    (ht : t ∈ (ofStretches offset gap (stretches cs)).lexemes) :
    ∃ before after c ds, cs = before ++ (t.spelling.toList ++ after) ∧
      t.start = offset + byteLength before ∧ t.spelling.toList = c :: ds ∧
      front c (ds ++ after) = (.lexeme t.kind, ds.length + 1) := by
  fun_induction stretches cs generalizing offset gap with
  | case1 => simp [ofStretches] at ht
  | case2 c cs f =>
    rename_i ih
    -- the lexeme is cut off behind the first stretch
    have hrest {offset' : Nat} {gap' : List Char}
        (hoffset : offset' = offset + byteLength (c :: cs.take (f.2 - 1)))
        (ht : t ∈ (ofStretches offset' gap' (stretches (cs.drop (f.2 - 1)))).lexemes) :
        ∃ before after d ds, c :: cs = before ++ (t.spelling.toList ++ after) ∧
          t.start = offset + byteLength before ∧ t.spelling.toList = d :: ds ∧
          front d (ds ++ after) = (.lexeme t.kind, ds.length + 1) := by
      obtain ⟨before, after, d, ds, htext, hstart, hcut⟩ := ih ht
      refine ⟨(c :: cs.take (f.2 - 1)) ++ before, after, d, ds, ?_, ?_, hcut⟩
      · rw [List.append_assoc, ← htext, List.cons_append, List.take_append_drop]
      · rw [hstart, hoffset, byteLength_append, Nat.add_assoc]
    cases hrole : f.1 with
    | blank =>
      rw [lexemes_of_not_isLexeme (by rw [Stretch.isLexeme, hrole])] at ht
      exact hrest rfl ht
    | fault =>
      rw [lexemes_of_not_isLexeme (by rw [Stretch.isLexeme, hrole])] at ht
      exact hrest rfl ht
    | lexeme kind =>
      rw [lexemes_of_role hrole] at ht
      rcases List.mem_cons.1 ht with rfl | ht
      · have hfront : front c cs = (.lexeme kind, f.2) := Prod.ext hrole rfl
        obtain ⟨hpos, hle⟩ := front_bounds hfront
        have hlen : (cs.take (f.2 - 1)).length + 1 = f.2 := by
          rw [List.length_take]
          omega
        refine ⟨[], cs.drop (f.2 - 1), c, cs.take (f.2 - 1), ?_, rfl, String.toList_ofList, ?_⟩
        · rw [String.toList_ofList, List.nil_append, List.cons_append, List.take_append_drop]
        · rw [List.take_append_drop, hlen]
          exact hfront
      · exact hrest rfl ht

end Lexed

/-! ## Tokens that touch -/

/-- The text of the tokens behind the first one, as far as they touch. -/
def touching : List Token → List Char
  | t :: u :: ts => if t.touches u then u.spelling.toList ++ touching (u :: ts) else []
  | _ => []

/-- Every token is cut off in front of those that touch it. -/
def CutOff : List Token → Prop
  | [] => True
  | t :: ts => (∃ rest, t.CutBefore (touching (t :: ts) ++ rest)) ∧ CutOff ts

/-- Two fronts of a text that are equally long in bytes are the same. -/
theorem append_inj_of_byteLength {as bs cs ds : List Char} (h : as ++ bs = cs ++ ds)
    (hlen : byteLength as = byteLength cs) : as = cs ∧ bs = ds := by
  induction as generalizing cs with
  | nil =>
    cases cs with
    | nil => exact ⟨rfl, h⟩
    | cons c cs =>
      have hpos := byteLength_pos (List.cons_ne_nil c cs)
      rw [byteLength_nil] at hlen
      omega
  | cons a as ih =>
    cases cs with
    | nil =>
      have hpos := byteLength_pos (List.cons_ne_nil a as)
      rw [byteLength_nil] at hlen
      omega
    | cons c cs =>
      obtain ⟨rfl, htail⟩ := List.cons.inj h
      rw [byteLength_cons, byteLength_cons] at hlen
      obtain ⟨rfl, rfl⟩ := ih htail (by omega)
      exact ⟨rfl, rfl⟩

/-- The token is cut off a text at its place. -/
structure Token.StandsIn (text : List Char) (t : Token) (before after : List Char) : Prop where
  text_eq : text = before ++ (t.spelling.toList ++ after)
  start : t.extent.start.offset = byteLength before
  stop : t.extent.stop.offset = byteLength before + byteLength t.spelling.toList
  cut : t.CutBefore after

/-- A token of a unit is cut off its text. -/
theorem Source.standsIn_of_mem {cs : List Char} {path : Path} {faults : List (Nat × LexFault)}
    {o : Outline} {t : Token} (ht : t ∈ ((Source.ofText cs).unitOf path faults o).tokens) :
    ∃ before after, t.StandsIn cs before after := by
  obtain ⟨i, a, ha, rfl⟩ := Source.of_mem_tokens ht
  have hmem : a ∈ (Lexed.ofText cs).lexemes := by
    rw [← List.mem_toArray]
    exact Array.mem_of_getElem? ha
  obtain ⟨before, after, c, ds, htext, hstart, hcut⟩ := Lexed.cut_of_mem hmem
  rw [Nat.zero_add] at hstart
  have hsize : a.spelling.utf8ByteSize = byteLength a.spelling.toList := by
    rw [← utf8ByteSize_ofList, String.ofList_toList]
  refine ⟨before, after, htext, hstart, ?_, c, ds, hcut⟩
  show a.stop = _
  rw [Lexeme.stop, hstart, hsize]
  rfl

/-- What follows a token begins with the tokens that touch it. -/
theorem touching_of_standsIn {text : List Char} {ts : List Token} {t : Token}
    {before after : List Char} (ht : t.StandsIn text before after)
    (hts : ∀ u ∈ ts, ∃ before after, u.StandsIn text before after) :
    ∃ rest, after = touching (t :: ts) ++ rest := by
  induction ts generalizing t before after with
  | nil => exact ⟨after, rfl⟩
  | cons u ts ih =>
    rw [touching]
    cases htouches : t.touches u with
    | false => exact ⟨after, rfl⟩
    | true =>
      obtain ⟨before', after', hu⟩ := hts u List.mem_cons_self
      obtain ⟨rest, hrest⟩ := ih hu fun v hv => hts v (List.mem_cons_of_mem u hv)
      -- the one ends where the other starts
      have hoffset : byteLength (before ++ t.spelling.toList) = byteLength before' := by
        have hmeet : t.extent.stop.offset = u.extent.start.offset := by
          simpa [Token.touches] using htouches
        rw [byteLength_append, ← ht.stop, hmeet, hu.start]
      have htext : (before ++ t.spelling.toList) ++ after =
          before' ++ (u.spelling.toList ++ after') := by
        rw [List.append_assoc, ← ht.text_eq, hu.text_eq]
      obtain ⟨-, hafter⟩ := append_inj_of_byteLength htext hoffset
      refine ⟨rest, ?_⟩
      rw [hafter, hrest, if_pos rfl, List.append_assoc]

theorem cutOff_of_standsIn {text : List Char} {ts : List Token}
    (h : ∀ t ∈ ts, ∃ before after, t.StandsIn text before after) : CutOff ts := by
  induction ts with
  | nil => trivial
  | cons t ts ih =>
    have hts : ∀ u ∈ ts, ∃ before after, u.StandsIn text before after :=
      fun u hu => h u (List.mem_cons_of_mem t hu)
    obtain ⟨before, after, ht⟩ := h t List.mem_cons_self
    obtain ⟨rest, hrest⟩ := touching_of_standsIn ht hts
    exact ⟨⟨rest, hrest ▸ ht.cut⟩, ih hts⟩

/-! ## Words -/

/-- The words that the text of tokens is written from. -/
def wordsOfTokens : List Token → List Word
  | [] => []
  | [t] => [⟨t.kind, t.spelling.toList, .none⟩]
  | t :: u :: ts =>
    ⟨t.kind, t.spelling.toList, if t.touches u then .none else .space⟩ :: wordsOfTokens (u :: ts)

theorem spell_wordsOfTokens (ts : List Token) :
    spell (wordsOfTokens ts) = (textOfTokens ts).toList := by
  fun_induction wordsOfTokens ts with
  | case1 => rfl
  | case2 t => simp [textOfTokens, Gap.chars]
  | case3 t u ts ih =>
    rw [spell_cons, ih, textOfTokens, String.toList_append, String.toList_append]
    cases t.touches u <;> simp [Gap.chars]

/-- The `;` that ends a statement, and the end of its line. -/
def semicolonWord : Word :=
  mark ';' .line

/-- What follows a word that a token is written as: the tokens that touch it, and then something
that no lexeme takes in. -/
theorem exists_separated (t : Token) (ts : List Token) :
    ∃ w ws rest, wordsOfTokens (t :: ts) = w :: ws ∧ w.kind = t.kind ∧
      w.chars = t.spelling.toList ∧
      w.gap.chars ++ spell (ws ++ [semicolonWord]) = touching (t :: ts) ++ rest ∧
      Separated rest := by
  induction ts generalizing t with
  | nil =>
    exact ⟨_, [], [';', '\n'], rfl, rfl, rfl, rfl, by rintro c ⟨⟩; exact .inr rfl⟩
  | cons u ts ih =>
    obtain ⟨w, ws, rest, hwords, -, hchars, hrest, hseparated⟩ := ih u
    rw [wordsOfTokens, touching]
    cases htouches : t.touches u with
    | false =>
      exact ⟨_, _, _, rfl, rfl, rfl, rfl, by rintro c ⟨⟩; exact .inl rfl⟩
    | true =>
      refine ⟨_, _, rest, rfl, rfl, rfl, ?_, hseparated⟩
      rw [hwords, List.cons_append, spell_cons, hchars, hrest]
      simp [Gap.chars]

/-- No token but the first is a backslash that does not touch the token in front of it. Such a one
would be read as layout. -/
def NoLooseBackslash : List Token → Prop
  | t :: u :: ts => (u.spelling = "\\" → t.touches u = true) ∧ NoLooseBackslash (u :: ts)
  | _ => True

/-- Loose backslashes can be looked for. -/
def NoLooseBackslash.decide : (ts : List Token) → Decidable (NoLooseBackslash ts)
  | [] => isTrue trivial
  | [_] => isTrue trivial
  | _ :: u :: ts => @instDecidableAnd _ _ inferInstance (NoLooseBackslash.decide (u :: ts))

instance : DecidablePred NoLooseBackslash :=
  NoLooseBackslash.decide

/-- Only as a lexeme of its own is a backslash the front of one. -/
theorem length_of_front_backslash {cs : List Char} {kind : LexemeKind} {n : Nat}
    (h : front '\\' cs = (.lexeme kind, n)) : n = 1 := by
  have hlong : longPunctuators.find? (·.isPrefixOf ('\\' :: cs)) = none := by
    simp [longPunctuators, List.isPrefixOf]
  have hpunctuator : punctuator? ('\\' :: cs) = some 1 := by
    rw [punctuator?, hlong]
    rfl
  have hstart : isWordStart '\\' = false := rfl
  have hnumber : startsNumber ('\\' :: cs) = false := rfl
  unfold front at h
  simp only at h
  split at h
  · cases h
  · have hfront : (.lexeme .punctuation, 1) = (Role.lexeme kind, n) := by
      simpa [List.isPrefixOf, opening?, openingMark?, hstart, hnumber, hpunctuator] using h
    exact (Prod.mk.inj hfront).2.symm

/-- A token that is no backslash does not begin like a blank. -/
theorem Token.CutBefore.endsBlank {t : Token} {rest : List Char} (h : t.CutBefore rest)
    (hslash : t.spelling ≠ "\\") (tail : List Char) : EndsBlank (t.spelling.toList ++ tail) := by
  obtain ⟨c, ds, hchars, hfront⟩ := h
  rw [hchars]
  rintro d hd
  cases hd
  constructor
  · have hlayout : layoutLength (c :: (ds ++ rest)) = 0 := by
      unfold front at hfront
      simp only at hfront
      split at hfront
      · cases hfront
      · omega
    exact (layoutLength_cons_eq_zero.1 hlayout).1
  · rintro rfl
    obtain rfl := List.eq_nil_of_length_eq_zero (Nat.succ.inj (length_of_front_backslash hfront))
    exact hslash (String.toList_inj.1 hchars)

/-- **The words of tokens are cut off as the tokens were.** -/
theorem cuttable_wordsOfTokens {ts : List Token} (hcut : CutOff ts)
    (hcode : ∀ t ∈ ts, t.kind ≠ .comment) (hslash : NoLooseBackslash ts) :
    Cuttable (wordsOfTokens ts ++ [semicolonWord]) := by
  induction ts with
  | nil => exact ⟨⟨⟨';', [], rfl, front_mark (by decide)⟩, fun _ => nofun⟩, trivial⟩
  | cons t ts ih =>
    obtain ⟨⟨rest, c, ds, hchars, hfront⟩, hcuts⟩ := hcut
    obtain ⟨w, ws, rest', hwords, hkind, hw, hnext, hseparated⟩ := exists_separated t ts
    have hbehind : wordsOfTokens ts = ws := by
      cases ts <;> exact (List.cons.inj hwords).2
    have hrest : Cuttable (ws ++ [semicolonWord]) := by
      rw [← hbehind]
      refine ih hcuts (fun u hu => hcode u (List.mem_cons_of_mem t hu)) ?_
      cases ts with
      | nil => trivial
      | cons u us => exact hslash.2
    rw [hwords, List.cons_append]
    refine ⟨⟨⟨c, ds, hw.trans hchars, ?_⟩, fun hgap => ?_⟩, hrest⟩
    · have hlen : w.chars.length = ds.length + 1 := by
        rw [hw, hchars, List.length_cons]
      rw [hnext, hkind, hlen]
      exact front_congr (hcode t List.mem_cons_self) hseparated hfront
    · cases ts with
      | nil =>
        cases hwords
        exact absurd rfl hgap
      | cons u us =>
        -- a blank stands between the two only if they do not touch
        have happart : t.touches u = false := by
          have hgap : w = ⟨t.kind, t.spelling.toList, if t.touches u then .none else .space⟩ :=
            (List.cons.inj hwords).1.symm
          cases htouches : t.touches u with
          | false => rfl
          | true => simp_all
        obtain ⟨⟨after, hu⟩, -⟩ := hcuts
        obtain ⟨v, vs, -, hvs, -, hv, -⟩ := exists_separated u us
        have hspell : spell (ws ++ [semicolonWord]) =
            u.spelling.toList ++ (v.gap.chars ++ spell (vs ++ [semicolonWord])) := by
          rw [← hbehind, hvs, List.cons_append, spell_cons, hv]
        rw [hspell]
        refine hu.endsBlank (fun hspelling => ?_) _
        have htouches := hslash.1 hspelling
        rw [happart] at htouches
        cases htouches

end DocIndex
