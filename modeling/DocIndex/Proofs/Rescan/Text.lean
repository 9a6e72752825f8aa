import DocIndex.Proofs.Printed.Unit
import DocIndex.Proofs.Rescan.Declaration
import DocIndex.Proofs.Rescan.Words

/-!
# Reading the text of some words

Words that nest their brackets, with a `;` behind them, are one statement (`isStatement_sourceOf`);
read as a text of their own they are one declaration (`spans_ofSource`).
-/

namespace DocIndex

open Lexer

/-! ## What a word is -/

/-- What is read as an identifier is a word, and no keyword. -/
theorem front_identifier {c : Char} {cs : List Char} {n : Nat}
    (h : front c cs = (.lexeme .identifier, n)) :
    isWordStart c = true ∧ ((c :: cs).takeWhile isWordPart).length = n ∧
      isKeyword (String.ofList ((c :: cs).takeWhile isWordPart)) = false := by
  have hstart := isWordStart_of_front (congrArg Prod.fst h)
  refine ⟨hstart, ?_⟩
  unfold front at h
  simp only [hstart, if_true] at h
  split at h
  · cases h
  split at h
  · cases h
  split at h
  · split at h <;> cases h
  split at h
  · rename_i k form _
    rcases role_literal k form (c :: cs) with hrole | hrole <;>
      cases hrole.symm.trans (congrArg Prod.fst h)
  · obtain ⟨hkind, hlen⟩ := Prod.mk.inj h
    refine ⟨hlen, ?_⟩
    cases hkeyword : isKeyword (String.ofList ((c :: cs).takeWhile isWordPart)) with
    | false => rfl
    | true =>
      rw [wordKind, if_pos hkeyword] at hkind
      cases hkind

variable {w : Word} {ws rest : List Word}

theorem Word.Cuts.isName {rest : List Char} (h : w.Cuts rest) (hkind : w.kind = .identifier) :
    IsName w.text := by
  obtain ⟨c, cs, hchars, hfront⟩ := h.front
  rw [hkind] at hfront
  obtain ⟨hstart, hlen, hkeyword⟩ := front_identifier hfront
  -- the word is as long as the run of its characters
  have hrun : (c :: (cs ++ (w.gap.chars ++ rest))).takeWhile isWordPart = w.chars := by
    have hpre := List.takeWhile_prefix isWordPart (l := c :: (cs ++ (w.gap.chars ++ rest)))
    have hword : w.chars <+: c :: (cs ++ (w.gap.chars ++ rest)) := by
      rw [hchars, ← List.cons_append]
      exact List.prefix_append ..
    exact (List.prefix_of_prefix_length_le hpre hword (Nat.le_of_eq hlen)).eq_of_length hlen
  rw [hrun] at hkeyword
  refine ⟨?_, hkeyword⟩
  rw [Word.text, String.toList_ofList]
  refine ⟨c, cs, hchars, hstart, fun d hd => ?_⟩
  rw [← hrun] at hd
  exact List.all_eq_true.1 List.all_takeWhile d hd

theorem Word.Cuts.punctuation {rest : List Char} (h : w.Cuts rest)
    (hmem : w.text ∈ ";" :: bracketWords) : w.kind = .punctuation := by
  obtain ⟨c, cs, hchars, hfront⟩ := h.front
  have hmark : ∀ word ∈ ";" :: bracketWords,
      word.toList ∈ [[';'], ['('], [')'], ['['], [']'], ['\x7b'], ['\x7d']] := by decide
  have hone := hmark _ hmem
  rw [Word.text, String.toList_ofList, hchars] at hone
  have hrole : (Lexer.front c (cs ++ (w.gap.chars ++ rest))).1 = .lexeme .punctuation := by
    simp only [List.mem_cons, List.not_mem_nil, or_false, List.cons.injEq] at hone
    rcases hone with ⟨rfl, rfl⟩ | ⟨rfl, rfl⟩ | ⟨rfl, rfl⟩ | ⟨rfl, rfl⟩ | ⟨rfl, rfl⟩ | ⟨rfl, rfl⟩ |
      ⟨rfl, rfl⟩ <;> rfl
  rw [hfront] at hrole
  exact Role.lexeme.inj hrole

theorem exists_cuts (h : Cuttable ws) (hw : w ∈ ws) : ∃ rest, w.Cuts rest := by
  induction ws with
  | nil => cases hw
  | cons v ws ih =>
    rcases List.mem_cons.1 hw with rfl | hw
    · exact ⟨_, h.1⟩
    · exact ih h.2 hw

/-! ## Statements -/

namespace Source

variable {s : Source} {i : Nat} {words : List String}

theorem at_of_shows (h : s.Shows i ws) {k : Nat} (hk : ws[k]? = some w) : s.At (i + k) w := by
  induction ws generalizing i k with
  | nil => cases hk
  | cons v ws ih =>
    cases k with
    | zero =>
      cases hk
      exact h.1
    | succ k =>
      have hat := ih h.2 hk
      rwa [Nat.add_assoc, Nat.add_comm 1 k] at hat

/-- At every lexeme stands one of the words. -/
theorem exists_at (h : Cuttable ws) (hi : i < (sourceOf ws).size) :
    ∃ w ∈ ws, (sourceOf ws).At i w := by
  rw [size_sourceOf h] at hi
  refine ⟨ws[i], List.getElem_mem hi, ?_⟩
  have hat := at_of_shows (shows_sourceOf h) (List.getElem?_eq_getElem hi)
  rwa [Nat.zero_add] at hat

/-- Where the words nest their brackets, words and groups follow one behind the other. -/
theorem runs_of_flat (hflat : Flat words) (htexts : ws.map Word.text = words) (h : s.Shows i ws) :
    s.Runs (i + ws.length) i := by
  induction hflat generalizing ws i with
  | nil =>
    obtain rfl := List.map_eq_nil_iff.1 htexts
    exact .stop
  | word hw hsemicolon _ ih =>
    obtain ⟨w, ws, rfl, rfl, hrest⟩ := List.map_eq_cons_iff.1 htexts
    have hnext := ih hrest h.2
    have hlength : i + (w :: ws).length = i + 1 + ws.length := by
      rw [List.length_cons]
      omega
    rw [hlength]
    refine .word (by omega) ?_ hnext
    rw [h.1.spelling_text, List.mem_cons, not_or]
    exact ⟨hsemicolon, hw⟩
  | @group opening inner rest hopening hinner _ ih =>
    obtain ⟨o, is, c, rs, rfl, rfl, rfl, hc, hrs⟩ := exists_of_map_eq_group htexts
    have hround : o.text ∈ ["(", "[", "\x7b"] :=
      List.mem_append_left ["\x7b"] hopening
    obtain ⟨hfirst, -, -, hbehind⟩ := shows_group h
    have hnext := ih hrs hbehind
    have hlength : i + (o :: (is ++ c :: rs)).length = i + 1 + is.length + 1 + rs.length := by
      simp only [List.length_cons, List.length_append]
      omega
    rw [hlength]
    refine .group (by omega) (by omega) ?_ (close?_group hround hinner hc h)
      (angleEndFrom_group hround hinner hc h) hnext
    rwa [hfirst.spelling_text]

/-- **Words that nest their brackets are one statement with the `;` behind them.** -/
theorem isStatement_sourceOf (h : Cuttable (ws ++ [semicolonWord]))
    (hcode : ∀ w ∈ ws, w.kind ≠ .comment) (hflat : Flat (ws.map Word.text)) :
    (sourceOf (ws ++ [semicolonWord])).IsStatement ws.length := by
  obtain ⟨hshows, hlast, -⟩ := shows_append.1 (shows_sourceOf h)
  rw [Nat.zero_add] at hlast
  refine ⟨?_, hlast.spelling, fun i => ?_, fun i hname => ?_, fun i hi hmem => ?_, ?_⟩
  · rw [size_sourceOf h, List.length_append, List.length_singleton]
  · by_cases hi : i < (sourceOf (ws ++ [semicolonWord])).size
    · obtain ⟨w, hw, hat⟩ := exists_at h hi
      have hkind : w.kind ≠ .comment := by
        rcases List.mem_append.1 hw with hw | hw
        · exact hcode w hw
        · obtain rfl := List.mem_singleton.1 hw
          decide
      rw [hat.isComment_eq, decide_eq_false hkind]
    · -- behind the last lexeme stands nothing
      have hnone : (sourceOf (ws ++ [semicolonWord])).lexemes[i]? = none :=
        Array.getElem?_eq_none (Nat.le_of_not_lt hi)
      rw [isComment, kind?, hnone]
      rfl
  · obtain ⟨w, hw, hat⟩ := exists_at h (lt_size_of_isIdentifier hname)
    obtain ⟨rest, hcuts⟩ := exists_cuts h hw
    rw [hat.isIdentifier_eq, decide_eq_true_eq] at hname
    rw [hat.spelling_text]
    exact hcuts.isName hname
  · obtain ⟨w, hw, hat⟩ := exists_at h hi
    obtain ⟨rest, hcuts⟩ := exists_cuts h hw
    rw [hat.spelling_text] at hmem
    rw [hat.kind, hcuts.punctuation hmem]
  · have hruns := runs_of_flat hflat rfl hshows
    rwa [Nat.zero_add] at hruns

end Source

/-! ## Outlines -/

namespace Outline

variable {s : Source} {stop : Nat}

/-- **A text that is one statement is read as one declaration.** -/
theorem spans_ofSource (h : s.IsStatement stop) (hpos : 0 < stop)
    (hdirective : s.is 0 "#" = false) (huncut : s.Uncut (s.behindHeads 0)) (name : String) :
    ∃ id d, (ofSource name [] s).Spans stop id d ∧
      (s.namesAt (s.behindHeads 0) = true → d.kind.canBeDocumented = true) := by
  have hsize : 0 < s.size := h.runs.lt_size h
  have hcovers : (readDeclaration s .file 0 (start name s.size []) 0 false).Covers stop
      (s.namesAt (s.behindHeads 0) = true) :=
    covers_readDeclaration h h.runs (bare_start name hsize) huncut
  have hsemicolon : s.is 0 ";" = false := by
    rw [h.runs.is_eq h]
    exact decide_eq_false fun heq => Nat.ne_of_lt hpos (h.runs.eq_stop heq)
  have hbrace : s.is 0 "\x7d" = false := by
    rw [h.runs.is_eq h]
    exact decide_eq_false (h.runs.ne_brace h).2
  -- one step reads the whole text, and no scope is left open
  have hread : ofSource name [] s =
      (readDeclaration s .file 0 (start name s.size []) 0 false).outline := by
    have hstep : step s (start name s.size []) [] 0 =
        ⟨(readDeclaration s .file 0 (start name s.size []) 0 false).outline, [], stop + 1⟩ := by
      simp only [step, h.code, hdirective, hbrace, hsemicolon, Bool.false_and, Bool.false_eq_true,
        if_false, scopeOf]
      rw [hcovers.opened, hcovers.next]
      rfl
    have hend : ¬stop + 1 < s.size := by
      rw [h.size]
      exact Nat.lt_irrefl _
    rw [ofSource, readFrom_step [] hsize, hstep, readFrom, if_neg hend]
    rfl
  rw [hread]
  exact hcovers.spans

end Outline

end DocIndex
