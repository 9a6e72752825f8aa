import DocIndex.Proofs.Rescan.Kept
import DocIndex.Proofs.Rescan.Words

/-!
# Selected tokens, read again

Tokens that are picked out of a text in order, without comments, can be joined to a text of their
own. Cut into lexemes again, it gives back these tokens, with the same ones touching, but for
backslashes that stand behind a blank (`tight`). So a signature that is rendered again stays as it
is exactly if it holds no such backslash.

* `ofStretches_behind` — the text behind a token is cut into the tokens behind it.
* `selected_rescanned` — **what is read again of selected tokens, and of signatures.**
* `backslash_not_rescanned` — a signature that loses a backslash.
-/

namespace DocIndex

open Lexer

/-! ## Tokens and lexemes that are alike -/

/-- Which tokens touch the one behind them. -/
def touchings (ts : List Token) : List Bool :=
  List.zipWith Token.touches ts ts.tail

/-- The tokens are of the same kinds, spelled the same, and the same ones touch. -/
def SameTokens (ts us : List Token) : Prop :=
  ts.map Token.face = us.map Token.face ∧ touchings ts = touchings us

theorem touchings_cons_cons (t u : Token) (ts : List Token) :
    touchings (t :: u :: ts) = t.touches u :: touchings (u :: ts) :=
  rfl

theorem SameTokens.length_eq {ts us : List Token} (h : SameTokens ts us) :
    ts.length = us.length := by
  simpa using congrArg List.length h.1

theorem SameTokens.textOfTokens_eq {ts us : List Token} (h : SameTokens ts us) :
    textOfTokens ts = textOfTokens us := by
  induction ts generalizing us with
  | nil =>
    obtain rfl := List.map_eq_nil_iff.1 h.1.symm
    rfl
  | cons t ts ih =>
    obtain ⟨hfaces, htouch⟩ := h
    obtain ⟨u, us, rfl, hface, hrest⟩ := List.map_eq_cons_iff.1 hfaces.symm
    obtain ⟨-, hspelling⟩ := Prod.mk.inj hface
    cases ts with
    | nil =>
      obtain rfl := List.map_eq_nil_iff.1 hrest
      exact hspelling.symm
    | cons v ts =>
      obtain ⟨w, us, rfl, -, -⟩ := List.map_eq_cons_iff.1 hrest
      rw [touchings_cons_cons, touchings_cons_cons] at htouch
      obtain ⟨htouches, htouch⟩ := List.cons.inj htouch
      rw [textOfTokens, textOfTokens, hspelling, htouches, ih ⟨hrest.symm, htouch⟩]

/-! ## Loose backslashes -/

/-- The token is a backslash that does not touch the token in front of it. -/
def Token.isLoose (t previous : Token) : Bool :=
  t.spelling == "\\" && !previous.touches t

/-- The tokens behind a given one, without the loose backslashes. -/
def tightBehind (previous : Token) : List Token → List Token
  | [] => []
  | t :: ts => if t.isLoose previous then tightBehind t ts else t :: tightBehind t ts

/-- The tokens without the loose backslashes. -/
def tight : List Token → List Token
  | [] => []
  | t :: ts => t :: tightBehind t ts

variable {t u : Token} {ts us : List Token}

theorem tightBehind_sublist (t : Token) (ts : List Token) : (tightBehind t ts).Sublist ts := by
  induction ts generalizing t with
  | nil => exact .slnil
  | cons u ts ih =>
    rw [tightBehind]
    split
    · exact (ih u).cons u
    · exact (ih u).cons_cons u

theorem tightBehind_eq_self_iff : tightBehind t ts = ts ↔ NoLooseBackslash (t :: ts) := by
  induction ts generalizing t with
  | nil => exact iff_of_true rfl trivial
  | cons u ts ih =>
    rw [tightBehind, NoLooseBackslash]
    cases hloose : u.isLoose t with
    | true =>
      rw [Token.isLoose, Bool.and_eq_true, beq_iff_eq, Bool.not_eq_true'] at hloose
      refine iff_of_false (fun h => ?_) fun h => ?_
      · have hlen := (tightBehind_sublist u ts).length_le
        rw [if_pos rfl] at h
        rw [h, List.length_cons] at hlen
        omega
      · rw [h.1 hloose.1] at hloose
        cases hloose.2
    | false =>
      have htouches : u.spelling = "\\" → t.touches u = true := by
        simpa [Token.isLoose] using hloose
      rw [if_neg Bool.false_ne_true, List.cons.injEq, ih]
      exact ⟨fun h => ⟨htouches, h.2⟩, fun h => ⟨rfl, h.2⟩⟩

theorem tight_sublist (ts : List Token) : (tight ts).Sublist ts := by
  cases ts with
  | nil => exact .slnil
  | cons t ts => exact (tightBehind_sublist t ts).cons_cons t

theorem tight_eq_self_iff : tight ts = ts ↔ NoLooseBackslash ts := by
  cases ts with
  | nil => exact iff_of_true rfl trivial
  | cons t ts =>
    rw [tight, List.cons.injEq, tightBehind_eq_self_iff]
    exact and_iff_right rfl

/-- Tokens are like those among them that are not loose only if none is loose. -/
theorem SameTokens.noLooseBackslash (h : SameTokens us (tight ts)) (h' : SameTokens us ts) :
    NoLooseBackslash ts :=
  tight_eq_self_iff.1 <| (tight_sublist ts).eq_of_length (h.length_eq.symm.trans h'.length_eq)

/-! ## The text behind a token -/

/-- The text of the tokens behind a given one, the blank in front of them included. -/
def textBehind (t : Token) : List Token → List Char
  | [] => []
  | u :: ts => (if t.touches u then [] else [' ']) ++ (u.spelling.toList ++ textBehind u ts)

theorem toList_textOfTokens (t : Token) (ts : List Token) :
    (textOfTokens (t :: ts)).toList = t.spelling.toList ++ textBehind t ts := by
  induction ts generalizing t with
  | nil => simp [textOfTokens, textBehind]
  | cons u ts ih =>
    rw [textOfTokens, textBehind, String.toList_append, String.toList_append, ih,
      List.append_assoc]
    cases t.touches u <;> rfl

theorem exists_textBehind (t : Token) (ts : List Token) :
    ∃ rest, textBehind t ts = touching (t :: ts) ++ rest ∧ Separated rest := by
  induction ts generalizing t with
  | nil => exact ⟨[], rfl, nofun⟩
  | cons u ts ih =>
    rw [textBehind, touching]
    cases t.touches u with
    | false => exact ⟨_, rfl, by rintro c ⟨⟩; exact .inl rfl⟩
    | true =>
      obtain ⟨rest, hrest, hseparated⟩ := ih u
      exact ⟨rest, by simp [hrest], hseparated⟩

/-- A token is cut off the text of the tokens as it was. -/
theorem CutOff.cutBefore (h : CutOff (t :: ts)) (hcode : t.kind ≠ .comment) :
    t.CutBefore (textBehind t ts) := by
  obtain ⟨⟨after, c, ds, hchars, hfront⟩, -⟩ := h
  obtain ⟨rest, hrest, hseparated⟩ := exists_textBehind t ts
  refine ⟨c, ds, hchars, ?_⟩
  rw [hrest]
  exact front_congr hcode hseparated hfront

theorem Token.CutBefore.stretches_eq {rest : List Char} (h : t.CutBefore rest) :
    stretches (t.spelling.toList ++ rest) =
      ⟨.lexeme t.kind, t.spelling.toList⟩ :: stretches rest := by
  obtain ⟨c, ds, hchars, hfront⟩ := h
  rw [hchars]
  exact stretches_cons hfront

/-- Behind a blank a backslash is layout. -/
theorem Token.CutBefore.stretches_loose {rest : List Char} (h : t.CutBefore rest)
    (hslash : t.spelling = "\\") :
    stretches (' ' :: (t.spelling.toList ++ rest)) = ⟨.blank, [' ', '\\']⟩ :: stretches rest := by
  obtain ⟨c, ds, hchars, hfront⟩ := h
  have hone : ['\\'] = c :: ds := by
    rw [← hchars, hslash]
    rfl
  obtain ⟨rfl, rfl⟩ := List.cons.inj hone
  -- it continues no line, since it was cut off
  have hlayout : layoutLength ('\\' :: rest) = 0 := by
    unfold front at hfront
    simp only at hfront
    split at hfront
    · cases hfront
    · exact Nat.eq_zero_of_not_pos (by assumption)
  have htail : layoutTail ('\\' :: rest) = 1 := by
    obtain ⟨-, hfeed, hreturn⟩ := layoutLength_cons_eq_zero.1 hlayout
    unfold layoutTail
    split
    · rename_i heq
      cases heq
    · rename_i heq
      cases heq
      simp at hreturn
    · rename_i heq
      cases heq
      simp at hfeed
    · rfl
    · rename_i hother heq
      cases heq
      exact (hother rfl).elim
  have hblank : front ' ' (['\\'] ++ rest) = (.blank, 2) := by
    have hlen : layoutLength (' ' :: '\\' :: rest) = 2 := by
      simp [layoutLength, isLayout, htail]
    simp [front, hlen]
  rw [hchars]
  exact stretches_cons hblank

/-! ## Cutting the text behind a token -/

/-- The kind and the spelling of a lexeme. -/
def Lexeme.face (l : Lexeme) : LexemeKind × String :=
  (l.kind, l.spelling)

/-- The lexemes are of the kinds of the tokens, spelled the same, and the same ones touch. -/
def LikeTokens (ls : List Lexeme) (ts : List Token) : Prop :=
  ls.map Lexeme.face = ts.map Token.face ∧
    List.zipWith (fun l m => l.stop == m.start) ls ls.tail = touchings ts

/-- The lexemes behind an offset are like the tokens behind a token that ends there. -/
structure LikeBehind (offset : Nat) (t : Token) (ls : List Lexeme) (ts : List Token) : Prop where
  like : LikeTokens ls ts
  start : ∀ l ∈ ls.head?, ∀ u ∈ ts.head?, offset ≤ l.start ∧ (offset == l.start) = t.touches u

/-- A token with what is behind it. -/
theorem LikeBehind.likeTokens_cons {offset : Nat} {gap : String} {ls : List Lexeme}
    (h : LikeBehind (offset + byteLength u.spelling.toList) u ls ts) :
    LikeTokens (⟨u.kind, String.ofList u.spelling.toList, offset, gap⟩ :: ls) (u :: ts) := by
  obtain ⟨⟨hfaces, htouch⟩, hstart⟩ := h
  refine ⟨?_, ?_⟩
  · rw [List.map_cons, List.map_cons, hfaces]
    simp [Lexeme.face, Token.face]
  · cases ls with
    | nil =>
      obtain rfl := List.map_eq_nil_iff.1 hfaces.symm
      rfl
    | cons l ls =>
      obtain ⟨v, ts, rfl, -, -⟩ := List.map_eq_cons_iff.1 hfaces.symm
      rw [touchings_cons_cons, ← htouch, ← (hstart l rfl v rfl).2]
      simp [Lexeme.stop, ← utf8ByteSize_ofList]

/-- A token that is cut off is the first lexeme. -/
theorem Token.CutBefore.ofStretches_eq {rest gap : List Char} {offset : Nat} {ls : List Lexeme}
    (h : t.CutBefore rest)
    (hls : Lexed.ofStretches (offset + byteLength t.spelling.toList) [] (stretches rest) =
      ⟨ls, []⟩) :
    Lexed.ofStretches offset gap (stretches (t.spelling.toList ++ rest)) =
      ⟨⟨t.kind, String.ofList t.spelling.toList, offset, String.ofList gap.reverse⟩ :: ls, []⟩ := by
  rw [h.stretches_eq, Lexed.ofStretches]
  simp only [hls]

/-- **The text behind a token is cut into the tokens behind it**, but for the loose ones. -/
theorem ofStretches_behind (hcut : CutOff ts) (hcode : ∀ u ∈ ts, u.kind ≠ .comment)
    (hapart : Apart (t :: ts)) (offset : Nat) (gap : List Char) :
    ∃ ls, Lexed.ofStretches offset gap (stretches (textBehind t ts)) = ⟨ls, []⟩ ∧
      LikeBehind offset t ls (tightBehind t ts) := by
  induction ts generalizing t offset gap with
  | nil =>
    exact ⟨[], by simp [textBehind, stretches, Lexed.ofStretches], ⟨rfl, rfl⟩, nofun⟩
  | cons u ts ih =>
    obtain ⟨hkind, hcode⟩ := List.forall_mem_cons.1 hcode
    have hu := hcut.cutBefore hkind
    have hrest : Apart (u :: ts) := Apart.right (show Apart ([t] ++ u :: ts) from hapart)
    have htu : t.extent.stop.offset ≤ u.extent.start.offset :=
      (List.pairwise_cons.1 hapart.2).1 u List.mem_cons_self
    rw [textBehind, tightBehind]
    cases htouches : t.touches u with
    | true =>
      obtain ⟨ls, hls, hlike⟩ := ih hcut.2 hcode hrest (offset + byteLength u.spelling.toList) []
      refine ⟨_, hu.ofStretches_eq hls, ?_⟩
      rw [if_neg (by simp [Token.isLoose, htouches])]
      refine ⟨hlike.likeTokens_cons, ?_⟩
      rintro l ⟨⟩ v ⟨⟩
      exact ⟨Nat.le_refl offset, by simp [htouches]⟩
    | false =>
      by_cases hslash : u.spelling = "\\"
      · -- the blank takes the backslash in
        obtain ⟨ls, hls, hlike⟩ := ih hcut.2 hcode hrest (offset + 2) ('\\' :: ' ' :: gap)
        refine ⟨ls, ?_, ?_⟩
        · rw [if_neg Bool.false_ne_true, List.singleton_append, hu.stretches_loose hslash,
            Lexed.ofStretches]
          exact hls
        · rw [if_pos (by simp [Token.isLoose, hslash, htouches])]
          refine ⟨hlike.like, fun l hl v hv => ?_⟩
          have hmem : v ∈ ts := (tightBehind_sublist u ts).subset (List.mem_of_mem_head? hv)
          have huv := (List.pairwise_cons.1 hrest.2).1 v hmem
          have hpos := hrest.1 u List.mem_cons_self
          have hle := (hlike.start l hl v hv).1
          refine ⟨by omega, ?_⟩
          rw [Token.touches, beq_eq_false_iff_ne.2 (by omega), beq_eq_false_iff_ne.2 (by omega)]
      · obtain ⟨ls, hls, hlike⟩ :=
          ih hcut.2 hcode hrest (offset + 1 + byteLength u.spelling.toList) []
        have hblank : stretches (' ' :: (u.spelling.toList ++ textBehind u ts)) =
            ⟨.blank, [' ']⟩ :: stretches (u.spelling.toList ++ textBehind u ts) := by
          have hfront := front_blank (.inl rfl) (hu.endsBlank hslash (textBehind u ts))
          exact stretches_cons (show front ' ' ([] ++ _) = (.blank, 1) from hfront)
        have hlexed : Lexed.ofStretches (offset + 1) (' ' :: gap)
            (stretches (u.spelling.toList ++ textBehind u ts)) = ⟨_, []⟩ :=
          hu.ofStretches_eq hls
        refine ⟨_, (congrArg (Lexed.ofStretches offset gap) hblank).trans hlexed, ?_⟩
        rw [if_neg (by simp [Token.isLoose, hslash])]
        refine ⟨hlike.likeTokens_cons, ?_⟩
        rintro l ⟨⟩ v ⟨⟩
        exact ⟨Nat.le_succ offset, by simp [htouches]⟩

/-! ## Selected tokens -/

theorem Apart.of_sublist (h : Apart ts) (hus : us.Sublist ts) : Apart us :=
  ⟨fun t ht => h.1 t (hus.subset ht), h.2.sublist hus⟩

/-- The text of tokens is cut into the tokens, but for the loose ones. -/
theorem ofText_textOfTokens (hcut : CutOff ts) (hcode : ∀ t ∈ ts, t.kind ≠ .comment)
    (hapart : Apart ts) :
    ∃ ls, Lexed.ofText (textOfTokens ts).toList = ⟨ls, []⟩ ∧ LikeTokens ls (tight ts) := by
  cases ts with
  | nil =>
    exact ⟨[], by simp [textOfTokens, Lexed.ofText, stretches, Lexed.ofStretches], rfl, rfl⟩
  | cons t ts =>
    obtain ⟨hkind, hcode⟩ := List.forall_mem_cons.1 hcode
    obtain ⟨ls, hls, hlike⟩ := ofStretches_behind (t := t) hcut.2 hcode hapart
      (0 + byteLength t.spelling.toList) []
    rw [toList_textOfTokens]
    exact ⟨_, (hcut.cutBefore hkind).ofStretches_eq hls, hlike.likeTokens_cons⟩

/-- The tokens of a unit are like its lexemes. -/
theorem LikeTokens.sameTokens {s : Source} {path : Path} {faults : List (Nat × LexFault)}
    {o : Outline} {ls : List Lexeme} (h : LikeTokens ls ts) (hs : s.lexemes = ls.toArray) :
    SameTokens (s.unitOf path faults o).tokens.toList ts := by
  have htokens : (s.unitOf path faults o).tokens.toList = ls.mapIdx (s.tokenOf o) := by
    simp only [Source.unitOf, hs, Array.toList_mapIdx]
  obtain ⟨hfaces, htouch⟩ := h
  rw [SameTokens, ← hfaces, ← htouch, htokens]
  refine ⟨List.ext_getElem (by simp) fun i _ _ => ?_, List.ext_getElem ?_ fun i _ _ => ?_⟩
  · simp [Source.tokenOf, Token.face, Lexeme.face]
  · simp [touchings]
  · simp [touchings, Source.tokenOf, Token.touches, LineTable.place]

/-! ## Signatures -/

/-- How many backslashes tokens hold. -/
def backslashes (ts : List Token) : Nat :=
  (ts.flatMap fun t => t.spelling.toList).count '\\'

theorem backslashes_cons (t : Token) (ts : List Token) :
    backslashes (t :: ts) = t.spelling.toList.count '\\' + backslashes ts :=
  List.count_append

theorem count_textBehind (t : Token) (ts : List Token) :
    (textBehind t ts).count '\\' = backslashes ts := by
  induction ts generalizing t with
  | nil => rfl
  | cons u ts ih =>
    rw [textBehind, List.count_append, List.count_append, ih]
    cases t.touches u <;> simp [backslashes_cons]

theorem count_textOfTokens (ts : List Token) :
    (textOfTokens ts).toList.count '\\' = backslashes ts := by
  cases ts with
  | nil => rfl
  | cons t ts =>
    rw [toList_textOfTokens, List.count_append, count_textBehind, backslashes_cons]

theorem backslashes_le_of_sublist (h : us.Sublist ts) : backslashes us ≤ backslashes ts := by
  induction h with
  | slnil => exact Nat.le_refl _
  | cons t _ ih => rw [backslashes_cons]; omega
  | cons_cons t _ ih => rw [backslashes_cons, backslashes_cons]; omega

/-- A loose backslash is lost. -/
theorem backslashes_tightBehind_lt (h : ¬NoLooseBackslash (t :: ts)) :
    backslashes (tightBehind t ts) < backslashes ts := by
  induction ts generalizing t with
  | nil => exact absurd trivial h
  | cons u ts ih =>
    rw [tightBehind]
    split
    · rename_i hloose
      have hslash : u.spelling = "\\" := by
        rw [Token.isLoose, Bool.and_eq_true, beq_iff_eq] at hloose
        exact hloose.1
      have hle := backslashes_le_of_sublist (tightBehind_sublist u ts)
      have hone : u.spelling.toList.count '\\' = 1 := by rw [hslash]; rfl
      rw [backslashes_cons]
      omega
    · rename_i htight
      have hrest : ¬NoLooseBackslash (u :: ts) := by
        refine fun hrest => h ⟨fun hslash => ?_, hrest⟩
        simpa [Token.isLoose, hslash] using htight
      simpa [backslashes_cons] using ih hrest

theorem backslashes_tight_lt (h : ¬NoLooseBackslash ts) :
    backslashes (tight ts) < backslashes ts := by
  cases ts with
  | nil => exact absurd trivial h
  | cons t ts => simpa [tight, backslashes_cons] using backslashes_tightBehind_lt h

/-- Tokens that are like those of a signature are rendered like it exactly if none was loose. -/
theorem SameTokens.signature_iff (h : SameTokens us (tight (headTokens ts))) :
    textOfTokens (headTokens us) = textOfTokens (headTokens ts) ↔
      NoLooseBackslash (headTokens ts) := by
  constructor
  · intro htext
    refine Decidable.byContradiction fun hloose => ?_
    have hlt := backslashes_tight_lt hloose
    have hcount : backslashes (headTokens us) = backslashes (headTokens ts) := by
      rw [← count_textOfTokens, htext, count_textOfTokens]
    have hle := backslashes_le_of_sublist (headFrom_sublist 0 0 none us)
    have hus : backslashes us = backslashes (tight (headTokens ts)) := by
      rw [← count_textOfTokens, h.textOfTokens_eq, count_textOfTokens]
    change backslashes (headTokens us) ≤ _ at hle
    omega
  · intro htight
    rw [tight_eq_self_iff.2 htight] at h
    rw [headTokens_eq_self_congr h.1 (headTokens_headTokens ts), h.textOfTokens_eq]

/-- **Tokens that are selected from a text are read again as they were, but for loose backslashes**,
and without a fault. So they come back as they were exactly if no backslash is loose, and a
signature that is rendered again is the same exactly if it holds no loose backslash. -/
theorem selected_rescanned (path : Path) (cs : List Char) (args : List String) :
    (∀ ts, ts.Sublist (parseText path cs args).tokens.toList → (∀ t ∈ ts, t.kind ≠ .comment) →
      ∀ path' args',
        let again := (parseText path' (textOfTokens ts).toList args').tokens.toList
        (Lexed.ofText (textOfTokens ts).toList).faults = [] ∧ SameTokens again (tight ts) ∧
          (SameTokens again ts ↔ NoLooseBackslash ts)) ∧
    ∀ ts, ts <:+: (parseText path cs args).tokens.toList → ∀ path' args',
      let again := (parseText path' (textOfTokens (headTokens ts)).toList args').tokens.toList
      textOfTokens (headTokens again) = textOfTokens (headTokens ts) ↔
        NoLooseBackslash (headTokens ts) := by
  have hselected (ts : List Token) (hts : ts.Sublist (parseText path cs args).tokens.toList)
      (hcode : ∀ t ∈ ts, t.kind ≠ .comment) (path' : Path) (args' : List String) :
      (Lexed.ofText (textOfTokens ts).toList).faults = [] ∧
        SameTokens (parseText path' (textOfTokens ts).toList args').tokens.toList (tight ts) := by
    have hcut : CutOff ts := cutOff_of_standsIn fun t ht =>
      Source.standsIn_of_mem (Array.mem_toList_iff.1 (hts.subset ht))
    have hapart : Apart ts := (Source.apart_tokens (Source.ordered_ofText cs)).of_sublist hts
    obtain ⟨ls, hls, hlike⟩ := ofText_textOfTokens hcut hcode hapart
    refine ⟨by rw [hls], hlike.sameTokens ?_⟩
    rw [Source.ofLexed, hls]
  refine ⟨fun ts hts hcode path' args' => ?_, fun ts hts path' args' => ?_⟩
  · obtain ⟨hfaults, hsame⟩ := hselected ts hts hcode path' args'
    refine ⟨hfaults, hsame, hsame.noLooseBackslash, fun htight => ?_⟩
    rwa [tight_eq_self_iff.2 htight] at hsame
  · have hhead : (headTokens ts).Sublist (parseText path cs args).tokens.toList :=
      (headFrom_sublist 0 0 none ts).trans hts.sublist
    exact (hselected _ hhead (fun _ => kind_of_mem_headFrom) path' args').2.signature_iff

/-- A backslash right behind a keyword that signatures leave out. -/
def looseText : List Char :=
  "int struct\\ x;\n".toList

/-- **A signature is not the same when it is rendered again**: the keyword is left out, the
backslash then stands behind a blank, and is lost. -/
theorem backslash_not_rescanned :
    let ts := (parseText ⟨"a.h"⟩ looseText []).tokens.toList
    let again := (parseText ⟨"b.h"⟩ (textOfTokens (headTokens ts)).toList []).tokens.toList
    textOfTokens (headTokens ts) = "int \\ x" ∧ textOfTokens (headTokens again) = "int x" := by
  decide +kernel

end DocIndex
