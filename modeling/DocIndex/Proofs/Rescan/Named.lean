import DocIndex.Proofs.Layout.Named
import DocIndex.Proofs.Relaid
import DocIndex.Proofs.Rescan.Selected

/-!
# Names in signatures

Every cursor that goes by a single lexeme has it among its tokens. Its signature stops in front of
the body, so it holds the name if the name stands there as well, and also if nothing else is left
of it. A macro begins with its name, so its signature does too.

* `frontFrom` — the tokens of a declaration in front of its body.
* `SourceUnit.NamedBy` — the token that names a cursor.
* `SourceUnit.signature_named` — **which signatures hold the name, and what it means if two are the
  same.**
* `SourceUnit.name_behind_body` — different names that are documented under one signature.
-/

namespace DocIndex

open Lexer

/-! ## The front of a declaration -/

/-- The tokens in front of the body of a declaration, read from within brackets of the given depth:
up to the first `{` or `;` outside of brackets, without comments. -/
def frontFrom (brackets : Nat) : List Token → List Token
  | [] => []
  | t :: ts =>
    if t.kind = .comment then frontFrom brackets ts
    else if brackets = 0 && (t.spelling = "\x7b" || t.spelling = ";") then []
    else t :: frontFrom (t.bracketsAfter brackets) ts

/-- A signature is the front without some keywords. -/
theorem mem_headFrom_iff {t : Token} (ht : t.spelling ∉ silentKeywords) {brackets angles : Nat}
    {previous : Option String} {ts : List Token} :
    t ∈ headFrom brackets angles previous ts ↔ t ∈ frontFrom brackets ts := by
  fun_induction headFrom brackets angles previous ts with
  | case1 => exact Iff.rfl
  | case2 brackets angles previous u ts hcomment ih => rwa [frontFrom, if_pos hcomment]
  | case3 brackets angles previous u ts hcode hend => rw [frontFrom, if_neg hcode, if_pos hend]
  | case4 brackets angles previous u ts hcode hgoes b a rest hsilent ih =>
    -- the keyword that is left out is not `t`
    rw [frontFrom, if_neg hcode, if_neg hgoes, List.mem_cons, ih, or_iff_right]
    rintro rfl
    simp only [Bool.and_eq_true, List.contains_iff_mem] at hsilent
    exact ht hsilent.2
  | case5 brackets angles previous u ts hcode hgoes b a rest hkept ih =>
    rw [frontFrom, if_neg hcode, if_neg hgoes, List.mem_cons, List.mem_cons, ih]

/-! ## The words of a text -/

theorem mem_tightBehind_iff {t v : Token} (ht : t.spelling ≠ "\\") {ts : List Token} :
    t ∈ tightBehind v ts ↔ t ∈ ts := by
  induction ts generalizing v with
  | nil => exact Iff.rfl
  | cons u ts ih =>
    rw [tightBehind, List.mem_cons]
    split
    · rename_i hloose
      rw [ih, or_iff_right]
      rintro rfl
      rw [Token.isLoose, Bool.and_eq_true, beq_iff_eq] at hloose
      exact ht hloose.1
    · rw [List.mem_cons, ih]

theorem mem_tight_iff {t : Token} (ht : t.spelling ≠ "\\") {ts : List Token} :
    t ∈ tight ts ↔ t ∈ ts := by
  cases ts with
  | nil => exact Iff.rfl
  | cons u ts => rw [tight, List.mem_cons, List.mem_cons, mem_tightBehind_iff ht]

/-- The words of a text that tokens are joined to. -/
theorem words_textOfTokens {ts : List Token} (hcut : CutOff ts)
    (hcode : ∀ t ∈ ts, t.kind ≠ .comment) (hapart : Apart ts) :
    (Lexed.ofText (textOfTokens ts).toList).lexemes.map Lexeme.spelling =
      (tight ts).map Token.spelling := by
  obtain ⟨ls, hls, hfaces, -⟩ := ofText_textOfTokens hcut hcode hapart
  rw [hls]
  have hspellings := congrArg (List.map Prod.snd) hfaces
  rwa [List.map_map, List.map_map] at hspellings

theorem head_words_textOfTokens {t : Token} {ts : List Token}
    (h : t.CutBefore (textBehind t ts)) :
    ((Lexed.ofText (textOfTokens (t :: ts)).toList).lexemes.map Lexeme.spelling).head? =
      some t.spelling := by
  rw [toList_textOfTokens, Lexed.ofText, h.stretches_eq, Lexed.lexemes_of_role rfl]
  simp

/-- A token is cut off the text that it begins as it was, if the next one touches it. That matters
for a comment, which may go on with a blank. -/
theorem Token.StandsIn.cutBefore_textBehind {cs before after : List Char} {t : Token}
    {ts : List Token} (ht : t.StandsIn cs before after)
    (hts : ∀ u ∈ ts, ∃ before after, u.StandsIn cs before after)
    (hnext : ∀ u ∈ ts.head?, t.touches u = true) : t.CutBefore (textBehind t ts) := by
  by_cases hcomment : t.kind = .comment
  · obtain ⟨rest, hrest⟩ := touching_of_standsIn ht hts
    obtain ⟨c, ds, hchars, hfront⟩ := ht.cut
    refine ⟨c, ds, hchars, ?_⟩
    rw [hcomment] at hfront ⊢
    refine front_comment_congr (fun d hd => ?_) hfront
    cases ts with
    | nil => cases hd
    | cons u ts =>
      obtain ⟨_, _, hu⟩ := hts u List.mem_cons_self
      obtain ⟨e, es, hspelling, -⟩ := hu.cut
      have htouches : t.touches u = true := hnext u rfl
      rw [textBehind, if_pos htouches, List.nil_append, hspelling] at hd
      rw [hrest, touching, if_pos htouches, hspelling]
      exact hd
  · exact (cutOff_of_standsIn (List.forall_mem_cons.2 ⟨⟨before, after, ht⟩, hts⟩)).cutBefore
      hcomment

/-- The signature of a macro goes on behind the name only with what touches it. -/
theorem macroHeadTokens_cons (t : Token) (ts : List Token) :
    ∃ us, macroHeadTokens (t :: ts) = t :: us ∧ ∀ u ∈ us.head?, t.touches u = true := by
  cases ts with
  | nil => exact ⟨[], rfl, nofun⟩
  | cons v ts =>
    rw [macroHeadTokens]
    split
    · rename_i hparen
      rw [Bool.and_eq_true] at hparen
      refine ⟨_, rfl, fun u hu => ?_⟩
      rw [throughParen] at hu
      split at hu <;> cases hu <;> exact hparen.2
    · exact ⟨[], rfl, nofun⟩

/-- An identifier is spelled like a word, and unlike the keywords that signatures leave out. -/
theorem Token.CutBefore.of_identifier {t : Token} {rest : List Char} (h : t.CutBefore rest)
    (hkind : t.kind = .identifier) : t.spelling ≠ "\\" ∧ t.spelling ∉ silentKeywords := by
  obtain ⟨c, ds, hchars, hfront⟩ := h
  rw [hkind] at hfront
  obtain ⟨hstart, hlen, hkeyword⟩ := of_front_identifier hfront
  constructor
  · intro hslash
    rw [hslash] at hchars
    obtain ⟨rfl, -⟩ := List.cons.inj hchars
    cases hstart
  · intro hsilent
    have hword := takeWhile_eq_of_length (p := c :: ds) hlen.symm
    rw [List.cons_append] at hword
    rw [hword, ← hchars, String.ofList_toList] at hkeyword
    have hkeywords : ∀ word ∈ silentKeywords, isKeyword word = true := by decide
    rw [hkeywords _ hsilent] at hkeyword
    cases hkeyword

/-! ## The names of cursors -/

theorem Category.ofKind_eq_macroDefinition {kind : CursorKind}
    (h : ofKind kind = .macroDefinition) : kind = .macroDefinition := by
  cases kind <;> first | rfl | cases h

/-- The name of a draft is among the lexemes that its cursor reaches over, and is the first of them
for a macro. -/
theorem Draft.NamedAt.inRange {s : Source} {d : Draft} {k : Nat} (h : d.NamedAt s k) :
    (Source.rangeOf s.size d.first d.last).1 ≤ k ∧
      k < (Source.rangeOf s.size d.first d.last).2 ∧
      (d.kind = .macroDefinition → (Source.rangeOf s.size d.first d.last).1 = k) := by
  have hfirst := h.first_le
  have hlast := h.le_last
  have hsize := h.lt_size
  unfold Source.rangeOf
  split
  · refine ⟨hfirst, ?_, fun hkind => (h.head hkind).1.symm⟩
    show k < max d.first (d.last + 1)
    omega
  · rename_i hout
    refine ⟨Nat.zero_le k, hsize, fun hkind => absurd ⟨?_, (h.head hkind).2⟩ hout⟩
    omega

namespace SourceUnit

/-- The words of a signature: what it is cut into as a text. -/
def signatureWords (u : SourceUnit) (id : CursorId) : List String :=
  (Lexed.ofText (u.signature id).toList).lexemes.map Lexeme.spelling

/-- The cursor has a name, of one lexeme. -/
def IsNamed (u : SourceUnit) (id : CursorId) : Prop :=
  (Category.ofKind (u.cursor id).kind).isNamed = true ∧ (u.cursor id).spelling ≠ ""

/-- The name stands where the signature is taken from: it is that of a macro, or stands in front of
the body, or it is all that there is to say. -/
def NamedInFront (u : SourceUnit) (id : CursorId) : Prop :=
  (u.cursor id).kind = .macroDefinition ∨ u.keptTokens id = [] ∨
    (u.cursor id).spelling ∈ (frontFrom 0 (u.tokensOf id)).map Token.spelling

instance (u : SourceUnit) (id : CursorId) : Decidable (u.IsNamed id) :=
  inferInstanceAs (Decidable (_ ∧ _))

instance (u : SourceUnit) (id : CursorId) : Decidable (u.NamedInFront id) :=
  inferInstanceAs (Decidable (_ ∨ _))

/-- The tokens of a cursor by their numbers. -/
theorem getElem?_tokensOf {u : SourceUnit} {id : CursorId} {k : Nat}
    (hfirst : (u.tokenRange id).1 ≤ k) (hlast : k < (u.tokenRange id).2) :
    (u.tokensOf id)[k - (u.tokenRange id).1]? = u.tokens[k]? := by
  rw [tokensOf, Array.getElem?_toList, Array.getElem?_extract]
  split
  · rw [Nat.add_sub_cancel' hfirst]
  · exact (Array.getElem?_eq_none (by omega)).symm

/-- The token that names a cursor. A macro begins with it, and elsewhere it is an identifier. -/
structure NamedBy (u : SourceUnit) (id : CursorId) (t : Token) : Prop where
  mem : t ∈ u.tokensOf id
  spelling : t.spelling = (u.cursor id).spelling
  head : (u.cursor id).kind = .macroDefinition → (u.tokensOf id).head? = some t
  kind : (u.cursor id).kind ≠ .macroDefinition → t.kind = .identifier

section

variable {s : Source} {o : Outline} {path : Path} {faults : List (Nat × LexFault)} {next : Nat}
  {id : CursorId}

/-- The draft of a cursor that has a name, with the lexeme that names it. -/
theorem exists_namedAt (hs : s.Ordered) (hnamed : o.Named s [] next)
    (h : (s.unitOf path faults o).IsNamed id) :
    ∃ (d : Draft) (k : Nat), d.NamedAt s k ∧ ((s.unitOf path faults o).cursor id).kind = d.kind ∧
      ((s.unitOf path faults o).cursor id).spelling = d.spelling ∧
      ((s.unitOf path faults o).tokenRange id).1 ≤ k ∧
      k < ((s.unitOf path faults o).tokenRange id).2 ∧
      (d.kind = .macroDefinition → ((s.unitOf path faults o).tokenRange id).1 = k) := by
  obtain ⟨file, hfile, hplain⟩ := hnamed.opened 0 List.mem_cons_self
  obtain ⟨hcategory, hne⟩ := h
  rcases Source.cursor_cases s path faults (Array.getElem?_eq_some_iff.1 hfile).1 id with
    ⟨d, -, hd, heq⟩ | ⟨-, d, hd, heq⟩
  all_goals
    rw [heq] at hcategory hne
    obtain ⟨k, -, hk⟩ := hnamed.named _ d hd hcategory hne
    refine ⟨d, k, hk, congrArg Cursor.kind heq, congrArg Cursor.spelling heq, ?_⟩
  · rw [Source.tokenRange_unitOf hs (congrArg Cursor.extent heq)]
    exact hk.inRange
  · -- what stands for the file reaches over the whole text, and is no macro
    obtain rfl : d = file := Option.some.inj (hd.symm.trans hfile)
    rw [Source.tokenRange_of_extent hs (congrArg Cursor.extent heq)]
    exact ⟨Nat.zero_le k, hk.lt_size, fun hkind => absurd hkind hplain⟩

/-- **The name of a cursor is one of its tokens.** -/
theorem exists_namedBy (hs : s.Ordered) (hnamed : o.Named s [] next)
    (h : (s.unitOf path faults o).IsNamed id) : ∃ t, (s.unitOf path faults o).NamedBy id t := by
  obtain ⟨d, k, hk, hkind, hspelling, hfirst, hlast, hhead⟩ := exists_namedAt hs hnamed h
  obtain ⟨a, hlexeme⟩ : ∃ a, s.lexemes[k]? = some a := ⟨_, Array.getElem?_eq_getElem hk.lt_size⟩
  have htoken : (s.unitOf path faults o).tokens[k]? = some (s.tokenOf o k a) := by
    rw [Source.getElem?_tokens, hlexeme, Option.map_some]
  have hof := (getElem?_tokensOf hfirst hlast).trans htoken
  refine ⟨_, List.mem_of_getElem? hof, ?_, fun hmacro => ?_, fun hplain => ?_⟩
  · have hspelled := hk.spelling
    rw [Source.spelling, hlexeme] at hspelled
    exact hspelled.trans hspelling.symm
  · rw [hhead (hkind.symm.trans hmacro), Nat.sub_self] at hof
    rw [List.head?_eq_getElem?, hof]
  · have hidentifier := hk.identifier (hkind ▸ hplain)
    rw [Source.isIdentifier, Source.kind?, hlexeme, beq_iff_eq] at hidentifier
    exact Option.some.inj hidentifier

end

/-! ## The words of signatures -/

section

variable {cs : List Char} {path : Path} {faults : List (Nat × LexFault)} {o : Outline}
  {id : CursorId} {t : Token}

/-- A signature that is no macro's holds the name where the front does, and where it is the name. -/
theorem NamedBy.mem_signatureWords_iff
    (h : ((Source.ofText cs).unitOf path faults o).NamedBy id t)
    (hkind : (((Source.ofText cs).unitOf path faults o).cursor id).kind ≠ .macroDefinition) :
    let u := (Source.ofText cs).unitOf path faults o
    (u.cursor id).spelling ∈ u.signatureWords id ↔ u.keptTokens id = [] ∨
      (u.cursor id).spelling ∈ (frontFrom 0 (u.tokensOf id)).map Token.spelling := by
  intro u
  have hsub := u.tokensOf_sublist id
  have hstands {v : Token} (hv : v ∈ u.tokensOf id) :=
    Source.standsIn_of_mem (Array.mem_toList_iff.1 (hsub.subset hv))
  have hidentifier : t.kind = .identifier := h.kind hkind
  obtain ⟨before, after, ht⟩ := hstands h.mem
  obtain ⟨hslash, hsilent⟩ := ht.cut.of_identifier hidentifier
  -- what is written out are tokens of the text, without comments
  have hwords (ts : List Token) (hts : ts.Sublist (u.tokensOf id))
      (hcode : ∀ v ∈ ts, v.kind ≠ .comment) :=
    words_textOfTokens (cutOff_of_standsIn fun v hv => hstands (hts.subset hv)) hcode
      ((Source.apart_tokens (Source.ordered_ofText cs)).of_sublist (hts.trans hsub))
  have hname : (u.cursor id).spelling = t.spelling := h.spelling.symm
  by_cases hnone : u.keptTokens id = []
  · have hcode : ∀ v ∈ [t], v.kind ≠ .comment := by
      intro v hv
      rw [List.mem_singleton.1 hv, hidentifier]
      nofun
    have hword : u.signatureWords id = [t.spelling] := by
      rw [signatureWords, signature, hnone, if_pos List.isEmpty_nil, hname]
      exact hwords [t] (List.singleton_sublist.2 h.mem) hcode
    rw [hword, hname]
    exact iff_of_true (List.mem_singleton_self _) (.inl hnone)
  · have hkept : u.keptTokens id = headTokens (u.tokensOf id) := if_neg hkind
    have hword : u.signatureWords id =
        (tight (headTokens (u.tokensOf id))).map Token.spelling := by
      rw [signatureWords, signature, if_neg (by rwa [List.isEmpty_iff]), hkept]
      exact hwords _ (hkept ▸ u.keptTokens_sublist id) fun v => kind_of_mem_headFrom
    rw [hword, hname, or_iff_right hnone, List.mem_map, List.mem_map]
    refine exists_congr fun v => and_congr_left fun hv => ?_
    rw [← hv] at hslash hsilent
    exact (mem_tight_iff hslash).trans (mem_headFrom_iff hsilent)

/-- The signature of a macro begins with its name. -/
theorem NamedBy.head_signatureWords
    (h : ((Source.ofText cs).unitOf path faults o).NamedBy id t)
    (hkind : (((Source.ofText cs).unitOf path faults o).cursor id).kind = .macroDefinition) :
    let u := (Source.ofText cs).unitOf path faults o
    (u.signatureWords id).head? = some (u.cursor id).spelling := by
  intro u
  obtain ⟨ts, hts⟩ := List.head?_eq_some_iff.1 (h.head hkind)
  obtain ⟨us, hus, hnext⟩ := macroHeadTokens_cons t ts
  have hkept : u.keptTokens id = t :: us := by
    rw [keptTokens, if_pos hkind, hts, hus]
  have hstands (v : Token) (hv : v ∈ t :: us) :=
    Source.standsIn_of_mem (mem_tokens_of_mem_keptTokens (hkept ▸ hv))
  obtain ⟨before, after, ht⟩ := hstands t List.mem_cons_self
  have hcut := ht.cutBefore_textBehind (fun v hv => hstands v (List.mem_cons_of_mem t hv)) hnext
  rw [signatureWords, signature, hkept, List.isEmpty_cons, if_neg Bool.false_ne_true,
    head_words_textOfTokens hcut, h.spelling]

/-- A signature holds the name exactly if the name stands in front. -/
theorem NamedBy.mem_signatureWords_iff_namedInFront
    (h : ((Source.ofText cs).unitOf path faults o).NamedBy id t) :
    let u := (Source.ofText cs).unitOf path faults o
    (u.cursor id).spelling ∈ u.signatureWords id ↔ u.NamedInFront id := by
  intro u
  by_cases hkind : (u.cursor id).kind = .macroDefinition
  · exact iff_of_true (List.mem_of_mem_head? (h.head_signatureWords hkind)) (.inl hkind)
  · exact (h.mem_signatureWords_iff hkind).trans (or_iff_right hkind).symm

end

theorem exists_namedBy_parseText {path : Path} {cs : List Char} {args : List String}
    {id : CursorId} (h : (parseText path cs args).IsNamed id) :
    ∃ t, (parseText path cs args).NamedBy id t := by
  obtain ⟨next, hnext⟩ := Outline.named_ofText path.text (Macros.ofArguments args) cs
  exact exists_namedBy (Source.ordered_ofText cs) hnext h

theorem signatureWords_congr {u u' : SourceUnit} {id id' : CursorId}
    (h : u'.signature id' = u.signature id) : u'.signatureWords id' = u.signatureWords id := by
  rw [signatureWords, signatureWords, h]

/-- **A cursor that goes by a single lexeme has it among its tokens, and its signature holds it
exactly if it stands in front.** So macros that have the same signature have the same name, and
other declarations that have the same signature, and their names in front, have both names there. -/
theorem signature_named (path : Path) (cs : List Char) (args : List String) (id : CursorId)
    (h : (parseText path cs args).IsNamed id) :
    let u := parseText path cs args
    (u.cursor id).spelling ∈ (u.tokensOf id).map Token.spelling ∧
      ((u.cursor id).spelling ∈ u.signatureWords id ↔ u.NamedInFront id) ∧
      ∀ path' cs' args' id', let u' := parseText path' cs' args'
        u'.IsNamed id' → (u'.declaration id').category = (u.declaration id).category →
        (u'.declaration id').signature = (u.declaration id).signature →
          ((u.declaration id).category = .macroDefinition →
            (u'.cursor id').spelling = (u.cursor id).spelling) ∧
          (u.NamedInFront id → u'.NamedInFront id' →
            (u'.cursor id').spelling ∈ u.signatureWords id ∧
              (u.cursor id).spelling ∈ u'.signatureWords id') := by
  obtain ⟨t, ht⟩ := exists_namedBy_parseText h
  refine ⟨List.mem_map.2 ⟨t, ht.mem, ht.spelling⟩, ht.mem_signatureWords_iff_namedInFront,
    fun path' cs' args' id' h' hcategory hsignature => ?_⟩
  obtain ⟨t', ht'⟩ := exists_namedBy_parseText h'
  have hwords : (parseText path' cs' args').signatureWords id' =
      (parseText path cs args).signatureWords id := signatureWords_congr hsignature
  refine ⟨fun hkind => ?_, fun hfront hfront' => ⟨?_, ?_⟩⟩
  · have hhead := ht.head_signatureWords (Category.ofKind_eq_macroDefinition hkind)
    have hhead' := ht'.head_signatureWords
      (Category.ofKind_eq_macroDefinition (hcategory.trans hkind))
    exact Option.some.inj (hhead'.symm.trans ((congrArg List.head? hwords).trans hhead))
  · rw [← hwords]
    exact ht'.mem_signatureWords_iff_namedInFront.2 hfront'
  · rw [hwords]
    exact ht.mem_signatureWords_iff_namedInFront.2 hfront

/-- Two declarations with the same signature, which begins with a macro the second time. -/
def pairText : List Char :=
  "A, b \x7b1\x7d;\n#define A\nA, b \x7b1\x7d;\n".toList

/-- Different names may stand in one signature. -/
theorem signature_named_pair :
    let u := parseText ⟨"pair.h"⟩ pairText []
    u.IsNamed 1 ∧ u.IsNamed 5 ∧ (u.cursor 1).spelling = "A" ∧ (u.cursor 5).spelling = "b" ∧
      u.NamedInFront 1 ∧ u.NamedInFront 5 ∧
      (u.declaration 5).category = (u.declaration 1).category ∧
      (u.declaration 5).signature = (u.declaration 1).signature ∧
      "b" ∈ u.signatureWords 1 ∧ "A" ∈ u.signatureWords 5 := by
  intro u
  have hnames : u.IsNamed 1 ∧ u.IsNamed 5 ∧ (u.cursor 1).spelling = "A" ∧
      (u.cursor 5).spelling = "b" := by
    decide +kernel
  have hfronts : u.NamedInFront 1 ∧ u.NamedInFront 5 := by decide +kernel
  have hslot : (u.declaration 5).category = (u.declaration 1).category ∧
      (u.declaration 5).signature = (u.declaration 1).signature := by
    decide +kernel
  obtain ⟨hnamed, hnamed', hname, hname'⟩ := hnames
  obtain ⟨-, -, hsame⟩ := signature_named ⟨"pair.h"⟩ pairText [] 1 hnamed
  obtain ⟨-, hboth⟩ := hsame ⟨"pair.h"⟩ pairText [] 5 hnamed' hslot.1 hslot.2
  have hwords := hboth hfronts.1 hfronts.2
  rw [hname, hname'] at hwords
  exact ⟨hnamed, hnamed', hname, hname', hfronts.1, hfronts.2, hslot.1, hslot.2, hwords⟩

/-- Variables of types without names. -/
def unnamedTypesText : List Char :=
  ("/// The first.\nstatic struct \x7b int a; \x7d x;\n" ++
    "/// The second.\nstatic struct \x7b int b; \x7d y;\n").toList

/-- Declarations of two names each, behind template heads that hold both. -/
def sameHeadsText : List Char :=
  ("template <class T = X\x7b\x7d> struct T \x7b\x7d;\n" ++
    "template <class T = X\x7b\x7d> struct X \x7b\x7d;\n" ++
    "template <class T = X\x7b\x7d> using T = int;\n" ++
    "template <class T = X\x7b\x7d> using X = int;\n").toList

/-- **A name behind the body is no word of the signature**, so different names are documented under
the same one. Behind equal heads, different names may both be words of the same signature. -/
theorem name_behind_body :
    (let u := parseText ⟨"unnamed.h"⟩ unnamedTypesText []
    let found (ts : List Token) := (u.nextDeclaration (.ofList ts)).toOption.map (·.declaration)
    u.diagnostics = [] ∧
      found (u.tokens.toList.drop 1) = some (some (u.declaration 1)) ∧
      found (u.tokens.toList.drop 11) = some (some (u.declaration 2)) ∧
      ((u.scan ⟨0, 0⟩ ⟨false⟩).result.toOption.map fun f =>
        f.directiveComments.map fun c => (c.context, c.signature)) =
          some [(⟨.variable, "", ""⟩, "static"), (⟨.variable, "", ""⟩, "static")] ∧
      (u.cursor 1).spelling = "x" ∧ (u.cursor 2).spelling = "y" ∧
      u.signatureWords 1 = ["static"] ∧ u.signatureWords 2 = ["static"]) ∧
    let u := parseText ⟨"heads.h"⟩ sameHeadsText []
    let found (id : CursorId) := ((u.declaration id).category, (u.cursor id).spelling)
    [1, 2, 3, 4].map found =
        [(.struct, "T"), (.struct, "X"), (.typeAlias, "T"), (.typeAlias, "X")] ∧
      [1, 2, 3, 4].map u.signature = List.replicate 4 "template <class T = X" := by
  constructor
  · decide +kernel
  · decide +kernel

end SourceUnit

end DocIndex
