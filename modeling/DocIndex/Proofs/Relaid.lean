import DocIndex.Comment.Declaration
import DocIndex.Proofs.Layout.Unit
import DocIndex.Proofs.Window.Reading

/-!
# A text laid out anew

Lines and blanks tell nothing of what a text without preprocessor lines declares. If two texts have
the same lexemes, and the same lexemes touch their neighbours, the texts are read alike: the cursors
are the same ones, reach from the same lexeme to the same lexeme, and have the same signatures.

* `Source.Relaid` — the same lexemes, laid out anew.
* `Outline.ofSource_relaid` — the outline is the same.
* `Source.tokenRange_unitOf` — the tokens of a cursor are told by the lexemes it reaches over.
* `SourceUnit.readAlike_of_relaid` — **a text that is laid out anew is read alike.**
-/

namespace DocIndex

/-- The second source has the lexemes of the first one, with the same ones touching, and none of
them begins a preprocessor line. -/
structure Source.Relaid (s s' : Source) : Prop where
  size : s'.size = s.size
  kind : ∀ i < s.size, s'.kind? i = s.kind? i
  spelling : ∀ i < s.size, s'.spelling i = s.spelling i
  touches : ∀ i < s.size, s'.touchesNext i = s.touchesNext i
  hashless : ∀ i < s.size, s.spelling i ≠ "#"

/-- Two units tell the same of their texts, apart from the places and from the name of the file. -/
structure SourceUnit.ReadAlike (u u' : SourceUnit) : Prop where
  size : u'.cursors.size = u.cursors.size
  kind : ∀ id, (u'.cursor id).kind = (u.cursor id).kind
  parent : ∀ id, (u'.cursor id).parent = (u.cursor id).parent
  spelling : ∀ id, 0 < id → id < u.cursors.size → (u'.cursor id).spelling = (u.cursor id).spelling
  range : ∀ id, u'.tokenRange id = u.tokenRange id
  owners : u'.tokens.map Token.cursor = u.tokens.map Token.cursor
  moduleName : u'.moduleName = u.moduleName
  signature : ∀ id, 0 < id → id < u.cursors.size → u'.signature id = u.signature id
  scopePath : ∀ id, 0 < id → id < u.cursors.size → u'.scopePath id = u.scopePath id

/-! ## The same outline -/

namespace Source

variable {cs cs' : List Char}

/-- Texts with the same lexemes agree from end to end. -/
theorem Relaid.agrees (h : (ofText cs).Relaid (ofText cs')) :
    (ofText cs).Agrees .whole (ofText cs') := by
  have hsize : (ofText cs').lexemes.size = (ofText cs).lexemes.size := h.size
  have hget {i : Nat} (hi : ¬ i < (ofText cs).size) :
      (ofText cs).lexemes[i]? = none ∧ (ofText cs').lexemes[i]? = none := by
    have hle : (ofText cs).lexemes.size ≤ i := Nat.le_of_not_lt hi
    exact ⟨Array.getElem?_eq_none hle, Array.getElem?_eq_none (hsize ▸ hle)⟩
  have hspelling (i : Nat) : (ofText cs').spelling i = (ofText cs).spelling i := by
    by_cases hi : i < (ofText cs).size
    · exact h.spelling i hi
    · rw [Source.spelling, Source.spelling, (hget hi).1, (hget hi).2]
  have hkind (i : Nat) : (ofText cs').kind? i = (ofText cs).kind? i := by
    by_cases hi : i < (ofText cs).size
    · exact h.kind i hi
    · rw [kind?, kind?, (hget hi).1, (hget hi).2]
  have htouches (i : Nat) : (ofText cs').touchesNext i = (ofText cs).touchesNext i := by
    by_cases hi : i < (ofText cs).size
    · exact h.touches i hi
    · rw [touchesNext, touchesNext, (hget hi).1, (hget hi).2]
  exact {
    lt_iff := fun {i} _ _ => by rw [h.size, Window.moved_whole]
    size := fun _ => h.size
    behind_size := .inr rfl
    spelling := fun _ _ => hspelling _
    kind := fun _ _ => hkind _
    touches := fun _ _ => htouches _
    anchored := .inr rfl
    hashless := fun _ i => by
      rw [is, Bool.and_eq_false_iff, decide_eq_false_iff_not, beq_eq_false_iff_ne]
      exact Decidable.or_iff_not_imp_left.2 fun hi => h.hashless i (Decidable.not_not.1 hi)
    lines := fun hw => Bool.noConfusion hw
    continues := fun hw => Bool.noConfusion hw
    word := word_of_isIdentifier }

end Source

namespace Outline

/-- Nothing has been recognised yet in two texts of the same size. -/
theorem start_matches (name name' : String) (size : Nat) :
    (start name size []).Matches .whole (start name' size []) := by
  refine ⟨rfl, fun {id d d'} hd hd' => ?_, fun _ => rfl, rfl, rfl, rfl, fun _ => ⟨rfl, _, rfl, rfl⟩⟩
  obtain rfl : id = 0 := Nat.lt_one_iff.1 (Array.getElem?_eq_some_iff.1 hd).1
  cases (hd : some _ = some d)
  cases (hd' : some _ = some d')
  refine ⟨rfl, fun hid => ?_, rfl, fun _ => rfl, fun _ => rfl⟩
  rcases hid with hid | hid
  · exact Bool.noConfusion hid
  · exact absurd hid (Nat.lt_irrefl 0)

/-- **The same is recognised in a text that is laid out anew**, if no macro is known. -/
theorem ofSource_relaid {cs cs' : List Char} (h : (Source.ofText cs).Relaid (.ofText cs'))
    (name name' : String) :
    (ofSource name [] (.ofText cs)).Matches .whole (ofSource name' [] (.ofText cs')) := by
  have hr : Reading.Matches .whole ⟨start name (Source.ofText cs).size [], [], 0⟩
      ⟨start name' (Source.ofText cs).size [], [], 0⟩ :=
    ⟨start_matches name name' _, .nil, rfl⟩
  rw [ofSource, ofSource, h.size]
  apply readFrom_moved h.agrees hr (.inr rfl) (fun _ => trivial)
  intro r _ _
  exact ⟨fun _ => trivial, fun _ j _ n _ => Nat.zero_le _⟩

/-- The cursors that are recognised are the same ones, but for the name of the file. -/
theorem Matches.getElem?_drafts {o o' : Outline} (h : o.Matches .whole o') {id : CursorId}
    (hid : 0 < id) : o'.drafts[id]? = o.drafts[id]? := by
  cases hd : o.drafts[id]? with
  | none => exact (h.draft_none id).2 hd
  | some d =>
    cases hd' : o'.drafts[id]? with
    | none =>
      rw [(h.draft_none id).1 hd'] at hd
      cases hd
    | some d' =>
      have hdraft := h.draft hd hd'
      congr 1
      cases d
      cases d'
      simp only [Draft.mk.injEq]
      exact ⟨hdraft.kind, hdraft.spelling (.inr hid), hdraft.first rfl, hdraft.last rfl,
        hdraft.parent⟩

end Outline

/-! ## The tokens of a cursor -/

namespace Source

/-- The tokens that a cursor reaches over, from lexeme `first` up to and with lexeme `last`: the
number of the first, and the number behind the last. -/
def rangeOf (size first last : Nat) : Nat × Nat :=
  if first < size ∧ last < size then (first, max first (last + 1)) else (0, size)

variable {s : Source} (hs : s.Ordered) {path : Path} {faults : List (Nat × LexFault)}
  {o : Outline} {id : CursorId} {d : Draft} {c : Cursor}

theorem getElem?_tokens (i : Nat) :
    (s.unitOf path faults o).tokens[i]? = s.lexemes[i]?.map (s.tokenOf o i) :=
  Array.getElem?_mapIdx

/-- As many tokens start in front of an offset as lexemes do. -/
theorem boundary_tokens {n offset : Nat} (hn : n ≤ s.size)
    (hlt : ∀ i t, s.lexemes[i]? = some t → (t.start < offset ↔ i < n)) :
    boundary (fun t => t.extent.start.offset < offset) (s.unitOf path faults o).tokens = n := by
  have hsize : (s.unitOf path faults o).tokens.size = s.size := Array.size_mapIdx
  refine boundaryFrom_eq (fun i t ht => ?_) (Nat.zero_le n) ?_ (Nat.le_of_eq (Nat.zero_add _))
  · rw [getElem?_tokens] at ht
    obtain ⟨a, ha, rfl⟩ := Option.map_eq_some_iff.1 ht
    exact decide_eq_decide.2 (hlt i a ha)
  · rw [hsize, Nat.zero_add]
    exact hn

include hs

/-- All tokens start within the whole text. -/
theorem tokenRange_of_extent
    (hextent : ((s.unitOf path faults o).cursor id).extent = s.extent) :
    (s.unitOf path faults o).tokenRange id = (0, s.size) := by
  have hfirst : boundary (fun t => t.extent.start.offset < s.extent.start.offset)
      (s.unitOf path faults o).tokens = 0 :=
    boundary_tokens (Nat.zero_le _) fun i t _ =>
      iff_of_false (Nat.not_lt_zero _) (Nat.not_lt_zero _)
  have hlast : boundary (fun t => t.extent.start.offset < s.extent.stop.offset)
      (s.unitOf path faults o).tokens = s.size :=
    boundary_tokens (Nat.le_refl _) fun i t ht => by
      have hstop := hs.lt_stop ht
      exact iff_of_true (Nat.lt_of_lt_of_le hstop.1 hstop.2) (Array.getElem?_eq_some_iff.1 ht).1
  rw [SourceUnit.tokenRange, hextent]
  simp only [hfirst, hlast, Nat.zero_max]

/-- **The tokens of a cursor are told by the lexemes that it reaches over.** -/
theorem tokenRange_unitOf
    (hextent : ((s.unitOf path faults o).cursor id).extent = s.extentOf d.first d.last) :
    (s.unitOf path faults o).tokenRange id = rangeOf s.size d.first d.last := by
  unfold rangeOf
  split
  case isFalse hout =>
    refine tokenRange_of_extent hs (hextent.trans ?_)
    rcases Ordered.extentOf_cases s d.first d.last with heq | ⟨a, b, ha, hb, -⟩
    · exact heq
    · exact absurd ⟨(Array.getElem?_eq_some_iff.1 ha).1, (Array.getElem?_eq_some_iff.1 hb).1⟩ hout
  case isTrue hin =>
    obtain ⟨a, ha⟩ : ∃ a, s.lexemes[d.first]? = some a := ⟨_, Array.getElem?_eq_getElem hin.1⟩
    obtain ⟨b, hb⟩ : ∃ b, s.lexemes[d.last]? = some b := ⟨_, Array.getElem?_eq_getElem hin.2⟩
    have hextent : ((s.unitOf path faults o).cursor id).extent =
        ⟨s.lines.place a.start, s.lines.place b.stop⟩ := by
      rw [hextent, extentOf, ha, hb]
    have hfirst : boundary (fun t => t.extent.start.offset < a.start)
        (s.unitOf path faults o).tokens = d.first := by
      refine boundary_tokens (Nat.le_of_lt hin.1) fun i t ht => ⟨fun hlt => ?_, fun hlt => ?_⟩
      · exact Nat.lt_of_not_le fun hle => Nat.not_le_of_lt hlt (hs.start_le hle ha ht).1
      · exact Nat.lt_of_lt_of_le (hs.lt_stop ht).1 (hs.stop_le hlt ht ha)
    have hlast : boundary (fun t => t.extent.start.offset < b.stop)
        (s.unitOf path faults o).tokens = d.last + 1 := by
      refine boundary_tokens hin.2 fun i t ht => ⟨fun hlt => ?_, fun hlt => ?_⟩
      · exact Nat.lt_of_not_le fun hle => Nat.not_le_of_lt hlt (hs.stop_le hle hb ht)
      · exact Nat.lt_of_lt_of_le (hs.lt_stop ht).1 (hs.start_le (Nat.le_of_lt_succ hlt) ht hb).2
    rw [SourceUnit.tokenRange, hextent]
    exact congrArg₂ (fun first last => (first, max first last)) hfirst hlast

/-- Two tokens touch if they are neighbours and their lexemes touch. -/
theorem touches_tokens {i j : Nat} {t v : Token}
    (ht : (s.unitOf path faults o).tokens[i]? = some t)
    (hv : (s.unitOf path faults o).tokens[j]? = some v) :
    t.touches v = (decide (j = i + 1) && s.touchesNext i) := by
  rw [getElem?_tokens, Option.map_eq_some_iff] at ht hv
  obtain ⟨a, ha, rfl⟩ := ht
  obtain ⟨b, hb, rfl⟩ := hv
  have htouches : (s.tokenOf o i a).touches (s.tokenOf o j b) = (a.stop == b.start) := rfl
  rw [htouches]
  rcases Nat.lt_trichotomy j (i + 1) with hlt | rfl | hlt
  · -- a token that is no further back does not start behind
    have hle := (hs.start_le (Nat.le_of_lt_succ hlt) hb ha).1
    have hstop := (hs.lt_stop ha).1
    rw [decide_eq_false (Nat.ne_of_lt hlt), Bool.false_and, beq_eq_false_iff_ne]
    omega
  · rw [decide_eq_true rfl, Bool.true_and, touchesNext, ha, hb]
  · -- between the two stands another one
    have hnext : i + 1 < s.lexemes.size := Nat.lt_trans hlt (Array.getElem?_eq_some_iff.1 hb).1
    have hmid : s.lexemes[i + 1]? = some s.lexemes[i + 1] := Array.getElem?_eq_getElem hnext
    have hle := hs.stop_le (Nat.lt_succ_self i) ha hmid
    have hle' := hs.stop_le hlt hmid hb
    have hstop := (hs.lt_stop hmid).1
    rw [decide_eq_false (Nat.ne_of_gt hlt), Bool.false_and, beq_eq_false_iff_ne]
    omega

end Source

/-! ## Signatures of tokens that are alike -/

/-- Related tokens are spelled alike, and touch the same ones. -/
structure TokensAlike (R : Token → Token → Prop) : Prop where
  kind : ∀ {t t'}, R t t' → t'.kind = t.kind
  spelling : ∀ {t t'}, R t t' → t'.spelling = t.spelling
  touches : ∀ {t t' v v'}, R t t' → R v v' → t'.touches v' = t.touches v

namespace TokensAlike

variable {R : Token → Token → Prop} (h : TokensAlike R) {ts ts' : List Token}
  (hts : List.Forall₂ R ts ts')
include h hts

theorem textOfTokens_eq : textOfTokens ts' = textOfTokens ts := by
  induction hts with
  | nil => rfl
  | cons ht hts ih =>
    cases hts with
    | nil => exact h.spelling ht
    | cons hv hts => rw [textOfTokens, textOfTokens, h.spelling ht, h.touches ht hv, ih]

theorem headFrom_alike (brackets angles : Nat) (previous : Option String) :
    List.Forall₂ R (headFrom brackets angles previous ts)
      (headFrom brackets angles previous ts') := by
  induction hts generalizing brackets angles previous with
  | nil => exact .nil
  | @cons t t' ts ts' ht hts ih =>
    have hbrackets : t'.bracketsAfter brackets = t.bracketsAfter brackets := by
      simp only [Token.bracketsAfter, h.spelling ht]
    have hangles : t'.anglesAfter angles previous = t.anglesAfter angles previous := by
      simp only [Token.anglesAfter, h.spelling ht]
    rw [headFrom, headFrom]
    simp only [hbrackets, hangles, h.kind ht, h.spelling ht]
    split
    · exact ih ..
    split
    · exact .nil
    split
    · exact ih ..
    · exact .cons ht (ih ..)

theorem throughParen_alike : List.Forall₂ R (throughParen ts) (throughParen ts') := by
  induction hts with
  | nil => exact .nil
  | cons ht hts ih =>
    rw [throughParen, throughParen, h.spelling ht]
    split
    · exact .cons ht .nil
    · exact .cons ht ih

theorem macroHeadTokens_alike : List.Forall₂ R (macroHeadTokens ts) (macroHeadTokens ts') := by
  cases hts with
  | nil => exact .nil
  | cons ht hts =>
    cases hts with
    | nil => exact .cons ht .nil
    | cons hv hts =>
      rw [macroHeadTokens, macroHeadTokens, h.spelling hv, h.touches ht hv]
      split
      · exact .cons ht (h.throughParen_alike (.cons hv hts))
      · exact .cons ht .nil

end TokensAlike

namespace SourceUnit

variable {u u' : SourceUnit} {id : CursorId}

/-- The tokens have the same number in the one unit and in the other. -/
def Numbered (u u' : SourceUnit) (t t' : Token) : Prop :=
  ∃ i : Nat, u.tokens[i]? = some t ∧ u'.tokens[i]? = some t'

/-- Cursors with the same tokens have them in the same order. -/
theorem tokensOf_alike (hsize : u'.tokens.size = u.tokens.size)
    (hrange : u'.tokenRange id = u.tokenRange id) :
    List.Forall₂ (u.Numbered u') (u.tokensOf id) (u'.tokensOf id) := by
  rw [tokensOf, tokensOf, hrange]
  generalize (u.tokenRange id).1 = first
  generalize (u.tokenRange id).2 = last
  refine List.forall₂_iff_get.2 ⟨by simp [hsize], fun i hi hi' => ⟨first + i, ?_, ?_⟩⟩ <;>
    simp

/-- Cursors with tokens that are alike have the same signature. -/
theorem signature_alike (hsize : u'.tokens.size = u.tokens.size)
    (hrange : u'.tokenRange id = u.tokenRange id) (h : TokensAlike (u.Numbered u'))
    (hkind : (u'.cursor id).kind = (u.cursor id).kind)
    (hspelling : (u'.cursor id).spelling = (u.cursor id).spelling) :
    u'.signature id = u.signature id := by
  have htokens := tokensOf_alike hsize hrange
  have hkept : List.Forall₂ (u.Numbered u') (u.keptTokens id) (u'.keptTokens id) := by
    rw [keptTokens, keptTokens, hkind]
    split
    · exact h.macroHeadTokens_alike htokens
    · exact h.headFrom_alike htokens 0 0 none
  have hempty : (u'.keptTokens id).isEmpty = (u.keptTokens id).isEmpty := by
    rw [Bool.eq_iff_iff, List.isEmpty_iff_length_eq_zero, List.isEmpty_iff_length_eq_zero,
      hkept.length_eq]
  rw [signature, signature, hempty, hspelling, h.textOfTokens_eq hkept]

/-- Where the parents are the same, so is the way out. -/
theorem scopes_congr (hsize : u'.cursors.size = u.cursors.size)
    (hparent : ∀ id, (u'.cursor id).parent = (u.cursor id).parent) :
    u'.scopes id = u.scopes id := by
  have hwithin (n : Nat) (id : CursorId) : u'.scopesWithin n id = u.scopesWithin n id := by
    induction n generalizing id with
    | zero => rfl
    | succ n ih =>
      simp only [scopesWithin, hparent, ih]
  rw [scopes, scopes, hsize, hwithin]

end SourceUnit

/-! ## Units that are read alike -/

namespace Source

variable {s s' : Source} {path path' : Path} {faults faults' : List (Nat × LexFault)}
  {o o' : Outline} {id : CursorId}

/-- A number belongs to a draft, or stands for the file itself. -/
theorem cursor_cases (s : Source) (path : Path) (faults : List (Nat × LexFault))
    (hroot : 0 < o.drafts.size) (id : CursorId) :
    (∃ d, 0 < id ∧ o.drafts[id]? = some d ∧ (s.unitOf path faults o).cursor id = s.cursorOf d) ∨
      (¬ (0 < id ∧ id < o.drafts.size) ∧ ∃ d, o.drafts[0]? = some d ∧
        (s.unitOf path faults o).cursor id = { s.cursorOf d with extent := s.extent }) := by
  by_cases hid : 0 < id ∧ id < o.drafts.size
  · obtain ⟨d, hd⟩ : ∃ d, o.drafts[id]? = some d := ⟨_, Array.getElem?_eq_getElem hid.2⟩
    exact .inl ⟨d, hid.1, hd, Printed.cursor_eq hd hid.1⟩
  · obtain ⟨d, hd⟩ : ∃ d, o.drafts[0]? = some d := ⟨_, Array.getElem?_eq_getElem hroot⟩
    refine .inr ⟨hid, d, hd, ?_⟩
    have hzero : (s.unitOf path faults o).cursor id = (s.unitOf path faults o).cursor 0 := by
      rcases Nat.eq_zero_or_pos id with rfl | hpos
      · rfl
      · refine SourceUnit.cursor_of_size_le ?_
        rw [Printed.size_cursors]
        exact Nat.le_of_not_lt fun hlt => hid ⟨hpos, hlt⟩
    rw [hzero]
    simp only [SourceUnit.cursor, unitOf, cursorsOf, Array.getD_eq_getD_getElem?,
      Array.getElem?_mapIdx, hd, Option.map_some, Option.getD_some, if_pos]

/-- Cursors of outlines that match come of the same draft, or are the files themselves. -/
theorem cursors_matching (ho : o.Matches .whole o') (id : CursorId) :
    (∃ d, (s.unitOf path faults o).cursor id = s.cursorOf d ∧
        (s'.unitOf path' faults' o').cursor id = s'.cursorOf d) ∨
      (¬ (0 < id ∧ id < o.drafts.size) ∧ ∃ d d', d.Matches .whole 0 d' ∧
        (s.unitOf path faults o).cursor id = { s.cursorOf d with extent := s.extent } ∧
        (s'.unitOf path' faults' o').cursor id = { s'.cursorOf d' with extent := s'.extent }) := by
  obtain ⟨-, root, hroot, -⟩ := ho.plain rfl
  have hsize : 0 < o.drafts.size := (Array.getElem?_eq_some_iff.1 hroot).1
  have hsize' : 0 < o'.drafts.size := ho.size ▸ hsize
  rcases cursor_cases s path faults hsize id with
    ⟨d, hpos, hd, heq⟩ | ⟨hid, d, hd, heq⟩
  · exact .inl ⟨d, heq, Printed.cursor_eq ((ho.getElem?_drafts hpos).trans hd) hpos⟩
  · rcases cursor_cases s' path' faults' hsize' id with
      ⟨d', hpos, hd', -⟩ | ⟨-, d', hd', heq'⟩
    · rw [ho.getElem?_drafts hpos] at hd'
      exact absurd ⟨hpos, (Array.getElem?_eq_some_iff.1 hd').1⟩ hid
    · exact .inr ⟨hid, d, d', ho.draft hd hd', heq, heq'⟩

/-- Tokens with the same number are alike. -/
theorem tokensAlike_unitOf (hs : s.Ordered) (hs' : s'.Ordered) (h : s.Agrees .whole s') :
    TokensAlike ((s.unitOf path faults o).Numbered (s'.unitOf path' faults' o')) := by
  constructor
  · rintro t t' ⟨i, ht, ht'⟩
    rw [getElem?_tokens, Option.map_eq_some_iff] at ht ht'
    obtain ⟨a, ha, rfl⟩ := ht
    obtain ⟨a', ha', rfl⟩ := ht'
    have hkind := h.kind (Nat.zero_le i) trivial
    rw [Window.moved_whole, kind?, kind?, ha, ha'] at hkind
    exact Option.some.inj hkind
  · rintro t t' ⟨i, ht, ht'⟩
    rw [getElem?_tokens, Option.map_eq_some_iff] at ht ht'
    obtain ⟨a, ha, rfl⟩ := ht
    obtain ⟨a', ha', rfl⟩ := ht'
    have hspelling := h.spelling (Nat.zero_le i) trivial
    rw [Window.moved_whole, Source.spelling, Source.spelling, ha, ha'] at hspelling
    exact hspelling
  · rintro t t' v v' ⟨i, ht, ht'⟩ ⟨j, hv, hv'⟩
    rw [touches_tokens hs ht hv, touches_tokens hs' ht' hv']
    exact congrArg _ (h.touches (Nat.zero_le i) trivial)

/-- The owners of the tokens are the same. -/
theorem owners_unitOf (hsize : s'.size = s.size) (ho : o.Matches .whole o') :
    (s'.unitOf path' faults' o').tokens.map Token.cursor =
      (s.unitOf path faults o).tokens.map Token.cursor := by
  have howner {s : Source} {path : Path} {faults : List (Nat × LexFault)} {o : Outline} (i : Nat) :
      ((s.unitOf path faults o).tokens.map Token.cursor)[i]? =
        if i < s.size then some ((o.owners.getD i none).getD 0) else none := by
    rw [Array.getElem?_map, getElem?_tokens]
    split
    · have ha : s.lexemes[i]? = some _ := Array.getElem?_eq_getElem ‹i < s.size›
      rw [ha]
      rfl
    · have ha : s.lexemes[i]? = none := Array.getElem?_eq_none (Nat.le_of_not_lt ‹_›)
      rw [ha]
      rfl
  refine Array.ext_getElem? fun i => ?_
  rw [howner, howner, hsize, ho.owners rfl]

/-- Outlines that match within the whole text come to units that are read alike. -/
theorem readAlike_unitOf (hs : s.Ordered) (hs' : s'.Ordered) (h : s.Agrees .whole s')
    (ho : o.Matches .whole o') (hu : (s.unitOf path faults o).WellFormed) :
    (s.unitOf path faults o).ReadAlike (s'.unitOf path' faults' o') := by
  have hsize : s'.size = s.size := h.size trivial
  have hcursors : (s'.unitOf path' faults' o').cursors.size =
      (s.unitOf path faults o).cursors.size := by
    rw [Printed.size_cursors, Printed.size_cursors, ho.size]
  have htokens : (s'.unitOf path' faults' o').tokens.size =
      (s.unitOf path faults o).tokens.size := by
    rw [unitOf, unitOf, Array.size_mapIdx, Array.size_mapIdx]
    exact hsize
  have hkind (id : CursorId) : ((s'.unitOf path' faults' o').cursor id).kind =
      ((s.unitOf path faults o).cursor id).kind := by
    rcases cursors_matching ho id with ⟨d, heq, heq'⟩ | ⟨-, d, d', hd, heq, heq'⟩ <;> rw [heq, heq']
    · rfl
    · exact hd.kind
  have hparent (id : CursorId) : ((s'.unitOf path' faults' o').cursor id).parent =
      ((s.unitOf path faults o).cursor id).parent := by
    rcases cursors_matching ho id with ⟨d, heq, heq'⟩ | ⟨-, d, d', hd, heq, heq'⟩ <;> rw [heq, heq']
    · rfl
    · exact hd.parent
  have hspelling (id : CursorId) (hpos : 0 < id)
      (hlt : id < (s.unitOf path faults o).cursors.size) :
      ((s'.unitOf path' faults' o').cursor id).spelling =
        ((s.unitOf path faults o).cursor id).spelling := by
    rw [Printed.size_cursors] at hlt
    rcases cursors_matching ho id with ⟨d, heq, heq'⟩ | ⟨hid, -⟩
    · rw [heq, heq']
      rfl
    · exact absurd ⟨hpos, hlt⟩ hid
  have hrange (id : CursorId) : (s'.unitOf path' faults' o').tokenRange id =
      (s.unitOf path faults o).tokenRange id := by
    rcases cursors_matching ho id with ⟨d, heq, heq'⟩ | ⟨-, d, d', -, heq, heq'⟩
    · rw [tokenRange_unitOf hs (congrArg Cursor.extent heq),
        tokenRange_unitOf hs' (congrArg Cursor.extent heq'), hsize]
    · rw [tokenRange_of_extent hs (congrArg Cursor.extent heq),
        tokenRange_of_extent hs' (congrArg Cursor.extent heq'), hsize]
  refine ⟨hcursors, hkind, hparent, hspelling, hrange, owners_unitOf hsize ho, ho.moduleName,
    fun id hpos hlt => ?_, fun id _ hlt => ?_⟩
  · exact SourceUnit.signature_alike htokens (hrange id) (tokensAlike_unitOf hs hs' h) (hkind id)
      (hspelling id hpos hlt)
  · -- the scopes around are cursors in front, and none of them is the file
    obtain ⟨hdesc, hnone⟩ := hu.outward id
    have hnames : (((s.unitOf path faults o).scopes id).map fun n =>
        ((s'.unitOf path' faults' o').cursor n).spelling) =
        ((s.unitOf path faults o).scopes id).map fun n =>
          ((s.unitOf path faults o).cursor n).spelling := by
      refine List.map_congr_left fun n hn => hspelling n ?_ ?_
      · exact Nat.pos_of_ne_zero fun hzero => hnone (hzero ▸ hn)
      · exact Nat.lt_trans ((List.pairwise_cons.1 hdesc).1 n hn) hlt
    rw [SourceUnit.scopePath, SourceUnit.scopePath, SourceUnit.scopes_congr hcursors hparent,
      hnames]

end Source

/-- **A text that is laid out anew is read alike**, if no macro is known: its cursors are the same
ones and reach over the same lexemes, its tokens have the same owners, and its declarations have the
same signatures and the same scopes around them. -/
theorem SourceUnit.readAlike_of_relaid {cs cs' : List Char} {args args' : List String}
    (h : (Source.ofText cs).Relaid (.ofText cs')) (hargs : Macros.ofArguments args = [])
    (hargs' : Macros.ofArguments args' = []) (path path' : Path) :
    (parseText path cs args).ReadAlike (parseText path' cs' args') ∧
      ∀ id, 0 < id → (Outline.ofSource path'.text [] (.ofText cs')).drafts[id]? =
        (Outline.ofSource path.text [] (.ofText cs)).drafts[id]? := by
  have ho := Outline.ofSource_relaid h path.text path'.text
  have hu := wellFormed_parseText path cs args
  refine ⟨?_, fun id hid => ho.getElem?_drafts hid⟩
  rw [parseText, hargs] at hu ⊢
  rw [parseText, hargs']
  exact Source.readAlike_unitOf (Source.ordered_ofText cs) (Source.ordered_ofText cs') h.agrees ho
    hu

/-- The lines of a namespace, broken elsewhere. -/
theorem SourceUnit.readAlike_broken_lines :
    (Source.ofText "namespace n \x7b\n  int f(int x);\n\x7d\n".toList).Relaid
        (.ofText "namespace\nn\n\x7b int\tf(int\n    x); \x7d".toList) ∧
      (parseText ⟨"n.h"⟩ "namespace n \x7b\n  int f(int x);\n\x7d\n".toList []).ReadAlike
        (parseText ⟨"m.h"⟩ "namespace\nn\n\x7b int\tf(int\n    x); \x7d".toList ["-Iinclude"]) := by
  have h : (Source.ofText "namespace n \x7b\n  int f(int x);\n\x7d\n".toList).Relaid
      (.ofText "namespace\nn\n\x7b int\tf(int\n    x); \x7d".toList) :=
    ⟨by decide +kernel, by decide +kernel, by decide +kernel, by decide +kernel, by decide +kernel⟩
  exact ⟨h, (SourceUnit.readAlike_of_relaid h rfl (by decide +kernel) ⟨"n.h"⟩ ⟨"m.h"⟩).1⟩

end DocIndex
