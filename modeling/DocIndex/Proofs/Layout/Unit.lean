import DocIndex.Proofs.Layout.Reading
import DocIndex.Proofs.Printed.Unit
import DocIndex.Proofs.Source.Stretches

/-!
# Source units are well formed

The tokens of a source unit stand one behind the other, its cursors are nested or apart, a token
stands within the cursor that owns it, and the way out of a cursor ends before the file itself. All
that is read off from the outline, which is laid out (`Outline.laid_ofSource`), and from the
lexemes, which are cut off the text one by one.

* `Source.Ordered` — the lexemes stand one behind the other.
* `SourceUnit.WellFormed` — what the readers of a unit rely on.
* `wellFormed_parseText` — **every text is read as a well-formed unit.**
-/

namespace DocIndex

/-! ## Lexemes in order -/

/-- The lexemes of a source stand one behind the other, within the text. -/
structure Source.Ordered (s : Source) : Prop where
  nonempty : ∀ t ∈ s.lexemes.toList, t.start < t.stop ∧ t.stop ≤ s.length
  apart : s.lexemes.toList.Pairwise fun t u => t.stop ≤ u.start

namespace Lexed

open Lexer

variable {offset : Nat} {gap : List Char} {ss : List Stretch}

theorem stop_of_mem {t : Lexeme} (ht : t ∈ (ofStretches offset gap ss).lexemes) :
    offset ≤ t.start ∧ t.stop ≤ offset + byteLength (chars ss) := by
  obtain ⟨-, front, back, hchars, hstart⟩ := placed_of_mem ht
  have hsize : t.spelling.utf8ByteSize = byteLength t.spelling.toList := by
    rw [← utf8ByteSize_ofList, String.ofList_toList]
  rw [hchars, byteLength_append, byteLength_append, Lexeme.stop, hsize]
  omega

theorem lt_stop_of_mem (hss : ∀ x ∈ ss, x.text ≠ []) {t : Lexeme}
    (ht : t ∈ (ofStretches offset gap ss).lexemes) : t.start < t.stop := by
  obtain ⟨⟨x, hx, -, hspelling⟩, -⟩ := placed_of_mem ht
  have hpos := byteLength_pos (hss x hx)
  rw [Lexeme.stop, hspelling, utf8ByteSize_ofList]
  omega

theorem apart_ofStretches :
    (ofStretches offset gap ss).lexemes.Pairwise fun t u => t.stop ≤ u.start := by
  induction ss generalizing offset gap with
  | nil => exact List.Pairwise.nil
  | cons x ss ih =>
    cases hx : x.isLexeme with
    | false =>
      rw [lexemes_of_not_isLexeme hx]
      exact ih
    | true =>
      obtain ⟨kind, hkind⟩ := role_of_isLexeme hx
      rw [lexemes_of_role hkind]
      refine List.pairwise_cons.2 ⟨fun u hu => ?_, ih⟩
      have hstart := (stop_of_mem hu).1
      rw [Lexeme.stop, utf8ByteSize_ofList]
      exact hstart

end Lexed

/-- The lexemes of a text are cut off it one by one. -/
theorem Source.ordered_ofText (cs : List Char) : (Source.ofText cs).Ordered := by
  constructor
  · intro t ht
    have hne (x : Stretch) (hx : x ∈ Lexer.stretches cs) : x.text ≠ [] := by
      obtain ⟨c, ds, -, htext, -⟩ := Lexer.front_of_mem_stretches hx
      rw [htext]
      exact List.cons_ne_nil c ds
    have hstop := (Lexed.stop_of_mem ht).2
    rw [Lexer.chars_stretches, Nat.zero_add] at hstop
    exact ⟨Lexed.lt_stop_of_mem hne ht, hstop⟩
  · exact Lexed.apart_ofStretches

namespace Source.Ordered

variable {s : Source} (h : s.Ordered) {i j : Nat} {t u : Lexeme}
include h

theorem lt_stop (ht : s.lexemes[i]? = some t) : t.start < t.stop ∧ t.stop ≤ s.length :=
  h.nonempty t (Array.mem_toList_iff.2 (Array.mem_of_getElem? ht))

theorem stop_le (hij : i < j) (ht : s.lexemes[i]? = some t) (hu : s.lexemes[j]? = some u) :
    t.stop ≤ u.start := by
  obtain ⟨hi, rfl⟩ := Array.getElem?_eq_some_iff.1 ht
  obtain ⟨hj, rfl⟩ := Array.getElem?_eq_some_iff.1 hu
  have hpair := List.pairwise_iff_getElem.1 h.apart i j (by simpa using hi) (by simpa using hj) hij
  simpa using hpair

theorem start_le (hij : i ≤ j) (ht : s.lexemes[i]? = some t) (hu : s.lexemes[j]? = some u) :
    t.start ≤ u.start ∧ t.stop ≤ u.stop := by
  rcases Nat.lt_or_eq_of_le hij with hlt | rfl
  · have hle := h.stop_le hlt ht hu
    have ht := h.lt_stop ht
    have hu := h.lt_stop hu
    omega
  · obtain rfl : t = u := Option.some.inj (ht.symm.trans hu)
    exact ⟨Nat.le_refl _, Nat.le_refl _⟩

end Source.Ordered

/-! ## Extents -/

namespace Extent

/-- One stretch of text holds another. -/
def Encloses (a b : Extent) : Prop :=
  a.start.offset ≤ b.start.offset ∧ b.stop.offset ≤ a.stop.offset

/-- One stretch of text ends before another begins. -/
def Precedes (a b : Extent) : Prop :=
  a.stop.offset ≤ b.start.offset

/-- One of two stretches of text holds the other, or they are disjoint. -/
def NestedOrDisjoint (a b : Extent) : Prop :=
  a.Encloses b ∨ b.Encloses a ∨ a.Precedes b ∨ b.Precedes a

end Extent

namespace Source.Ordered

variable {s : Source} (h : s.Ordered) {d e : Draft} {i : Nat} {t : Lexeme}
include h

theorem encloses_extent (first last : Nat) : s.extent.Encloses (s.extentOf first last) := by
  unfold extentOf
  split
  · rename_i a b ha hb
    exact ⟨Nat.zero_le _, (h.lt_stop hb).2⟩
  · exact ⟨Nat.le_refl _, Nat.le_refl _⟩

omit h in
/-- A cursor reaches over the whole text, or from one lexeme to another. -/
theorem extentOf_cases (s : Source) (first last : Nat) :
    s.extentOf first last = s.extent ∨
      ∃ a b, s.lexemes[first]? = some a ∧ s.lexemes[last]? = some b ∧
        s.extentOf first last = ⟨s.lines.place a.start, s.lines.place b.stop⟩ := by
  unfold extentOf
  split
  · rename_i a b ha hb
    exact .inr ⟨a, b, ha, hb, rfl⟩
  · exact .inl rfl

/-- A lexeme between the first one and the last one of a cursor stands within it. -/
theorem encloses_lexeme {first last : Nat} (ht : s.lexemes[i]? = some t) (hfirst : first ≤ i)
    (hlast : i ≤ last) :
    (s.extentOf first last).Encloses ⟨s.lines.place t.start, s.lines.place t.stop⟩ := by
  rcases extentOf_cases s first last with heq | ⟨a, b, ha, hb, heq⟩
  · rw [heq]
    exact ⟨Nat.zero_le _, (h.lt_stop ht).2⟩
  · rw [heq]
    exact ⟨(h.start_le hfirst ha ht).1, (h.start_le hlast ht hb).2⟩

/-- The lexeme behind the last one of a cursor stands behind the cursor, and directly so, unless the
cursor reaches over the whole text. -/
theorem precedes_lexeme {first last : Nat} (ht : s.lexemes[last + 1]? = some t)
    (hfirst : first ≤ last + 1) :
    (s.extentOf first last).Encloses ⟨s.lines.place t.start, s.lines.place t.stop⟩ ∨
      (s.extentOf first last).Precedes ⟨s.lines.place t.start, s.lines.place t.stop⟩ ∧
        (s.extentOf first last).start.offset ≤ t.start ∧
        ∀ (j : Nat) (u : Lexeme), s.lexemes[j]? = some u → u.stop ≤ t.start →
          u.stop ≤ (s.extentOf first last).stop.offset := by
  rcases extentOf_cases s first last with heq | ⟨a, b, ha, hb, heq⟩
  · rw [heq]
    exact .inl ⟨Nat.zero_le _, (h.lt_stop ht).2⟩
  · rw [heq]
    refine .inr ⟨h.stop_le (Nat.lt_succ_self last) hb ht, (h.start_le hfirst ha ht).1, ?_⟩
    intro j u hu hstop
    by_cases hj : j ≤ last
    · exact (h.start_le hj hu hb).2
    · -- from the lexeme behind on, nothing ends in front of where that begins
      have hle := (h.start_le (Nat.lt_of_not_le hj) ht hu).1
      have hlt := (h.lt_stop hu).1
      omega

/-- Cursors that fit each other have extents that are nested or disjoint. -/
theorem nestedOrDisjoint (hfits : d.Fits s.size e) :
    (s.extentOf d.first d.last).NestedOrDisjoint (s.extentOf e.first e.last) := by
  rcases extentOf_cases s d.first d.last with hd | ⟨a, b, ha, hb, hd⟩
  · rw [hd]
    exact .inl (h.encloses_extent _ _)
  rcases extentOf_cases s e.first e.last with he | ⟨a', b', ha', hb', he⟩
  · rw [he]
    exact .inr (.inl (h.encloses_extent _ _))
  have hlast : d.last < s.size := (Array.getElem?_eq_some_iff.1 hb).1
  have hlast' : e.last < s.size := (Array.getElem?_eq_some_iff.1 hb').1
  rw [hd, he]
  rcases hfits with hge | hge | hlt | hlt | ⟨hfirst, hle⟩ | ⟨hfirst, hle⟩
  · omega
  · omega
  · exact .inr (.inr (.inl (h.stop_le hlt hb ha')))
  · exact .inr (.inr (.inr (h.stop_le hlt hb' ha)))
  · exact .inl ⟨(h.start_le hfirst ha ha').1, (h.start_le hle hb' hb).2⟩
  · exact .inr (.inl ⟨(h.start_le hfirst ha' ha).1, (h.start_le hle hb hb').2⟩)

end Source.Ordered

/-! ## Units -/

/-- What the readers of a unit rely on. -/
structure SourceUnit.WellFormed (u : SourceUnit) : Prop where
  /-- The tokens are in strict order and do not overlap. -/
  tokens : Apart u.tokens.toList
  /-- All cursors but the first have a parent in front of them. -/
  parents : ∀ (id : CursorId) (c : Cursor), 0 < id → u.cursors[id]? = some c →
    ∃ p, c.parent = some p ∧ p < id
  /-- The way out of a cursor goes from parent to parent until it comes to the file itself. -/
  way : ∀ id, u.scopes id =
    match (u.cursor id).parent with
    | none => []
    | some p => if p = 0 then [] else p :: u.scopes p
  /-- It comes by smaller and smaller numbers, and never by the file. -/
  outward : ∀ id, (id :: u.scopes id).Pairwise (fun a b => b < a) ∧ 0 ∉ u.scopes id
  /-- The owner of a token exists. -/
  owners : ∀ t ∈ u.tokens, t.cursor < u.cursors.size
  /-- A token begins within its owner, unless that is the file, and ends within it. Only the `;`
  directly behind the call of a macro belongs to the call and stands outside. -/
  within : ∀ t ∈ u.tokens, 0 < t.cursor →
    (u.cursor t.cursor).extent.Encloses t.extent ∨
      (u.cursor t.cursor).kind = .macroInstantiation ∧ t.spelling = ";" ∧
        (u.cursor t.cursor).extent.Precedes t.extent ∧
        (u.cursor t.cursor).extent.start.offset ≤ t.extent.start.offset ∧
        ∀ v ∈ u.tokens, v.extent.Precedes t.extent →
          v.extent.stop.offset ≤ (u.cursor t.cursor).extent.stop.offset
  /-- The cursors are nested or disjoint. -/
  cursors : ∀ a ∈ u.cursors, ∀ b ∈ u.cursors, a.extent.NestedOrDisjoint b.extent

/-! ## The way out -/

namespace SourceUnit

variable {u : SourceUnit}
  (hu : ∀ (id p : CursorId), (u.cursor id).parent = some p → p < id)

theorem cursor_of_size_le {id : CursorId} (h : u.cursors.size ≤ id) : u.cursor id = u.cursor 0 := by
  unfold cursor
  simp only [Array.getD_eq_getD_getElem?, Array.getElem?_eq_none h, Option.getD_none]
  cases u.cursors[0]? <;> rfl

include hu

/-- The way out is as long as it is, however many steps are allowed for it. -/
theorem scopesWithin_congr {n m : Nat} {id : CursorId} (hn : id ≤ n) (hm : id ≤ m) :
    u.scopesWithin n id = u.scopesWithin m id := by
  induction id using Nat.strongRecOn generalizing n m with
  | ind id ih =>
    cases hparent : (u.cursor id).parent with
    | none =>
      cases n <;> cases m <;> simp only [scopesWithin, hparent]
    | some p =>
      have hlt : p < id := hu id p hparent
      have hpn : p < n := Nat.lt_of_lt_of_le hlt hn
      have hpm : p < m := Nat.lt_of_lt_of_le hlt hm
      obtain ⟨n, rfl⟩ := Nat.exists_eq_add_one_of_ne_zero (Nat.ne_zero_of_lt hpn)
      obtain ⟨m, rfl⟩ := Nat.exists_eq_add_one_of_ne_zero (Nat.ne_zero_of_lt hpm)
      simp only [scopesWithin, hparent]
      rw [ih p hlt (Nat.le_of_lt_succ hpn) (Nat.le_of_lt_succ hpm)]

theorem scopes_eq (id : CursorId) :
    u.scopes id =
      match (u.cursor id).parent with
      | none => []
      | some p => if p = 0 then [] else p :: u.scopes p := by
  by_cases hle : id ≤ u.cursors.size
  · have hsucc : u.scopes id = u.scopesWithin (u.cursors.size + 1) id :=
      scopesWithin_congr hu hle (Nat.le_succ_of_le hle)
    rw [hsucc]
    rfl
  · -- a number that is no cursor's stands for the file
    have hnone : (u.cursor id).parent = none := by
      rw [cursor_of_size_le (Nat.le_of_not_le hle)]
      cases hparent : (u.cursor 0).parent with
      | none => rfl
      | some p => exact absurd (hu 0 p hparent) (Nat.not_lt_zero p)
    rw [hnone, scopes]
    cases u.cursors.size <;> simp only [scopesWithin, hnone]

theorem scopesWithin_descends (n : Nat) (id : CursorId) :
    (id :: u.scopesWithin n id).Pairwise (fun a b => b < a) ∧ 0 ∉ u.scopesWithin n id := by
  induction n generalizing id with
  | zero => exact ⟨List.pairwise_singleton _ _, List.not_mem_nil⟩
  | succ n ih =>
    rw [scopesWithin]
    split
    · exact ⟨List.pairwise_singleton _ _, List.not_mem_nil⟩
    · rename_i p hparent
      have hlt : p < id := hu id p hparent
      obtain ⟨hdesc, hzero⟩ := ih p
      split
      · exact ⟨List.pairwise_singleton _ _, List.not_mem_nil⟩
      · rename_i hne
        refine ⟨List.pairwise_cons.2 ⟨fun q hq => ?_, hdesc⟩, ?_⟩
        · rcases List.mem_cons.1 hq with rfl | hq
          · exact hlt
          · exact Nat.lt_trans ((List.pairwise_cons.1 hdesc).1 q hq) hlt
        · intro hmem
          rcases List.mem_cons.1 hmem with heq | hmem
          · exact hne heq.symm
          · exact hzero hmem

end SourceUnit

/-! ## The unit of an outline -/

namespace Source

variable {s : Source} {o : Outline} {path : Path} {faults : List (Nat × LexFault)}

/-- The parent of a cursor has a smaller number, and the file has none. -/
theorem parent_lt {next : Nat} (h : o.Laid s [] next) {id p : CursorId}
    (hp : ((s.unitOf path faults o).cursor id).parent = some p) : p < id := by
  have hroot : ((s.unitOf path faults o).cursor 0).parent = none := by
    obtain ⟨d, hd, hparent⟩ := h.root
    simp only [SourceUnit.cursor, Source.unitOf, Source.cursorsOf, Array.getD_eq_getD_getElem?,
      Array.getElem?_mapIdx, hd, Option.map_some, Option.getD_some]
    exact hparent
  by_cases hid : 0 < id ∧ id < o.drafts.size
  · obtain ⟨d, hd⟩ : ∃ d, o.drafts[id]? = some d := ⟨_, Array.getElem?_eq_getElem hid.2⟩
    obtain ⟨-, q, hq, hlt⟩ := h.parents id _ hid.1 hd
    rw [Printed.cursor_eq hd hid.1] at hp
    obtain rfl : q = p := Option.some.inj (hq.symm.trans hp)
    exact hlt
  · have hcursor : (s.unitOf path faults o).cursor id = (s.unitOf path faults o).cursor 0 := by
      rcases Nat.eq_zero_or_pos id with rfl | hpos
      · rfl
      · refine SourceUnit.cursor_of_size_le ?_
        rw [Printed.size_cursors]
        exact Nat.le_of_not_lt fun hlt => hid ⟨hpos, hlt⟩
    rw [hcursor, hroot] at hp
    cases hp

theorem of_mem_tokens {t : Token} (ht : t ∈ (s.unitOf path faults o).tokens) :
    ∃ i a, s.lexemes[i]? = some a ∧ t = s.tokenOf o i a := by
  obtain ⟨i, hi⟩ := Array.mem_iff_getElem?.1 ht
  have hget : (s.unitOf path faults o).tokens[i]? = s.lexemes[i]?.map (s.tokenOf o i) :=
    Array.getElem?_mapIdx
  rw [hget] at hi
  obtain ⟨a, ha, rfl⟩ := Option.map_eq_some_iff.1 hi
  exact ⟨i, a, ha, rfl⟩

theorem of_getElem?_cursors {id : CursorId} {c : Cursor} (hid : 0 < id)
    (hc : (s.unitOf path faults o).cursors[id]? = some c) :
    ∃ d, o.drafts[id]? = some d ∧ c = s.cursorOf d := by
  simp only [unitOf, cursorsOf, Array.getElem?_mapIdx] at hc
  obtain ⟨d, hd, hc⟩ := Option.map_eq_some_iff.1 hc
  rw [if_neg (Nat.ne_of_gt hid)] at hc
  exact ⟨d, hd, hc.symm⟩

/-- The file itself reaches over the whole text. -/
theorem extent_of_zero {c : Cursor} (hc : (s.unitOf path faults o).cursors[0]? = some c) :
    c.extent = s.extent := by
  simp only [unitOf, cursorsOf, Array.getElem?_mapIdx] at hc
  obtain ⟨d, -, rfl⟩ := Option.map_eq_some_iff.1 hc
  rw [if_pos trivial]

/-- Every cursor stands in the file. -/
theorem encloses_cursor (hs : s.Ordered) {id : CursorId} {c : Cursor}
    (hc : (s.unitOf path faults o).cursors[id]? = some c) : s.extent.Encloses c.extent := by
  rcases Nat.eq_zero_or_pos id with rfl | hpos
  · rw [extent_of_zero hc]
    exact ⟨Nat.le_refl _, Nat.le_refl _⟩
  · obtain ⟨d, -, rfl⟩ := of_getElem?_cursors hpos hc
    exact hs.encloses_extent _ _

/-- A token that belongs to a cursor belongs to it as a lexeme. -/
theorem owner_of_pos {i : Nat} {a : Lexeme} (hpos : 0 < (s.tokenOf o i a).cursor) :
    o.owners[i]? = some (some (s.tokenOf o i a).cursor) := by
  simp only [tokenOf, Array.getD_eq_getD_getElem?] at hpos ⊢
  cases howner : o.owners[i]? with
  | none =>
    rw [howner] at hpos
    exact absurd hpos (Nat.lt_irrefl 0)
  | some owner =>
    rw [howner] at hpos
    cases owner with
    | none => exact absurd hpos (Nat.lt_irrefl 0)
    | some id => rfl

/-- The cursor that a token belongs to exists. -/
theorem owner_lt_size {next : Nat} (h : o.Laid s [] next) (i : Nat) (a : Lexeme) :
    (s.tokenOf o i a).cursor < o.drafts.size := by
  rcases Nat.eq_zero_or_pos (s.tokenOf o i a).cursor with hzero | hpos
  · rw [hzero]
    exact h.file
  · rcases (h.owned i _ (owner_of_pos hpos)).2 with hzero | ⟨d, hd, -⟩
    · rw [hzero]
      exact h.file
    · exact (Array.getElem?_eq_some_iff.1 hd).1

theorem apart_tokens (hs : s.Ordered) : Apart (s.unitOf path faults o).tokens.toList := by
  constructor
  · intro t ht
    obtain ⟨i, a, ha, rfl⟩ := of_mem_tokens (Array.mem_toList_iff.1 ht)
    exact (hs.lt_stop ha).1
  · refine List.pairwise_iff_getElem.2 fun i j hi hj hij => ?_
    have hget (k : Nat) (hk : k < (s.unitOf path faults o).tokens.toList.length) :
        ∃ a, s.lexemes[k]? = some a ∧
          (s.unitOf path faults o).tokens.toList[k] = s.tokenOf o k a := by
      have hk' : k < s.lexemes.size := by
        simpa only [unitOf, Array.length_toList, Array.size_mapIdx] using hk
      refine ⟨s.lexemes[k], Array.getElem?_eq_getElem hk', ?_⟩
      simp [unitOf]
    obtain ⟨a, ha, hta⟩ := hget i hi
    obtain ⟨b, hb, htb⟩ := hget j hj
    rw [hta, htb]
    exact hs.stop_le hij ha hb

end Source

/-- A source with a laid out outline is a well-formed unit. -/
theorem wellFormed_unitOf {s : Source} {o : Outline} {next : Nat} (hs : s.Ordered)
    (h : o.Laid s [] next) (path : Path) (faults : List (Nat × LexFault)) :
    (s.unitOf path faults o).WellFormed := by
  have hparent (id p : CursorId)
      (hp : ((s.unitOf path faults o).cursor id).parent = some p) : p < id :=
    Source.parent_lt h hp
  constructor
  case tokens => exact Source.apart_tokens hs
  case parents =>
    intro id c hid hc
    obtain ⟨d, hd, rfl⟩ := Source.of_getElem?_cursors hid hc
    exact (h.parents id d hid hd).2
  case way => exact SourceUnit.scopes_eq hparent
  case outward => exact fun id => SourceUnit.scopesWithin_descends hparent _ id
  case owners =>
    intro t ht
    obtain ⟨i, a, ha, rfl⟩ := Source.of_mem_tokens ht
    rw [Printed.size_cursors]
    exact Source.owner_lt_size h i a
  case within =>
    intro t ht hpos
    obtain ⟨i, a, ha, rfl⟩ := Source.of_mem_tokens ht
    rcases (h.owned i _ (Source.owner_of_pos hpos)).2 with hzero | ⟨d, hd, hfirst, hin⟩
    · exact absurd hzero (Nat.ne_of_gt hpos)
    rw [Printed.cursor_eq hd hpos]
    rcases hin with hin | hin | ⟨hkind, hlast, hspelling⟩
    · cases hin
    · exact .inl (hs.encloses_lexeme ha hfirst hin)
    · subst hlast
      refine (hs.precedes_lexeme ha hfirst).imp_right fun ⟨hprecedes, hstart, hbehind⟩ => ?_
      refine ⟨hkind, ?_, hprecedes, hstart, fun v hv hbefore => ?_⟩
      · rw [Source.spelling, ha] at hspelling
        exact hspelling
      · obtain ⟨j, b, hb, rfl⟩ := Source.of_mem_tokens hv
        exact hbehind j b hb hbefore
  case cursors =>
    intro a ha b hb
    obtain ⟨i, hi⟩ := Array.mem_iff_getElem?.1 ha
    obtain ⟨j, hj⟩ := Array.mem_iff_getElem?.1 hb
    rcases Nat.eq_zero_or_pos i with rfl | hipos
    · rw [Source.extent_of_zero hi]
      exact .inl (Source.encloses_cursor hs hj)
    rcases Nat.eq_zero_or_pos j with rfl | hjpos
    · rw [Source.extent_of_zero hj]
      exact .inr (.inl (Source.encloses_cursor hs hi))
    obtain ⟨d, hd, rfl⟩ := Source.of_getElem?_cursors hipos hi
    obtain ⟨e, he, rfl⟩ := Source.of_getElem?_cursors hjpos hj
    exact hs.nestedOrDisjoint (h.fits i j d e hipos hjpos List.not_mem_nil List.not_mem_nil hd he)

/-- **Every text is read as a well-formed unit**, whatever it says and whatever arguments go with
it. -/
theorem wellFormed_parseText (path : Path) (cs : List Char) (args : List String) :
    (parseText path cs args).WellFormed := by
  obtain ⟨next, h⟩ := Outline.laid_ofSource path.text (Macros.ofArguments args) (.ofText cs)
  exact wellFormed_unitOf (Source.ordered_ofText cs) h path _

end DocIndex
