import DocIndex.Proofs.Extent.Ended
import DocIndex.Proofs.Layout.Standing

/-!
# Cursors span whole tokens

A cursor begins where a token begins and ends where that token or a later one ends, however broken
the text is (`SourceUnit.spans_parseText`). The exception is a text that ends in the body of an
enumeration: what is open there may be said to reach over the whole text, and the enumeration
always is (`SourceUnit.extent_openEnum`).

* `SourceUnit.Spans` — a stretch of text is made of whole tokens.
* `Outline.EndsBehind` — the cursor ends behind the text.
-/

namespace DocIndex

/-- The stretch of text begins where a token begins, and ends where that token or a later one
ends. -/
def SourceUnit.Spans (u : SourceUnit) (e : Extent) : Prop :=
  ∃ (i j : Nat) (t v : Token), i ≤ j ∧ u.tokens[i]? = some t ∧ u.tokens[j]? = some v ∧
    e = ⟨t.extent.start, v.extent.stop⟩

namespace Source

variable {s : Source} {o : Outline} {d : Draft} {path : Path} {faults : List (Nat × LexFault)}

theorem spans_cursorOf (hfirst : d.first ≤ d.last) (hlast : d.last < s.size) :
    (s.unitOf path faults o).Spans (s.cursorOf d).extent := by
  have htoken {i : Nat} (hi : i < s.size) : (s.unitOf path faults o).tokens[i]? =
      some (s.tokenOf o i s.lexemes[i]) := by
    simp only [unitOf, Array.getElem?_mapIdx, Array.getElem?_eq_getElem hi, Option.map_some]
  have hlt := Nat.lt_of_le_of_lt hfirst hlast
  refine ⟨d.first, d.last, _, _, hfirst, htoken hlt, htoken hlast, ?_⟩
  simp only [cursorOf, extentOf, Array.getElem?_eq_getElem hlt, Array.getElem?_eq_getElem hlast]
  rfl

theorem extent_cursorOf (hlast : s.size ≤ d.last) : (s.cursorOf d).extent = s.extent := by
  have hnone : s.lexemes[d.last]? = none := Array.getElem?_eq_none hlast
  simp only [cursorOf, extentOf, hnone]
  cases s.lexemes[d.first]? <;> rfl

end Source

/-! ## The enumeration that the text ends in -/

namespace Outline

open Source

/-- The cursor ends behind the text. -/
structure EndsBehind (s : Source) (id : CursorId) (o : Outline) : Prop where
  draft : ∃ d, o.drafts[id]? = some d ∧ d.kind = .enumDecl ∧ s.size ≤ d.last

variable {s : Source} {id : CursorId} {o : Outline} {i start : Nat}

/-- Closing other scopes does not change where the cursor ends. -/
theorem endsBehind_closeAll {frames : List Frame} (h : o.EndsBehind s id)
    (hid : id ∉ Edge.opened (Frame.edges frames)) : (closeAll s frames o i).EndsBehind s id := by
  obtain ⟨d, hd, hends⟩ := h.draft
  exact ⟨d, getElem?_closeAll hd hid, hends⟩

/-- The enumeration that is left open ends behind the text. -/
theorem endsBehind_step {r : Reading} (hends : EndsInEnum s r) :
    (step s r.outline r.frames r.next).outline.EndsBehind s (r.lead s).outline.drafts.size ∧
      (step s r.outline r.frames r.next).frames = r.frames ∧
      (step s r.outline r.frames r.next).next = s.size + 1 := by
  have hread : readDeclaration s (scopeOf r.frames) r.next r.outline r.next false =
      (r.lead s).outline.readEnumeration s (scopeOf r.frames) r.next (r.lead s).index false :=
    (r.read_lead s _).trans hends.leaves.read_eq
  obtain ⟨o, hdrafts, hopen⟩ := readEnumeration_open (scopeOf r.frames) hends.lt
    hends.leaves.brace hends.leaves.unclosed
  rw [step_declaration _ _ hends.starts, hread, hopen]
  refine ⟨⟨?_⟩, rfl, rfl⟩
  obtain ⟨d, hkind, hd⟩ : ∃ d, d.kind = .enumDecl ∧ (enumOpened s (scopeOf r.frames) r.next
      (r.lead s).index (r.lead s).outline).drafts[(r.lead s).outline.drafts.size]? = some d :=
    ⟨_, rfl, (Laid.getElem?_declare _).trans (if_pos rfl)⟩
  have hbody := ((KeptIn.refl _).readEnumerators (s := s) (r.lead s).outline.drafts.size
    ((s.enumHead (r.lead s).outline.macros (r.lead s).index).2 + 1)).drafts _ d hd
  refine ⟨{ d with last := s.size }, ?_, hkind, Nat.le_refl _⟩
  rw [done, Laid.getElem?_reachTo, if_pos rfl, hdrafts, hbody]
  rfl

/-- The cursors that are open where the words begin in front of a declaration come before the one
that is declared next. -/
theorem size_le_ownWords {l : Lead} :
    l.outline.drafts.size ≤ (l.ownWords s start).outline.drafts.size := by
  fun_induction Lead.ownWords s start l with
  | case1 l l' hnext ih =>
    refine Nat.le_trans ?_ ih
    obtain ⟨-, -, ⟨-, -, -, rfl⟩ | ⟨-, ⟨-, rfl⟩ | ⟨-, rfl⟩⟩⟩ := Lead.next?_cases hnext
    · simp only [addMacroCall, Outline.claim, Outline.declare, Array.size_push]
      exact Nat.le_succ _
    · exact Nat.le_refl _
    · exact Nat.le_refl _
  | case2 l hnone => exact Nat.le_refl _

/-- The outline is laid out wherever reading comes to. -/
theorem laid_comes {r r' : Reading} (hcomes : Comes s r r')
    (h : r.outline.Laid s (Frame.edges r.frames) r.next) (hframes : Frame.Nested r.frames) :
    r'.outline.Laid s (Frame.edges r'.frames) r'.next := by
  induction hcomes with
  | refl => exact h
  | step hlt _ ih =>
    obtain ⟨hlaid, hnested⟩ := laid_step h hframes hlt
    exact ih hlaid hnested

/-- Where the text ends in its body, the enumeration ends behind the text in the end. -/
theorem endsBehind_readFrom {r : Reading} (hlaid : r.outline.Laid s (Frame.edges r.frames) r.next)
    (hends : EndsInEnum s r) :
    (readFrom s r.outline r.frames r.next).EndsBehind s (r.lead s).outline.drafts.size := by
  have hle : r.outline.drafts.size ≤ (r.lead s).outline.drafts.size :=
    size_le_ownWords (l := ⟨r.outline, r.next, false⟩)
  have hid : (r.lead s).outline.drafts.size ∉ Edge.opened (Frame.edges r.frames) := fun hmem =>
    Nat.not_lt_of_le hle (hlaid.lt_size_of_opened (List.mem_cons_of_mem 0 hmem))
  obtain ⟨hstep, hsame, hnext⟩ := endsBehind_step hends
  rw [readFrom_step _ hends.lt, readFrom, if_neg (by omega), hsame]
  exact endsBehind_closeAll hstep hid

end Outline

namespace SourceUnit

open Outline

/-- **Every cursor but the file spans whole tokens**, whatever the text and the arguments. Where the
text ends in the body of an enumeration that is a declaration of its own, that one and the scopes
around it may reach over the whole text instead. -/
theorem spans_parseText (path : Path) (cs : List Char) (args : List String) {id : CursorId}
    {c : Cursor} (hid : 0 < id) (hc : (parseText path cs args).cursors[id]? = some c) :
    (parseText path cs args).Spans c.extent ∨
      c.extent = (Source.ofText cs).extent ∧
        ∃ r, Comes (Source.ofText cs)
            ⟨.start path.text (Source.ofText cs).size (Macros.ofArguments args), [], 0⟩ r ∧
          EndsInEnum (Source.ofText cs) r ∧
          id ∈ (r.lead (Source.ofText cs)).outline.drafts.size ::
            Edge.opened (Frame.edges r.frames) := by
  obtain ⟨d, hd, rfl⟩ := Source.of_getElem?_cursors hid hc
  obtain ⟨next, hlaid⟩ := laid_ofSource path.text (Macros.ofArguments args) (.ofText cs)
  have hfirst : d.first ≤ d.last := (hlaid.closed id d hid List.not_mem_nil hd).1
  rcases Nat.lt_or_ge d.last (Source.ofText cs).size with hlast | hlast
  · exact .inl (Source.spans_cursorOf hfirst hlast)
  refine .inr ⟨Source.extent_cursorOf hlast, ?_⟩
  rcases ended_ofSource path.text (Macros.ofArguments args) (.ofText cs) with
    hended | ⟨r, hcomes, hends, hended⟩
  · exact absurd ((hended.last id d hid hd).resolve_right List.not_mem_nil)
      (Nat.not_lt_of_le hlast)
  · exact ⟨r, hcomes, hends, (hended.last id d hid hd).resolve_left (Nat.not_lt_of_le hlast)⟩

/-- A text that ends in the body of a class: the class ends with the last token. -/
theorem spans_openClass :
    ∃ c, (parseText ⟨"t.hxx"⟩ "struct S \x7b\n  int x\n".toList []).cursors[1]? = some c ∧
      c.kind = .structDecl ∧
      (parseText ⟨"t.hxx"⟩ "struct S \x7b\n  int x\n".toList []).Spans c.extent := by
  have hc : (parseText ⟨"t.hxx"⟩ "struct S \x7b\n  int x\n".toList []).cursors[1]? =
      some ⟨.structDecl, "S", ⟨⟨1, 1, 0⟩, ⟨2, 8, 18⟩⟩, some 0⟩ := by
    decide +kernel
  refine ⟨_, hc, rfl, ?_⟩
  rcases spans_parseText _ _ _ Nat.one_pos hc with hspans | ⟨hwhole, -⟩
  · exact hspans
  · exact absurd hwhole (by decide +kernel)

/-- **An enumeration in whose body the text ends reaches over the whole text.** -/
theorem extent_openEnum (path : Path) (cs : List Char) (args : List String) {r : Reading}
    (hcomes : Comes (Source.ofText cs)
      ⟨.start path.text (Source.ofText cs).size (Macros.ofArguments args), [], 0⟩ r)
    (hends : EndsInEnum (Source.ofText cs) r) :
    ((parseText path cs args).cursor (r.lead (Source.ofText cs)).outline.drafts.size).kind =
        .enumDecl ∧
      ((parseText path cs args).cursor (r.lead (Source.ofText cs)).outline.drafts.size).extent =
        (Source.ofText cs).extent := by
  have hlaid := laid_comes hcomes (laid_start (.ofText cs) path.text (Macros.ofArguments args))
    trivial
  obtain ⟨d, hd, hkind, hlast⟩ := (endsBehind_readFrom hlaid hends).draft
  rw [← readFrom_comes hcomes] at hd
  have hpos : 0 < (r.lead (Source.ofText cs)).outline.drafts.size :=
    Nat.lt_of_lt_of_le hlaid.file (size_le_ownWords (l := ⟨r.outline, r.next, false⟩))
  have hcursor : (parseText path cs args).cursor (r.lead (Source.ofText cs)).outline.drafts.size =
      (Source.ofText cs).cursorOf d :=
    Printed.cursor_eq hd hpos
  rw [hcursor]
  exact ⟨hkind, Source.extent_cursorOf hlast⟩

theorem Spans.mem_stop {u : SourceUnit} {e : Extent} (h : u.Spans e) :
    ∃ t ∈ u.tokens, e.stop = t.extent.stop := by
  obtain ⟨i, j, t, v, -, -, hv, rfl⟩ := h
  exact ⟨v, Array.mem_of_getElem? hv, rfl⟩

/-- **The enumeration in whose body a text ends does not span whole tokens**: it is moved to the
start of the text, in front of what is declared before it, and reaches behind the last token. -/
theorem not_spans_openEnum :
    ∃ c, (parseText ⟨"t.hxx"⟩ "int x;\nenum E \x7b A\n".toList []).cursors[2]? = some c ∧
      c.kind = .enumDecl ∧ c.extent.start.offset = 0 ∧
      ¬ (parseText ⟨"t.hxx"⟩ "int x;\nenum E \x7b A\n".toList []).Spans c.extent := by
  refine ⟨⟨.enumDecl, "E", ⟨⟨1, 1, 0⟩, ⟨3, 1, 18⟩⟩, some 0⟩, by decide +kernel, rfl, rfl, ?_⟩
  intro hspans
  obtain ⟨t, ht, hstop⟩ := hspans.mem_stop
  revert t
  decide +kernel

end SourceUnit

end DocIndex
