import DocIndex.Proofs.Layout.Reading

/-!
# What is over stays as it is

Reading a declaration adds cursors and changes none of those that are there (`Outline.KeptIn`).
Where a scope closes, the cursors of that scope are told how far they reach, and no others. So a
cursor that is not open stays as it is, its end included; and the file is never open.

* `Outline.KeptIn` — cursors are added, and the others stay as they are.
* `Outline.getElem?_step`, `Outline.getElem?_closeAll` — **a cursor that is not open stays as it
  is**, at a step and where the text ends.
* `Outline.file_ofSource` — the file reaches from the first lexeme to the last.
-/

namespace DocIndex

namespace Outline

open Source

/-- Cursors may be added; those that are there stay as they are. -/
structure KeptIn (o o' : Outline) : Prop where
  drafts : ∀ (id : CursorId) (d : Draft), o.drafts[id]? = some d → o'.drafts[id]? = some d

namespace KeptIn

variable {s : Source} {scope : Scope} {o o' : Outline} {id : CursorId} {templated : Bool}

theorem refl (o : Outline) : o.KeptIn o :=
  ⟨fun _ _ hd => hd⟩

theorem congr {o'' : Outline} (h : o.KeptIn o') (hd : o''.drafts = o'.drafts) : o.KeptIn o'' :=
  ⟨by rw [hd]; exact h.drafts⟩

theorem size_le (h : o.KeptIn o') : o.drafts.size ≤ o'.drafts.size := by
  refine Nat.le_of_not_lt fun hid => ?_
  have hd := h.drafts _ _ (Array.getElem?_eq_getElem hid)
  exact Nat.lt_irrefl _ (Array.getElem?_eq_some_iff.1 hd).1

theorem note (h : o.KeptIn o') (notes : List Note) : o.KeptIn (o'.note notes) :=
  h.congr rfl

theorem claim (h : o.KeptIn o') (first last : Nat) (id : CursorId) :
    o.KeptIn (o'.claim first last id) :=
  h.congr rfl

theorem define (h : o.KeptIn o') (name : String) (hasParameters : Bool) :
    o.KeptIn (o'.define name hasParameters) :=
  h.congr rfl

theorem undefine (h : o.KeptIn o') (name : String) : o.KeptIn (o'.undefine name) :=
  h.congr rfl

theorem nameModule (h : o.KeptIn o') (name : String) : o.KeptIn (o'.nameModule name) :=
  h.congr rfl

theorem openScope (h : o.KeptIn o') (path : List String) (name : String) (id : CursorId) :
    o.KeptIn (o'.openScope path name id) :=
  h.congr (Laid.drafts_openScope ..)

theorem declare (h : o.KeptIn o') (kind : CursorKind) (spelling : String) (first last : Nat)
    (parent : CursorId) : o.KeptIn (o'.declare kind spelling first last parent).1 := by
  refine ⟨fun id d hd => ?_⟩
  have hd' := h.drafts id d hd
  rw [Laid.getElem?_declare, if_neg (Nat.ne_of_lt (Array.getElem?_eq_some_iff.1 hd').1), hd']

theorem add (h : o.KeptIn o') (kind : CursorKind) (spelling : String) (first last : Nat)
    (parent : CursorId) : o.KeptIn (o'.add kind spelling first last parent) :=
  (h.declare kind spelling first last parent).claim ..

/-- How far a new cursor reaches is no matter of the others. -/
theorem reachTo (h : o.KeptIn o') (hid : o.drafts.size ≤ id) (last : Nat) :
    o.KeptIn (o'.reachTo id last) := by
  refine ⟨fun i d hd => ?_⟩
  have hlt : i < o.drafts.size := (Array.getElem?_eq_some_iff.1 hd).1
  rw [Laid.getElem?_reachTo, if_neg (Nat.ne_of_gt (Nat.lt_of_lt_of_le hlt hid)), h.drafts i d hd]

/-! ## Statements -/

theorem readDirective (h : o.KeptIn o') (i : Nat) : o.KeptIn (o'.readDirective s i) := by
  have hline := h.declare .preprocessingDirective (s.spelling (i + 1)) i
    (s.lastCode i (s.lineEnd i)) 0
  unfold Outline.readDirective
  simp only
  split
  · exact ((hline.define ..).claim ..).add ..
  split
  · exact (hline.undefine ..).claim ..
  · exact hline.claim ..

theorem readPlain (h : o.KeptIn o') (start i : Nat) :
    o.KeptIn (o'.readPlain s scope start i templated).outline := by
  unfold Outline.readPlain
  simp only
  split
  · exact (h.note _).add ..
  split
  · exact (h.note _).add ..
  · exact (h.note _).add ..

theorem readSimple (h : o.KeptIn o') (kind : CursorKind) (start i : Nat) :
    o.KeptIn (o'.readSimple s scope kind start i).outline :=
  (h.note _).add ..

theorem readModule (h : o.KeptIn o') (start i : Nat) :
    o.KeptIn (o'.readModule s scope start i).outline := by
  unfold Outline.readModule
  simp only [done]
  refine add ?_ ..
  split
  · exact (h.note _).nameModule _
  · exact h.note _

theorem readUsing (h : o.KeptIn o') (start i : Nat) :
    o.KeptIn (o'.readUsing s scope start i templated).outline := by
  unfold Outline.readUsing
  simp only [done]
  split
  · exact (h.note _).add ..
  split
  · exact (h.note _).add ..
  · exact (h.note _).add ..

theorem readTypedefRest (h : o.KeptIn o') (start i : Nat) :
    o.KeptIn (o'.readTypedefRest s scope start i).outline :=
  (h.note _).add ..

/-! ## Scopes -/

theorem openNamespaces (h : o.KeptIn o') (start brace : Nat) (parent : CursorId)
    (path : List String) (ids : List CursorId) (names : List String) :
    o.KeptIn (Outline.openNamespaces start brace parent path ids names o').1 := by
  induction names generalizing o' parent path ids with
  | nil => exact h
  | cons name names ih =>
    have hd := h.declare .namespaceDecl name start brace parent
    simp only [Outline.openNamespaces]
    split
    · exact ih hd ..
    · exact ih (hd.openScope ..) ..

theorem readNamespace (h : o.KeptIn o') (start i : Nat) :
    o.KeptIn (o'.readNamespace s scope start i).outline := by
  have hnote := h.note (s.skipBrackets (s.namespaceNames [] (i + 1)).2).notes
  rw [readNamespace_eq]
  unfold readNamespaceFrom
  split
  · exact (hnote.note _).add ..
  split
  · exact (hnote.openNamespaces ..).claim ..
  · exact (hnote.note _).readPlain ..

theorem openRecord (h : o.KeptIn o') (n : RecordName) (kind : CursorKind) (start : Nat)
    (parent : CursorId) (outer : Option Nat) (brace : Nat) :
    o.KeptIn (Outline.openRecord scope n kind start parent outer o' brace).outline := by
  have hd := h.declare kind n.name start brace parent
  unfold Outline.openRecord
  simp only
  split
  · exact hd.claim ..
  · exact (hd.claim ..).openScope ..

theorem readRecord (h : o.KeptIn o') (start key : Nat) (outer : Option Nat) :
    o.KeptIn (o'.readRecord s scope start key templated outer).outline := by
  have hnote := h.note (s.skipDecorations o'.macros (key + 1)).notes
  rw [readRecord_eq]
  unfold readRecordFrom
  simp only
  split
  · exact hnote.openRecord ..
  split
  · split
    · exact (hnote.note _).openRecord ..
    · exact ((hnote.note _).note _).add ..
  split
  · exact hnote
  split
  · exact hnote.add ..
  · exact hnote.readPlain ..

/-! ## Enumerations -/

theorem readEnumerators (h : o.KeptIn o') (id : CursorId) (i : Nat) :
    o.KeptIn (Outline.readEnumerators s id o' i).1 := by
  fun_induction Outline.readEnumerators s id o' i with
  | case1 => exact h
  | case2 o' i _ _ _ ih => exact ih (h.readDirective i)
  | case3 o' i _ _ _ _ e last ih => exact ih ((h.note _).add ..)
  | case4 o' i _ _ _ _ ih => exact ih (h.claim ..)
  | case5 => exact h

theorem readEnumBody (h : o.KeptIn o') (hid : o.drafts.size ≤ id) (start brace : Nat)
    (inTypedef : Bool) : o.KeptIn (o'.readEnumBody s id start brace inTypedef).outline := by
  have hbody := h.readEnumerators (s := s) id (brace + 1)
  unfold Outline.readEnumBody
  simp only [done]
  refine reachTo ((note ?_ _).claim ..) hid _
  split
  · exact hbody.note _
  · exact hbody

theorem readEnumeration (h : o.KeptIn o') (start key : Nat) (inTypedef : Bool) :
    o.KeptIn (o'.readEnumeration s scope start key inTypedef).outline := by
  have hnote := h.note (s.skipDecorations o'.macros (s.enumKeyEnd key)).notes
  rw [readEnumeration_eq]
  unfold readEnumerationFrom
  split
  · exact ((hnote.declare ..).claim ..).readEnumBody h.size_le ..
  split
  · exact hnote
  split
  · exact hnote.add ..
  · exact hnote.readPlain ..

/-! ## All declarations -/

theorem readTypedef (h : o.KeptIn o') (start i : Nat) :
    o.KeptIn (o'.readTypedef s scope start i).outline := by
  unfold Outline.readTypedef
  simp only
  split
  · split
    · exact h.readRecord ..
    · exact (h.readRecord ..).readTypedefRest ..
  split
  · exact (h.readEnumeration ..).readTypedefRest ..
  · exact h.readTypedefRest ..

theorem addMacroCall (h : o.KeptIn o') (i : Nat) : o.KeptIn (o'.addMacroCall s i).1 :=
  (h.note _).add ..

/-- **Reading a declaration changes no cursor that is there.** -/
theorem readDeclaration (h : o.KeptIn o') (start i : Nat) :
    o.KeptIn (Outline.readDeclaration s scope start o' i templated).outline := by
  fun_induction Outline.readDeclaration s scope start o' i templated with
  | case1 => exact h.add ..
  | case2 o' i templated _ _ _ last o₁ id hcall =>
    have hadd := h.addMacroCall (s := s) i
    rw [hcall] at hadd
    exact hadd.claim ..
  | case3 o' i templated _ _ _ last o₁ id hcall =>
    have hadd := h.addMacroCall (s := s) i
    rw [hcall] at hadd
    exact hadd
  | case4 o' i templated _ _ _ last o₁ id hcall _ _ ih =>
    have hadd := h.addMacroCall (s := s) i
    rw [hcall] at hadd
    exact ih hadd
  | case5 => exact h.readNamespace ..
  | case6 => exact (h.declare ..).claim ..
  | case7 _ _ _ _ _ _ _ ih => exact ih h
  | case8 => exact h.readModule ..
  | case9 _ _ _ _ _ _ _ ih => exact ih h
  | case10 => exact h.add ..
  | case11 => exact h.readRecord ..
  | case12 => exact h.readEnumeration ..
  | case13 => exact h.readUsing ..
  | case14 => exact h.readTypedef ..
  | case15 => exact h.readSimple ..
  | case16 => exact h.readPlain ..
  | case17 => exact h

end KeptIn

/-! ## Closing scopes -/

variable {s : Source} {scope : Scope} {o : Outline} {id : CursorId} {d : Draft} {i : Nat}

theorem getElem?_reachTo_all (hd : o.drafts[id]? = some d) {ids : List CursorId} (hid : id ∉ ids)
    (last : Nat) : (ids.foldl (fun o id => o.reachTo id last) o).drafts[id]? = some d := by
  induction ids generalizing o with
  | nil => exact hd
  | cons id' ids ih =>
    rw [List.mem_cons, not_or] at hid
    refine ih ?_ hid.2
    rw [Laid.getElem?_reachTo, if_neg (Ne.symm hid.1), hd]

/-- A scope that closes changes its own cursors alone. -/
theorem getElem?_close {closing : Closing} {after : Nat} (hd : o.drafts[id]? = some d)
    (hid : id ∉ Edge.opened closing.edges) :
    (close s scope closing o after).1.drafts[id]? = some d := by
  have hreach {id' : CursorId} (o' : Outline) (hd' : o'.drafts[id]? = some d) (hne : id' ≠ id)
      (last : Nat) : (o'.reachTo id' last).drafts[id]? = some d := by
    rw [Laid.getElem?_reachTo, if_neg hne, hd']
  cases closing with
  | linkage id' start =>
    have hne : id' ≠ id := fun heq => hid (by simp [Closing.edges, heq])
    exact hreach o hd hne _
  | namespaces ids start => exact getElem?_reachTo_all hd (by simpa [Closing.edges] using hid) _
  | record id' start =>
    have hne : id' ≠ id := fun heq => hid (by simp [Closing.edges, heq])
    exact hreach _ hd hne _
  | typedefRecord id' start outer =>
    have hne : id' ≠ id := fun heq => hid (by simp [Closing.edges, heq])
    have hrest := hreach (o.claim (min after (after - 1)) (after - 1) id') hd hne
      (max (after - 1) start)
    exact ((KeptIn.refl _).readTypedefRest ..).drafts id d hrest

/-- Where the text ends, no more than the open cursors change. -/
theorem getElem?_closeAll {frames : List Frame} (hd : o.drafts[id]? = some d)
    (hid : id ∉ Edge.opened (Frame.edges frames)) :
    (closeAll s frames o i).drafts[id]? = some d := by
  induction frames generalizing o i with
  | nil => exact hd
  | cons f around ih =>
    have hopened : Edge.opened (Frame.edges (f :: around)) =
        Edge.opened f.closing.edges ++ Edge.opened (Frame.edges around) :=
      List.flatMap_append
    rw [hopened, List.mem_append, not_or] at hid
    exact ih (getElem?_close (o := o.note [⟨i, .noClosingBrace⟩]) hd hid.1) hid.2

/-! ## Reading a whole text -/

/-- **A cursor that is not open stays as it is at a step.** -/
theorem getElem?_step {frames : List Frame} (hd : o.drafts[id]? = some d)
    (hid : id ∉ Edge.opened (Frame.edges frames)) :
    (step s o frames i).outline.drafts[id]? = some d := by
  unfold step
  simp only
  split
  · exact hd
  split
  · exact ((KeptIn.refl o).readDirective i).drafts id d hd
  split
  · cases frames with
    | nil => exact hd
    | cons f around =>
      have hfirst : id ∉ Edge.opened f.closing.edges := fun hmem =>
        hid (List.mem_flatMap.2 (by
          obtain ⟨e, he, hmem⟩ := List.mem_flatMap.1 hmem
          exact ⟨e, List.mem_append_left _ he, hmem⟩))
      exact getElem?_close (o := o.claim i i (scopeOf (f :: around)).owner) hd hfirst
  split
  · exact hd
  · exact ((KeptIn.refl o).readDeclaration i i).drafts id d hd

/-- The file is not open. -/
theorem Laid.zero_not_mem {edges : List Edge} {next : Nat} (h : o.Laid s edges next) :
    0 ∉ Edge.opened edges := by
  intro hmem
  obtain ⟨e, he, hid⟩ := List.mem_flatMap.1 hmem
  exact Nat.lt_irrefl 0 (h.begun e he 0 hid).1

/-- **The file stays as it is**, whatever is read. -/
theorem getElem?_readFrom_zero {frames : List Frame} (hd : o.drafts[0]? = some d)
    (h : o.Laid s (Frame.edges frames) i) (hframes : Frame.Nested frames) :
    (readFrom s o frames i).drafts[0]? = some d := by
  fun_induction readFrom s o frames i with
  | case1 o frames i hi r ih =>
    obtain ⟨hlaid, hnested⟩ := laid_step h hframes hi
    exact ih (getElem?_step hd h.zero_not_mem) hlaid hnested
  | case2 o frames i hi => exact getElem?_closeAll hd h.zero_not_mem

/-- The file reaches from the first lexeme of a text to the last. -/
theorem file_ofSource (fileName : String) (macros : Macros) (s : Source) :
    (ofSource fileName macros s).drafts[0]? =
      some ⟨.wholeFile, fileName, 0, s.size - 1, none⟩ :=
  getElem?_readFrom_zero rfl (laid_start s fileName macros) trivial

end Outline

end DocIndex
