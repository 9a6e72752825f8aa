import DocIndex.Proofs.Commented.Declaration
import DocIndex.Proofs.Layout.Laid

/-!
# Reading keeps outlines laid out

Whatever is read, and however broken it is, the outline stays laid out (`Outline.Laid`). A
declaration begins at an edge of its own. It leaves the edge behind if its body is read next, and
takes it away otherwise; so the edges are those of the scopes whose bodies are open
(`Frame.edges`).

* `laid_readDeclaration` — **one declaration keeps the outline laid out.**
* `laid_step` — so does one step.
* `laid_readFrom` — so does reading to the end of the text, where no scope is open any more.
-/

namespace DocIndex

/-! ## How far is read at least -/

namespace Source

variable (s : Source)

theorem min_le_statementEnd (i : Nat) : min i s.size ≤ (s.statementEnd i).index + 1 := by
  by_cases hpos : 0 < i ∧ 0 < s.size
  · have hle : min (i - 1) (s.size - 1) ≤ (s.statementEnd i).index :=
      le_statementEnd (by omega) (by omega)
    omega
  · omega

theorem min_le_shape (macros : Macros) (i : Nat) :
    min i s.size ≤ (s.shape macros i).stop + 1 := by
  by_cases hpos : 0 < s.size
  · have hle : min i (s.size - 1) ≤ (s.shape macros i).stop :=
      le_stop_shape macros (by omega) (Nat.min_le_left _ _)
    omega
  · omega

theorem min_le_declaratorsEnd (i : Nat) :
    min i s.size ≤ (Outline.declaratorsEnd s i).index + 1 := by
  by_cases hpos : 0 < i ∧ 0 < s.size
  · have hle : min (i - 1) (s.size - 1) ≤ (Outline.declaratorsEnd s i).index :=
      Outline.le_declaratorsEnd (by omega) (by omega)
    omega
  · omega

theorem lineEnd_lt {i : Nat} (hi : i < s.size) : s.lineEnd i < s.size := by
  fun_induction lineEnd s i with
  | case1 i h ih =>
    simp only [Bool.and_eq_true, decide_eq_true_eq] at h
    exact ih h.1
  | case2 => exact hi

end Source

/-! ## Scopes -/

/-- What a scope belongs to is open, or the file itself. -/
structure Scope.Within (edges : List Edge) (scope : Scope) : Prop where
  owner : scope.owner ∈ 0 :: Edge.opened edges
  parent : scope.parent ∈ 0 :: Edge.opened edges

theorem Scope.within_file : Scope.file.Within [] :=
  ⟨List.mem_cons_self, List.mem_cons_self⟩

theorem Scope.within_cons {edges : List Edge} {scope : Scope} (h : scope.Within edges)
    (e : Edge) : scope.Within (e :: edges) := by
  have hmem (id : CursorId) (hid : id ∈ 0 :: Edge.opened edges) :
      id ∈ 0 :: Edge.opened (e :: edges) := by
    rcases List.mem_cons.1 hid with rfl | hid
    · exact List.mem_cons_self
    · exact List.mem_cons_of_mem _ (List.mem_append_right _ hid)
  exact ⟨hmem _ h.owner, hmem _ h.parent⟩

/-- The edges at which a scope that is not closed yet begins. -/
def Closing.edges : Closing → List Edge
  | linkage id start => [⟨start, [id]⟩]
  | namespaces ids start => [⟨start, ids⟩]
  | record id start => [⟨start, [id]⟩]
  | typedefRecord id start outer => [⟨start, [id]⟩, ⟨outer, []⟩]

/-- The edges at which the scopes begin whose bodies are open. -/
def Frame.edges (frames : List Frame) : List Edge :=
  frames.flatMap fun f => f.closing.edges

@[simp] theorem Frame.edges_nil : Frame.edges [] = [] := rfl

@[simp] theorem Frame.edges_cons (f : Frame) (frames : List Frame) :
    Frame.edges (f :: frames) = f.closing.edges ++ Frame.edges frames := rfl

/-- What a declaration leads to is laid out, the scope included that it opens. -/
structure Outcome.Laid (s : Source) (edges : List Edge) (r : Outcome) : Prop where
  outline : r.outline.Laid s (Frame.edges r.opened.toList ++ edges) r.next
  scope : ∀ f, r.opened = some f → f.scope.Within (f.closing.edges ++ edges)

namespace Outline

variable {s : Source} {edges : List Edge} {next i start : Nat} {o : Outline} {scope : Scope}
  {templated : Bool} {id : CursorId}

open Source

theorem Laid.done (h : o.Laid s edges next) : (o.done next).Laid s edges :=
  ⟨h, fun _ hf => nomatch hf⟩

/-- A body that begins behind what has been read. -/
theorem Laid.enter {closing : Closing} (h : o.Laid s (closing.edges ++ edges) next)
    (hscope : scope.Within (closing.edges ++ edges)) :
    (o.enter next scope closing).Laid s edges := by
  refine ⟨?_, fun f hf => ?_⟩
  · simp only [Outline.enter, Option.toList_some, Frame.edges_cons, Frame.edges_nil,
      List.append_nil]
    exact h
  · cases hf
    exact hscope

/-! ## Preprocessor lines -/

/-- A preprocessor line is a cursor, and the macro that it defines is one inside of it. -/
theorem laid_readDirective (h : o.Laid s edges i) (hi : i < s.size) :
    (o.readDirective s i).Laid s edges (s.lineEnd i + 1) := by
  have hend : s.lineEnd i < s.size := s.lineEnd_lt hi
  obtain ⟨hfirst, hlast⟩ := s.lastCode_le (le_lineEnd (s := s) i)
  generalize hcode : s.lastCode i (s.lineEnd i) = last at hfirst hlast
  generalize hline : o.declare .preprocessingDirective (s.spelling (i + 1)) i last 0 = r
  have hid : r.2 = o.drafts.size := by rw [← hline]; rfl
  have hdraft : r.1.drafts[r.2]? =
      some ⟨.preprocessingDirective, s.spelling (i + 1), i, last, some 0⟩ := by
    rw [hid, ← hline, Laid.getElem?_declare, if_pos rfl, Nat.max_eq_left hfirst]
  have hr : r.1.Laid s (⟨i, [r.2]⟩ :: edges) (i + 1) := by
    rw [hid, ← hline]
    exact ((h.push hi).mono (show min i s.size ≤ i + 1 by omega)).declare (Nat.lt_succ_self i)
      _ _ last h.file
  -- the line is over at its last lexeme, whatever has been read of it
  have hfinish {o' : Outline} {n : Nat} (h' : o'.Laid s (⟨i, [r.2]⟩ :: edges) n)
      (hn : n ≤ last + 1) (hold : o'.drafts[r.2]? = r.1.drafts[r.2]?) :
      o'.Laid s edges (s.lineEnd i + 1) := by
    have hshut := h'.shut (hold.trans hdraft) (show min n s.size ≤ last + 1 by omega)
    exact hshut.pop.mono (show min (last + 1) s.size ≤ s.lineEnd i + 1 by omega)
  have hclaim {o' : Outline} (h' : o'.Laid s (⟨i, [r.2]⟩ :: edges) (i + 1)) {n : Nat}
      (hn : i ≤ n) : (o'.claim i n r.2).Laid s (⟨i, [r.2]⟩ :: edges) (n + 1) :=
    (h'.mono (show min (i + 1) s.size ≤ n + 1 by omega)).claim_opened List.mem_cons_self
      List.mem_cons_self (Nat.le_refl i) (Nat.min_le_left _ _)
  unfold readDirective
  simp only [hcode, hline]
  split
  · rename_i hdefine
    simp only [Bool.and_eq_true, decide_eq_true_eq] at hdefine
    have hparameters := hr.define (s.spelling (i + 2)) (s.is (i + 3) "(" && s.touchesNext (i + 2))
    have hinner := (hclaim hparameters (Nat.le_succ i)).push (show i + 1 + 1 < s.size by omega)
    refine hfinish (hinner.add .macroDefinition _ hinner.file (show i + 2 ≤ last by omega)
      (by omega)) (Nat.le_refl _) ?_
    have hlt : r.2 < r.1.drafts.size := (Array.getElem?_eq_some_iff.1 hdraft).1
    exact (Laid.getElem?_declare r.2).trans (if_neg (Nat.ne_of_lt hlt))
  split
  · exact hfinish (hclaim (hr.undefine _) hfirst) (Nat.le_refl _) rfl
  · exact hfinish (hclaim hr hfirst) (Nat.le_refl _) rfl

/-! ## Functions and variables -/

section

variable (h : o.Laid s (⟨start, []⟩ :: edges) next) (hscope : scope.Within edges)
  (hstart : start ≤ i) (hnext : next ≤ i)
include h hscope

theorem parent_lt_size : scope.parent < o.drafts.size :=
  h.lt_size_of_opened (Scope.within_cons hscope _).parent

include hstart hnext

theorem laid_readPlain : (o.readPlain s scope start i templated).Laid s edges := by
  have hs : start < s.size := (h.reached _ List.mem_cons_self).2
  have hle : start ≤ (s.shape o.macros i).stop := le_stop_shape o.macros hs hstart
  have hreach : min next s.size ≤ (s.shape o.macros i).stop + 1 := by
    have := s.min_le_shape o.macros i
    omega
  have hp := parent_lt_size h hscope
  replace h := h.note (s.shape o.macros i).notes
  unfold readPlain
  simp only
  split
  · exact (h.add .unexposedDecl "" hp hle hreach).done
  · rename_i nameAt hname
    have hparent : ((o.note (s.shape o.macros i).notes).resolve scope.path
        (s.qualifierOf nameAt)).getD scope.parent <
        (o.note (s.shape o.macros i).notes).drafts.size :=
      h.getD_resolve_lt hp
    split
    · exact (h.add _ _ hparent hle hreach).done
    · exact (h.add _ _ hparent hle hreach).done

omit h hscope hstart hnext in
theorem opened_readPlain : (o.readPlain s scope start i templated).opened = none := by
  unfold readPlain
  simp only
  split <;> rfl

theorem laid_readSimple {kind : CursorKind} :
    (o.readSimple s scope kind start i).Laid s edges := by
  have hs : start < s.size := (h.reached _ List.mem_cons_self).2
  have hle := le_stop_shape o.macros hs (show start ≤ i + 1 by omega)
  have hreach := s.min_le_shape o.macros (i + 1)
  have hp := parent_lt_size h hscope
  exact ((h.note _).add kind _ hp hle (by omega)).done

/-! ## Modules, aliases and type definitions -/

theorem laid_readModule : (o.readModule s scope start i).Laid s edges := by
  have hs : start < s.size := (h.reached _ List.mem_cons_self).2
  have hle := le_statementEnd hs (show start < i + 1 by omega)
  have hreach := s.min_le_statementEnd (i + 1)
  have hp := parent_lt_size h hscope
  replace h := h.note (s.statementEnd (i + 1)).notes
  unfold readModule
  simp only
  split
  · exact ((h.nameModule _).add _ _ hp hle (by omega)).done
  · exact (h.add _ _ hp hle (by omega)).done

theorem laid_readUsing : (o.readUsing s scope start i templated).Laid s edges := by
  have hs : start < s.size := (h.reached _ List.mem_cons_self).2
  have hle := le_statementEnd hs (show start < i + 1 by omega)
  have hreach := s.min_le_statementEnd (i + 1)
  have hp := parent_lt_size h hscope
  replace h := h.note ((s.statementEnd (i + 1)).notes ++ (s.skipDecorations o.macros (i + 2)).notes)
  unfold readUsing
  simp only
  split
  · exact (h.add _ _ hp hle (by omega)).done
  split
  · exact (h.add _ _ hp hle (by omega)).done
  · exact (h.add _ _ hp hle (by omega)).done

end

theorem laid_readTypedefRest (h : o.Laid s (⟨start, []⟩ :: edges) i) (hscope : scope.Within edges)
    (hlt : start < i) : (o.readTypedefRest s scope start i).Laid s edges := by
  have hs : start < s.size := (h.reached _ List.mem_cons_self).2
  have hle := le_statementEnd hs hlt
  have hreach := s.min_le_statementEnd i
  have hp := parent_lt_size h hscope
  exact ((h.note _).add .typedefDecl _ hp hle hreach).done

/-! ## Scopes -/

section

variable (h : o.Laid s (⟨start, []⟩ :: edges) next) (hscope : scope.Within edges)
include h hscope

theorem laid_readLinkage {brace : Nat} (hstart : start ≤ brace) (hnext : next ≤ brace) :
    (o.readLinkage scope start brace).Laid s edges := by
  have hp := parent_lt_size h hscope
  have hc := h.head .unexposedDecl "" hp hstart (show min next s.size ≤ brace + 1 by omega)
  refine hc.enter ⟨?_, ?_⟩
  · exact List.mem_cons_of_mem _ List.mem_cons_self
  · exact (Scope.within_cons hscope _).parent

end

/-- Nested namespaces begin at the same edge. -/
theorem laid_openNamespaces (brace : Nat) (hlt : start < next) (parent : CursorId)
    (path : List String) (ids : List CursorId) (names : List String)
    (h : o.Laid s (⟨start, ids⟩ :: edges) next) (hp : parent < o.drafts.size)
    (hlast : names = [] → parent ∈ ids) :
    let r := openNamespaces start brace parent path ids names o
    r.1.Laid s (⟨start, r.2.1⟩ :: edges) next ∧ r.2.2.1 ∈ r.2.1 := by
  induction names generalizing o parent path ids with
  | nil => exact ⟨h, hlast rfl⟩
  | cons name names ih =>
    have hd := h.declare hlt .namespaceDecl name brace hp
    have hid :
        o.drafts.size < (o.declare .namespaceDecl name start brace parent).1.drafts.size := by
      simp only [declare, Array.size_push]
      exact Nat.lt_succ_self _
    simp only [openNamespaces]
    split
    · exact ih _ _ _ hd hid fun _ => List.mem_append_right _ List.mem_cons_self
    · refine ih _ _ _ (hd.openScope path name hid) ?_ fun _ =>
        List.mem_append_right _ List.mem_cons_self
      rw [Laid.drafts_openScope]
      exact hid

theorem laid_readNamespaceFrom (h : o.Laid s (⟨start, []⟩ :: edges) next)
    (hscope : scope.Within edges) {names : List String} {j : Nat} (hstart : start < j)
    (hnext : next ≤ j) :
    (o.readNamespaceFrom s scope start names j).Laid s edges := by
  have hs : start < s.size := (h.reached _ List.mem_cons_self).2
  have hp := parent_lt_size h hscope
  unfold readNamespaceFrom
  split
  · have hle := le_statementEnd hs hstart
    have hreach := s.min_le_statementEnd j
    exact ((h.note _).add _ _ hp hle (by omega)).done
  split
  · have hm := h.mono (show min next s.size ≤ j + 1 by omega)
    have hne : (if names.isEmpty then [""] else names) = [] →
        scope.parent ∈ ([] : List CursorId) := by
      cases names <;> simp
    obtain ⟨hopened, hmem⟩ := laid_openNamespaces j (show start < j + 1 by omega)
      scope.parent scope.path [] _ hm hp hne
    have hc := hopened.claim_opened List.mem_cons_self hmem (Nat.le_refl start)
      (Nat.min_le_left (j + 1) s.size)
    have hwithin := List.mem_cons_of_mem 0 (List.mem_append_left (Edge.opened edges) hmem)
    exact hc.enter ⟨hwithin, hwithin⟩
  · exact laid_readPlain (h.note _) hscope (Nat.le_of_lt hstart) hnext

theorem laid_readNamespace (h : o.Laid s (⟨start, []⟩ :: edges) next)
    (hscope : scope.Within edges) (hstart : start ≤ i) (hnext : next ≤ i) :
    (o.readNamespace s scope start i).Laid s edges := by
  have hle := s.le_namespaceHead (i + 1)
  rw [readNamespace_eq]
  exact laid_readNamespaceFrom (h.note _) hscope (by omega) (by omega)

/-! ## Classes -/

/-- A type definition that begins with a class begins in front of it. -/
def outerEdges (outer : Option Nat) : List Edge :=
  outer.toList.map fun first => ⟨first, []⟩

theorem within_outerEdges (hscope : scope.Within edges) (outer : Option Nat) :
    scope.Within (outerEdges outer ++ edges) := by
  cases outer with
  | none => exact hscope
  | some first => exact Scope.within_cons hscope _

section

variable {outer : Option Nat} {n : RecordName} {kind : CursorKind} {parent : CursorId}

theorem laid_openRecord {brace : Nat}
    (h : o.Laid s (⟨start, []⟩ :: (outerEdges outer ++ edges)) next)
    (hp : parent < o.drafts.size) (hstart : start ≤ brace) (hnext : next ≤ brace) :
    (openRecord scope n kind start parent outer o brace).Laid s edges := by
  have hc := h.head kind n.name hp hstart (show min next s.size ≤ brace + 1 by omega)
  have hsize := hc.lt_size_of_opened (List.mem_cons_of_mem 0 List.mem_cons_self)
  have hmem : o.drafts.size ∈ 0 :: Edge.opened
      (⟨start, [o.drafts.size]⟩ :: (outerEdges outer ++ edges)) :=
    List.mem_cons_of_mem 0 List.mem_cons_self
  have hid : (o.declare kind n.name start brace parent).2 = o.drafts.size := rfl
  have hnamed (path : List String) := hc.openScope path n.name hsize
  simp only [openRecord, hid]
  cases outer with
  | none =>
    split
    · exact hc.enter ⟨hmem, hmem⟩
    · exact (hnamed _).enter ⟨hmem, hmem⟩
  | some first =>
    split
    · exact hc.enter ⟨hmem, hmem⟩
    · exact (hnamed _).enter ⟨hmem, hmem⟩

theorem isSome_openRecord {brace : Nat} :
    (openRecord scope n kind start parent outer o brace).opened.isSome = true := by
  simp only [openRecord]
  split <;> rfl

/-- What reading a class leads to: its body is open, or the type definition is left to be read that
begins with it. -/
def LaidRecord (s : Source) (edges : List Edge) (outer : Option Nat) (r : Outcome) : Prop :=
  r.opened.isSome = true ∧ r.Laid s edges ∨
    r.opened = none ∧ r.outline.Laid s (outerEdges outer ++ edges) r.next

theorem laid_readRecordFrom {j : Nat}
    (h : o.Laid s (⟨start, []⟩ :: (outerEdges outer ++ edges)) next) (hscope : scope.Within edges)
    (hp : parent < o.drafts.size) (hstart : start ≤ i) (hnext : next ≤ i) (hj : i < j) :
    LaidRecord s edges outer
      (readRecordFrom s scope start i templated outer n parent o j) := by
  have hs : start < s.size := (h.reached _ List.mem_cons_self).2
  have hbase := le_baseListEnd (s := s) (j + 1)
  have hdone {r : Outcome} (hr : r.opened = none) (h : r.Laid s (outerEdges outer ++ edges)) :
      LaidRecord s edges outer r := by
    have hout := h.outline
    rw [hr] at hout
    exact .inr ⟨hr, hout⟩
  unfold readRecordFrom
  simp only
  split
  · exact .inl ⟨isSome_openRecord, laid_openRecord h hp (by omega) (by omega)⟩
  split
  · split
    · exact .inl ⟨isSome_openRecord, laid_openRecord (h.note _) hp (by omega) (by omega)⟩
    · exact hdone rfl (((h.note _).note _).add _ _ hp (by omega) (by omega)).done
  split
  · exact hdone rfl (h.mono (show min next s.size ≤ j by omega)).pop.done
  split
  · exact hdone rfl (h.add _ _ hp (by omega) (by omega)).done
  · exact hdone opened_readPlain
      (laid_readPlain h (within_outerEdges hscope outer) hstart hnext)

theorem laid_readRecord (h : o.Laid s (⟨start, []⟩ :: (outerEdges outer ++ edges)) next)
    (hscope : scope.Within edges) (hstart : start ≤ i) (hnext : next ≤ i) :
    LaidRecord s edges outer (o.readRecord s scope start i templated outer) := by
  have hle := s.le_recordHead o.macros (i + 1)
  have hp := parent_lt_size h (within_outerEdges hscope outer)
  rw [readRecord_eq]
  exact laid_readRecordFrom (h.note _) hscope (h.getD_resolve_lt hp) hstart hnext (by omega)

end

/-! ## Enumerations -/

/-- An enumerator is a cursor inside of the enumeration. -/
theorem laid_addEnumerator (h : o.Laid s (⟨start, [id]⟩ :: edges) i) (hi : i < s.size) :
    ((o.note (s.enumeratorEnd i).notes).add .enumConstantDecl (s.spelling i) i
      (s.lastCode i (s.enumeratorEnd i).index) id).Laid s (⟨start, [id]⟩ :: edges)
        ((s.enumeratorEnd i).index + 1) := by
  obtain ⟨hfirst, hlast⟩ := s.lastCode_le (le_enumeratorEnd (s := s) i)
  have hid := h.lt_size_of_opened (List.mem_cons_of_mem 0 List.mem_cons_self)
  have hadd := ((h.note (s.enumeratorEnd i).notes).push hi).add .enumConstantDecl (s.spelling i)
    hid hfirst (by omega)
  exact hadd.mono (by omega)

/-- The body of an enumeration, whose cursor is open. -/
theorem laid_readEnumerators (h : o.Laid s (⟨start, [id]⟩ :: edges) i) :
    (readEnumerators s id o i).1.Laid s (⟨start, [id]⟩ :: edges) (readEnumerators s id o i).2 := by
  have hmem : id ∈ 0 :: Edge.opened (⟨start, [id]⟩ :: edges) :=
    List.mem_cons_of_mem 0 List.mem_cons_self
  fun_induction readEnumerators s id o i with
  | case1 => exact h
  | case2 o i hi _ _ ih => exact ih (laid_readDirective h hi)
  | case3 o i hi _ _ _ e last ih => exact ih (laid_addEnumerator h hi)
  | case4 o i hi _ _ _ ih => exact ih (h.claim_next hmem)
  | case5 => exact h

theorem laid_readEnumBody {brace : Nat} {inTypedef : Bool}
    (h : o.Laid s (⟨start, [id]⟩ :: edges) (brace + 1)) :
    (o.readEnumBody s id start brace inTypedef).Laid s edges := by
  have hs : start < s.size := (h.reached _ List.mem_cons_self).2
  have hlt : start < brace + 1 := (h.begun _ List.mem_cons_self id List.mem_cons_self).2.1
  have hle := le_next_readEnumerators (s := s) id o (brace + 1)
  have hbody := laid_readEnumerators h
  generalize hr : readEnumerators s id o (brace + 1) = r at hle hbody
  have hend : min r.2 s.size ≤ (enumEnd s inTypedef r.2).index + 1 := by
    unfold enumEnd
    split
    · simp only; omega
    · have := s.min_le_declaratorsEnd (r.2 + 1)
      omega
  have hstart : start ≤ (enumEnd s inTypedef r.2).index := by omega
  have hnoted : (if s.size ≤ r.2 then r.1.note [⟨r.2, .noClosingBrace⟩] else r.1).Laid s
      (⟨start, [id]⟩ :: edges) r.2 := by
    split
    · exact hbody.note _
    · exact hbody
  have hclaim := ((hnoted.note (enumEnd s inTypedef r.2).notes).mono hend).claim_opened
    List.mem_cons_self List.mem_cons_self (show start ≤ min r.2 (enumEnd s inTypedef r.2).index by
      omega) (Nat.min_le_left _ _)
  have hfinish := (hclaim.finish (max (enumEnd s inTypedef r.2).index start) (by omega)).pop
  have hdone := (hfinish.mono (show min (max (enumEnd s inTypedef r.2).index start + 1) s.size ≤
    (enumEnd s inTypedef r.2).index + 1 by omega)).done
  rw [readEnumBody, hr]
  exact hdone

theorem laid_readEnumeration {inTypedef : Bool} (h : o.Laid s (⟨start, []⟩ :: edges) next)
    (hscope : scope.Within edges) (hstart : start ≤ i) (hnext : next ≤ i) :
    (o.readEnumeration s scope start i inTypedef).Laid s edges := by
  have hlt := s.lt_enumHead o.macros i
  have hp := parent_lt_size h hscope
  rw [readEnumeration_eq]
  replace h := h.note (s.skipDecorations o.macros (s.enumKeyEnd i)).notes
  generalize (s.enumHead o.macros i).2 = j at hlt
  unfold readEnumerationFrom
  split
  · exact laid_readEnumBody (h.head .enumDecl _ hp (by omega) (by omega))
  split
  · exact (h.mono (show min next s.size ≤ j by omega)).pop.done
  split
  · exact (h.add _ _ hp (by omega) (by omega)).done
  · exact laid_readPlain h hscope hstart hnext

/-! ## Type definitions -/

theorem lt_size_of_startsRecord (h : startsRecord s i = true) : i < s.size := by
  simp only [startsRecord, Bool.or_eq_true] at h
  rcases h with (h | h) | h <;> exact lt_size_of_is h

theorem laid_readTypedef (h : o.Laid s (⟨start, []⟩ :: edges) next) (hscope : scope.Within edges)
    (hstart : start ≤ i) (hnext : next ≤ i) : (o.readTypedef s scope start i).Laid s edges := by
  have hm := h.mono (show min next s.size ≤ i + 1 by omega)
  rw [readTypedef_eq]
  split
  · rename_i hkey
    have hlt := lt_size_of_startsRecord hkey
    have hnext : i + 1 < (o.readRecord s scope (i + 1) (i + 1) false (some start)).next :=
      lt_next_readRecord hlt (Nat.le_refl _)
    have hr : LaidRecord s edges (some start)
        (o.readRecord s scope (i + 1) (i + 1) false (some start)) :=
      laid_readRecord (hm.push hlt) hscope (Nat.le_refl _) (Nat.le_refl _)
    unfold readTypedefAfter
    rcases hr with ⟨hopened, hr⟩ | ⟨hopened, hr⟩
    · obtain ⟨f, hf⟩ := Option.isSome_iff_exists.1 hopened
      rw [hf]
      exact hr
    · rw [hopened]
      exact laid_readTypedefRest hr hscope (by omega)
  split
  · rename_i hkey
    have hlt := lt_size_of_is hkey
    have hnext : i + 1 < (o.readEnumeration s scope (i + 1) (i + 1) true).next :=
      lt_next_readEnumeration hlt (Nat.le_refl _)
    have hr : (o.readEnumeration s scope (i + 1) (i + 1) true).Laid s (⟨start, []⟩ :: edges) :=
      laid_readEnumeration (hm.push hlt) (Scope.within_cons hscope _) (Nat.le_refl _)
        (Nat.le_refl _)
    have hout := hr.outline
    rw [opened_readEnumeration] at hout
    rw [readTypedefAfter, opened_readEnumeration]
    exact laid_readTypedefRest hout hscope (by omega)
  · exact laid_readTypedefRest hm hscope (by omega)

/-! ## All declarations -/

theorem macroCallEnd_lt {macros : Macros} (hi : i < s.size) :
    s.macroCallEnd macros i < s.size := by
  unfold macroCallEnd
  split
  · rename_i hcall
    simp only [Bool.and_eq_true] at hcall
    exact groupEnd_lt (lt_size_of_is hcall.2)
  · exact hi

/-- The call of a macro is a cursor at once, whatever it decorates. -/
theorem laid_addMacroCall (h : o.Laid s edges i) (hi : i < s.size) :
    (o.addMacroCall s i).1.Laid s edges (s.macroCallEnd o.macros i + 1) :=
  ((h.note _).push hi).add .macroInstantiation (s.spelling i) h.file (s.le_macroCallEnd o.macros i)
    (by have := s.le_macroCallEnd o.macros i; omega)

/-- The `;` behind the call of a macro belongs to it. -/
theorem laid_claimSemicolon (h : o.Laid s edges i) (hi : i < s.size)
    (hsemicolon : s.is (s.macroCallEnd o.macros i + 1) ";" = true) :
    ((o.addMacroCall s i).1.claim (s.macroCallEnd o.macros i + 1) (s.macroCallEnd o.macros i + 1)
      (o.addMacroCall s i).2).Laid s edges (s.macroCallEnd o.macros i + 2) := by
  have hle := s.le_macroCallEnd o.macros i
  have hcall := laid_addMacroCall h hi
  have hdraft : (o.addMacroCall s i).1.drafts[(o.addMacroCall s i).2]? =
      some ⟨.macroInstantiation, s.spelling i, i, max (s.macroCallEnd o.macros i) i, some 0⟩ :=
    (Laid.getElem?_declare (o := o.note _) o.drafts.size).trans (if_pos rfl)
  refine (hcall.mono (show min (s.macroCallEnd o.macros i + 1) s.size ≤
    s.macroCallEnd o.macros i + 2 by omega)).claim (Nat.min_le_left _ _) fun k hk hk' _ => ?_
  obtain rfl : k = s.macroCallEnd o.macros i + 1 := Nat.le_antisymm hk' hk
  simp only [is, Bool.and_eq_true, beq_iff_eq] at hsemicolon
  have hlast : s.macroCallEnd o.macros i + 1 = max (s.macroCallEnd o.macros i) i + 1 := by omega
  exact .inr ⟨_, hdraft, by simp only; omega, .inr (.inr ⟨rfl, hlast, hsemicolon.2⟩)⟩

/-- **Reading a declaration keeps the outline laid out.** -/
theorem laid_readDeclaration (h : o.Laid s (⟨start, []⟩ :: edges) i) (hscope : scope.Within edges)
    (hstart : start ≤ i) : (readDeclaration s scope start o i templated).Laid s edges := by
  fun_induction readDeclaration s scope start o i templated with
  | case1 o i templated hi hb =>
    simp only [Bool.and_eq_true, decide_eq_true_eq] at hb
    have hadd := h.add .unexposedDecl "" (parent_lt_size h hscope) (show start ≤ i - 1 by omega)
      (by omega)
    exact (hadd.mono (show min (i - 1 + 1) s.size ≤ i by omega)).done
  | case2 o i templated hi _ _ last o' id hcall hsemicolon =>
    have hclaim := laid_claimSemicolon h hi hsemicolon
    rw [hcall] at hclaim
    exact hclaim.pop.done
  | case3 o i templated hi _ _ last o' id hcall _ =>
    have hadd := laid_addMacroCall h hi
    rw [hcall] at hadd
    exact hadd.pop.done
  | case4 o i templated hi _ _ last o' id hcall _ _ ih =>
    have hle : i ≤ last := s.le_macroCallEnd o.macros i
    have hadd := laid_addMacroCall h hi
    rw [hcall] at hadd
    exact ih hadd (by omega)
  | case5 o i templated hi _ _ keyword ha =>
    have hle := le_of_announced (.inl ha)
    exact laid_readNamespace h hscope (by omega) hle
  | case6 o i templated hi _ _ brace ha =>
    have hle := le_of_announced (.inr ha)
    exact laid_readLinkage h hscope (by omega) hle
  | case7 o i templated hi _ _ ha ih =>
    exact ih (h.mono (show min i s.size ≤ i + 1 by omega)) (by omega)
  | case8 o i templated hi _ _ ha => exact laid_readModule h hscope hstart (Nat.le_refl i)
  | case9 o i templated hi _ _ ha ih =>
    have hle := le_angleEnd (lt_size_of_is (is_of_announced ha))
    exact ih (h.mono (by omega)) (by omega)
  | case10 o i templated hi _ _ ha =>
    exact (h.add .accessSpecifier "" (parent_lt_size h hscope) (by omega) (by omega)).done
  | case11 o i templated hi _ _ ha =>
    have hr : LaidRecord s edges none (o.readRecord s scope start i templated none) :=
      laid_readRecord h hscope hstart (Nat.le_refl i)
    rcases hr with ⟨-, hr⟩ | ⟨hopened, hr⟩
    · exact hr
    · refine ⟨?_, fun f hf => ?_⟩
      · rw [hopened]
        exact hr
      · rw [hopened] at hf
        cases hf
  | case12 o i templated hi _ _ ha => exact laid_readEnumeration h hscope hstart (Nat.le_refl i)
  | case13 o i templated hi _ _ ha => exact laid_readUsing h hscope hstart (Nat.le_refl i)
  | case14 o i templated hi _ _ ha => exact laid_readTypedef h hscope hstart (Nat.le_refl i)
  | case15 o i templated hi _ _ kind ha => exact laid_readSimple h hscope hstart (Nat.le_refl i)
  | case16 o i templated hi _ _ ha => exact laid_readPlain h hscope hstart (Nat.le_refl i)
  | case17 o i templated hi => exact h.pop.done

/-! ## Closing scopes -/

theorem laid_reachTo_all {first : Nat} (last : Nat) (ids : List CursorId)
    (h : o.Laid s (⟨first, ids⟩ :: edges) (last + 1)) :
    (ids.foldl (fun o id => o.reachTo id last) o).Laid s edges (last + 1) := by
  induction ids generalizing o with
  | nil => exact h.pop
  | cons id ids ih => exact ih (h.finish last (Nat.min_le_left _ _))

/-- Where the class ends that a type definition begins with, the type definition goes on. -/
theorem laid_typedefRecord {outer after : Nat}
    (h : o.Laid s (⟨start, [id]⟩ :: ⟨outer, []⟩ :: edges) after) :
    ((o.claim (min after (after - 1)) (after - 1) id).reachTo id (max (after - 1) start)).Laid s
      (⟨outer, []⟩ :: edges) (after - 1 + 1) := by
  have hlt : start < after := (h.begun _ List.mem_cons_self id List.mem_cons_self).2.1
  have hclaim := (h.mono (show min after s.size ≤ after - 1 + 1 by omega)).claim_opened
    List.mem_cons_self List.mem_cons_self (show start ≤ min after (after - 1) by omega)
    (Nat.min_le_left _ _)
  have hfinish := (hclaim.finish (max (after - 1) start) (by omega)).pop
  exact hfinish.mono (by omega)

/-- **Closing a scope takes its edges away.** -/
theorem laid_close {closing : Closing} {after : Nat}
    (h : o.Laid s (closing.edges ++ edges) after) (hscope : scope.Within edges) :
    (close s scope closing o after).1.Laid s edges (close s scope closing o after).2 := by
  cases closing with
  | linkage id start =>
    have hlt : start < after := (h.begun _ List.mem_cons_self id List.mem_cons_self).2.1
    have hfinish := h.finish (max (after - 1) start) (by omega)
    exact hfinish.pop.mono (by simp only [close]; omega)
  | namespaces ids start =>
    cases ids with
    | nil => exact h.pop
    | cons id ids =>
      have hlt : start < after := (h.begun _ List.mem_cons_self id List.mem_cons_self).2.1
      have hall := laid_reachTo_all (max (after - 1) start) (id :: ids)
        (h.mono (by omega))
      exact hall.mono (by simp only [close]; omega)
  | record id start =>
    have hs : start < s.size := (h.reached _ List.mem_cons_self).2
    have hlt : start < after := (h.begun _ List.mem_cons_self id List.mem_cons_self).2.1
    have hreach := s.min_le_declaratorsEnd after
    have hclaim := ((h.note (declaratorsEnd s after).notes).mono hreach).claim_opened
      List.mem_cons_self List.mem_cons_self
      (show start ≤ min after (declaratorsEnd s after).index by omega) (Nat.min_le_left _ _)
    have hfinish := hclaim.finish (max (declaratorsEnd s after).index start) (by omega)
    exact hfinish.pop.mono (by simp only [close]; omega)
  | typedefRecord id start outer =>
    have hlt : start < after := (h.begun _ List.mem_cons_self id List.mem_cons_self).2.1
    have houter : outer ≤ start :=
      (List.pairwise_cons.1 h.sorted).1 ⟨outer, []⟩ List.mem_cons_self
    exact (laid_readTypedefRest (laid_typedefRecord h) hscope (by omega)).outline

/-! ## Reading a whole text -/

/-- The scopes whose bodies are open lie within one another. -/
def Frame.Nested : List Frame → Prop
  | [] => True
  | f :: around => f.scope.Within (Frame.edges (f :: around)) ∧ Nested around

theorem within_scopeOf {frames : List Frame} (h : Frame.Nested frames) :
    (scopeOf frames).Within (Frame.edges frames) := by
  cases frames with
  | nil => exact Scope.within_file
  | cons f around => exact h.1

/-- **One step keeps the outline laid out.** -/
theorem laid_step {frames : List Frame} (h : o.Laid s (Frame.edges frames) i)
    (hframes : Frame.Nested frames) (hi : i < s.size) :
    (step s o frames i).outline.Laid s (Frame.edges (step s o frames i).frames)
        (step s o frames i).next ∧
      Frame.Nested (step s o frames i).frames := by
  have hscope := within_scopeOf hframes
  unfold step
  simp only
  split
  · exact ⟨h.claim_next hscope.owner, hframes⟩
  split
  · exact ⟨laid_readDirective h hi, hframes⟩
  split
  · cases frames with
    | nil => exact ⟨(h.note _).mono (by simp only; omega), trivial⟩
    | cons f around =>
      have hclaim := h.claim_next hscope.owner
      exact ⟨laid_close hclaim (within_scopeOf hframes.2), hframes.2⟩
  split
  · exact ⟨h.claim_next hscope.owner, hframes⟩
  · have hr : (readDeclaration s (scopeOf frames) i o i false).Laid s (Frame.edges frames) :=
      laid_readDeclaration (h.push hi) hscope (Nat.le_refl i)
    have hout := hr.outline
    have hin := hr.scope
    generalize readDeclaration s (scopeOf frames) i o i false = r at hout hin ⊢
    cases hopened : r.opened with
    | none =>
      rw [hopened] at hout
      exact ⟨hout, hframes⟩
    | some f =>
      rw [hopened] at hout
      simp only [Option.toList_some, Frame.edges_cons, Frame.edges_nil, List.append_nil] at hout
      exact ⟨hout, hin f hopened, hframes⟩

/-- Where the text ends, no scope is left open. -/
theorem laid_closeAll {frames : List Frame} (h : o.Laid s (Frame.edges frames) i)
    (hframes : Frame.Nested frames) : ∃ next, (closeAll s frames o i).Laid s [] next := by
  induction frames generalizing o i with
  | nil => exact ⟨i, h⟩
  | cons f around ih => exact ih (laid_close (h.note _) (within_scopeOf hframes.2)) hframes.2

/-- **Reading to the end keeps the outline laid out.** -/
theorem laid_readFrom {frames : List Frame} (h : o.Laid s (Frame.edges frames) i)
    (hframes : Frame.Nested frames) : ∃ next, (readFrom s o frames i).Laid s [] next := by
  fun_induction readFrom s o frames i with
  | case1 o frames i hi r ih =>
    obtain ⟨hout, hnested⟩ := laid_step h hframes hi
    exact ih hout hnested
  | case2 o frames i hi => exact laid_closeAll h hframes

/-- At the start there is no cursor but the file. -/
theorem eq_zero_of_start {fileName : String} {size : Nat} {macros : Macros} {d : Draft}
    (hd : (Outline.start fileName size macros).drafts[id]? = some d) : id = 0 := by
  have hlt : id < 1 := (Array.getElem?_eq_some_iff.1 hd).1
  exact Nat.lt_one_iff.1 hlt

theorem laid_start (s : Source) (fileName : String) (macros : Macros) :
    (Outline.start fileName s.size macros).Laid s [] 0 where
  size := Array.size_replicate
  root := ⟨_, rfl, rfl⟩
  parents _ _ hid hd := absurd (eq_zero_of_start hd) (Nat.ne_of_gt hid)
  scopes _ _ hid := by cases hid
  sorted := List.Pairwise.nil
  reached _ he := by cases he
  begun _ he := by cases he
  closed _ _ hid _ hd := absurd (eq_zero_of_start hd) (Nat.ne_of_gt hid)
  fits _ _ _ _ hid _ _ _ hd _ := absurd (eq_zero_of_start hd) (Nat.ne_of_gt hid)
  owned k id hk := by
    simp [Outline.start, Array.getElem?_replicate] at hk

/-- **The outline of a text is laid out**, whatever the text. -/
theorem laid_ofSource (fileName : String) (macros : Macros) (s : Source) :
    ∃ next, (ofSource fileName macros s).Laid s [] next :=
  laid_readFrom (laid_start s fileName macros) trivial

end Outline

end DocIndex
