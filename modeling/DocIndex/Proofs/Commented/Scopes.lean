import DocIndex.Proofs.Commented.Statements

/-!
# Scopes with one comment more

A namespace, a class or a linkage block is recognised by what its head ends with. A comment in front
of the head or behind it makes no difference; one inside of the head may, so the readings are
compared only where the comment stands outside of what is read.

* `readNamespace_alike`, `readRecord_alike`, `readLinkage_alike` — what the heads open.
-/

namespace DocIndex

namespace Source.Commented

variable {s s' : Source} {k i i' : Nat} (h : s.Commented s' k)
include h

theorem baseListEnd_comment :
    (s'.baseListEnd k).index = (s'.baseListEnd (k + 1)).index := by
  rw [baseListEnd, dif_pos h.lt_size]
  simp (disch := decide) only [h.is_comment, Bool.or_self, Bool.false_eq_true, if_false]

/-- A list of base classes ends where it does without the comment. -/
theorem baseListEnd_past (hi : Abreast k i i') :
    (s'.baseListEnd i').index = past k (s.baseListEnd i).index := by
  rw [hi.congr (f := fun i => (s'.baseListEnd i).index) h.baseListEnd_comment]
  clear hi
  have hnext {i i' : Nat} (hi : Abreast k i i')
      (hpast : (s'.baseListEnd (past k i)).index = past k (s.baseListEnd i).index) :
      (s'.baseListEnd i').index = past k (s.baseListEnd i).index := by
    rw [hi.congr (f := fun i => (s'.baseListEnd i).index) h.baseListEnd_comment, hpast]
  fun_induction baseListEnd s i with
  | case1 i hlt hend =>
    rw [baseListEnd, dif_pos (h.lt_size_past.2 hlt), h.is_past, h.is_past, if_pos hend]
  | case2 i hlt hend hangle ih =>
    rw [baseListEnd, dif_pos (h.lt_size_past.2 hlt), h.is_past, h.is_past, if_neg hend, h.is_past,
      if_pos hangle]
    exact hnext (h.angleEnd_past i) ih
  | case3 i hlt hend hangle hopen r ih =>
    rw [baseListEnd, dif_pos (h.lt_size_past.2 hlt), h.is_past, h.is_past, if_neg hend, h.is_past,
      if_neg hangle, h.is_past, if_pos hopen, h.groupEnd_past]
    exact hnext (abreast_succ k _) ih
  | case4 i hlt hend hangle hopen ih =>
    rw [baseListEnd, dif_pos (h.lt_size_past.2 hlt), h.is_past, h.is_past, if_neg hend, h.is_past,
      if_neg hangle, h.is_past, if_neg hopen]
    exact hnext (abreast_succ k _) ih
  | case5 i hlt => rw [baseListEnd, dif_neg (mt h.lt_size_past.1 hlt)]

end Source.Commented

namespace Outline

variable {s s' : Source} {k : Nat} (h : s.Commented s' k) (hl : s.Loose k) {scope : Scope}
  {o o' : Outline} (ho : o.Alike o') {start start' i i' : Nat} {templated : Bool}

open Source

/-! ## Linkage blocks -/

include ho in
theorem readLinkage_alike {brace : Nat} :
    (o.readLinkage scope start brace).Alike k (o'.readLinkage scope start' (past k brace)) := by
  have hid := ho.declare_id .unexposedDecl "" start start' brace (past k brace) scope.parent
  simp only [readLinkage, hid]
  exact ⟨(ho.declare ..).claim .., abreast_succ k brace, rfl⟩

/-! ## Namespaces -/

include ho in
theorem openNamespaces_alike (start start' brace brace' : Nat) (parent : CursorId)
    (path : List String) (ids : List CursorId) (names : List String) :
    (openNamespaces start brace parent path ids names o).1.Alike
        (openNamespaces start' brace' parent path ids names o').1 ∧
      (openNamespaces start' brace' parent path ids names o').2 =
        (openNamespaces start brace parent path ids names o).2 := by
  induction names generalizing o o' parent path ids with
  | nil => exact ⟨ho, rfl⟩
  | cons name names ih =>
    have hid := ho.declare_id .namespaceDecl name start start' brace brace' parent
    simp only [openNamespaces, hid]
    split
    · exact ih (ho.declare ..) ..
    · exact ih ((ho.declare ..).openScope ..) ..

theorem notes_openNamespaces {brace : Nat} (parent : CursorId) (path : List String)
    (ids : List CursorId) (names : List String) :
    (openNamespaces start brace parent path ids names o).1.notes = o.notes := by
  induction names generalizing o parent path ids with
  | nil => rfl
  | cons name names ih =>
    simp only [openNamespaces]
    split
    · rw [ih, notes_declare]
    · rw [ih, notes_openScope, notes_declare]

/-- Reads on behind the head of a namespace with these names, at `j`. -/
def readNamespaceFrom (s : Source) (scope : Scope) (start : Nat) (names : List String)
    (o : Outline) (j : Nat) : Outcome :=
  if s.is j "=" then
    let e := s.statementEnd j
    ((o.note e.notes).add .namespaceAlias (names.headD "") start e.index scope.parent).done
      (e.index + 1)
  else if s.is j "\x7b" then
    let r := openNamespaces start j scope.parent scope.path []
      (if names.isEmpty then [""] else names) o
    (r.1.claim start j r.2.2.1).enter (j + 1) (.ofNamespace r.2.2.1 r.2.2.2)
      (.namespaces r.2.1 start)
  else (o.note [⟨j, .noNamespaceBody⟩]).readPlain s scope start j false

theorem readNamespace_eq :
    o.readNamespace s scope start i =
      (o.note (s.skipBrackets (s.namespaceNames [] (i + 1)).2).notes).readNamespaceFrom s scope
        start (s.namespaceHead (i + 1)).1 (s.namespaceHead (i + 1)).2 :=
  rfl

/-- A namespace that nothing is wrong with has a body or is an alias. -/
theorem is_of_readNamespaceFrom {names : List String} {j : Nat}
    (hn : (o.readNamespaceFrom s scope start names j).outline.notes = []) :
    (s.is j "=" = true ∧ (s.statementEnd j).notes = []) ∨ s.is j "\x7b" = true := by
  unfold readNamespaceFrom at hn
  split at hn
  · rename_i hassign
    simp only [done, notes_add, notes_note, List.append_eq_nil_iff] at hn
    exact .inl ⟨hassign, hn.2⟩
  split at hn
  · rename_i hbrace
    exact .inr hbrace
  · rw [notes_readPlain, notes_note] at hn
    simp at hn

theorem lt_next_readNamespaceFrom {names : List String} {j : Nat}
    (hn : (o.readNamespaceFrom s scope start names j).outline.notes = []) :
    j < (o.readNamespaceFrom s scope start names j).next := by
  have hs := is_of_readNamespaceFrom hn
  unfold readNamespaceFrom
  rcases hs with ⟨hassign, hend⟩ | hbrace
  · rw [if_pos hassign]
    exact Nat.lt_succ_of_le (statementEnd_sound hend).2
  · have hassign : ¬ s.is j "=" = true := by
      simp only [is, Bool.and_eq_true, beq_iff_eq] at hbrace ⊢
      rw [hbrace.2]
      exact fun hj => absurd hj.2 (by decide)
    rw [if_neg hassign, if_pos hbrace]
    exact Nat.lt_succ_self j

include h ho in
theorem readNamespaceFrom_alike {names : List String} {j : Nat}
    (hn : (o.readNamespaceFrom s scope start names j).outline.notes = []) :
    (o.readNamespaceFrom s scope start names j).Alike k
      (o'.readNamespaceFrom s' scope start' names (past k j)) := by
  have hs := is_of_readNamespaceFrom hn
  unfold readNamespaceFrom
  simp only [h.is_past]
  split
  · rename_i hassign
    have hend : (s.statementEnd j).notes = [] := hs.elim (·.2) fun hbrace => by
      simp only [is, Bool.and_eq_true, beq_iff_eq] at hassign hbrace
      exact absurd (hassign.2.symm.trans hbrace.2) (by decide)
    have hpast := h.statementEnd_past hend (abreast_past k j)
    exact ⟨(ho.note _ _).add .., by simp only [done, hpast]; exact abreast_succ k _, rfl⟩
  · rename_i hassign
    have hbrace := hs.resolve_left fun hs => hassign hs.1
    obtain ⟨hopened, hids⟩ := openNamespaces_alike ho start start' j (past k j) scope.parent
      scope.path [] (if names.isEmpty then [""] else names)
    simp only [if_pos hbrace, hids]
    exact ⟨hopened.claim .., abreast_succ k j, rfl⟩

include h ho in
/-- **A namespace or an alias of one is recognised with a comment in front of it or behind.** -/
theorem readNamespace_alike (hi : i' = past k i)
    (hm : k ≤ i ∨ (o.readNamespace s scope start i).next ≤ k)
    (hn : (o.readNamespace s scope start i).outline.notes = []) :
    (o.readNamespace s scope start i).Alike k (o'.readNamespace s' scope start' i') := by
  subst hi
  rw [readNamespace_eq] at hm hn ⊢
  rw [readNamespace_eq]
  have hnext := lt_next_readNamespaceFrom hn
  rcases h.namespaceHead_past (abreast_succ k i) with hhead | ⟨hk, hstuck⟩
  · rw [hhead]
    exact readNamespaceFrom_alike h (ho.note ..) hn
  · have hge := le_namespaceHead s' (past k i + 1)
    have hle := hstuck.le
    have := past_cases k i
    omega

/-! ## Classes -/

/-- Opens the body of a class whose head has been read, at `brace`. -/
def openRecord (scope : Scope) (n : RecordName) (kind : CursorKind) (start : Nat)
    (parent : CursorId) (outer : Option Nat) (o : Outline) (brace : Nat) : Outcome :=
  let r := o.declare kind n.name start brace parent
  let o := r.1.claim start brace r.2
  let path := scope.path ++ n.qualifier
  let closing :=
    match outer with
    | none => .record r.2 start
    | some outer => .typedefRecord r.2 start outer
  if n.name.isEmpty then o.enter (brace + 1) (.ofRecord r.2 n.name path) closing
  else
    (o.openScope path n.name r.2).enter (brace + 1)
      (.ofRecord r.2 n.name (path ++ [n.name])) closing

theorem next_openRecord {n : RecordName} {kind : CursorKind} {parent : CursorId}
    {outer : Option Nat} {brace : Nat} :
    (openRecord scope n kind start parent outer o brace).next = brace + 1 := by
  simp only [openRecord]
  split <;> rfl

theorem notes_openRecord {n : RecordName} {kind : CursorKind} {parent : CursorId}
    {outer : Option Nat} {brace : Nat} :
    (openRecord scope n kind start parent outer o brace).outline.notes = o.notes := by
  simp only [openRecord]
  split <;> simp [enter]

include ho in
theorem openRecord_alike {n n' : RecordName} (hname : n'.name = n.name)
    (hqualifier : n'.qualifier = n.qualifier) {kind : CursorKind} {parent : CursorId}
    {outer outer' : Option Nat} (houter : outer'.isSome = outer.isSome) {brace : Nat} :
    (openRecord scope n kind start parent outer o brace).Alike k
      (openRecord scope n' kind start' parent outer' o' (past k brace)) := by
  have hid := ho.declare_id kind n.name start start' brace (past k brace) parent
  have hopened := (ho.declare kind n.name start start' brace (past k brace) parent).claim start
    start' brace (past k brace) (o.declare kind n.name start brace parent).2
    (o'.declare kind n.name start' (past k brace) parent).2
  simp only [openRecord, hname, hqualifier, hid] at hopened ⊢
  have hclosing (id : CursorId) :
      (match outer' with
        | none => Closing.record id start'
        | some outer => .typedefRecord id start' outer).bare =
      (match outer with
        | none => Closing.record id start
        | some outer => .typedefRecord id start outer).bare := by
    cases outer <;> cases outer' <;> first | rfl | cases houter
  split
  · exact ⟨hopened, abreast_succ k brace,
      congrArg (fun c => some (Frame.mk _ c)) (hclosing _)⟩
  · exact ⟨hopened.openScope .., abreast_succ k brace,
      congrArg (fun c => some (Frame.mk _ c)) (hclosing _)⟩

/-- Reads on behind the head of a class with this name, at `j`. -/
def readRecordFrom (s : Source) (scope : Scope) (start key : Nat) (templated : Bool)
    (outer : Option Nat) (n : RecordName) (parent : CursorId) (o : Outline) (j : Nat) : Outcome :=
  let kind := recordKind templated n.isSpecialized (s.spelling key)
  if s.is j "\x7b" then openRecord scope n kind start parent outer o j
  else if s.is j ":" then
    let b := s.baseListEnd (j + 1)
    let o := o.note b.notes
    if s.is b.index "\x7b" then openRecord scope n kind start parent outer o b.index
    else
      let last := min b.index (s.size - 1)
      ((o.note [⟨b.index, .noClassBody⟩]).add kind n.name start last parent).done (last + 1)
  else if outer.isSome then o.done j
  else if s.is j ";" then (o.add kind n.name start j parent).done (j + 1)
  else o.readPlain s scope start key templated

theorem readRecord_eq {outer : Option Nat} :
    o.readRecord s scope start i templated outer =
      readRecordFrom s scope start i templated outer (s.recordHead o.macros (i + 1)).1
        ((o.resolve scope.path (s.recordHead o.macros (i + 1)).1.qualifier).getD scope.parent)
        (o.note (s.skipDecorations o.macros (i + 1)).notes)
        (s.recordHead o.macros (i + 1)).2 :=
  rfl

/-- Reading goes on behind the head of a class, unless the class is left to a type definition or is
no more than a type. -/
theorem readRecordFrom_cases {outer : Option Nat} {n : RecordName} {parent : CursorId} {j : Nat}
    (hn : (readRecordFrom s scope start i templated outer n parent o j).outline.notes = []) :
    j < (readRecordFrom s scope start i templated outer n parent o j).next ∨
      (outer.isSome = true ∧
        readRecordFrom s scope start i templated outer n parent o j = o.done j) ∨
      (outer.isSome = false ∧ readRecordFrom s scope start i templated outer n parent o j =
        o.readPlain s scope start i templated) := by
  unfold readRecordFrom at hn ⊢
  simp only at hn ⊢
  split at hn
  · rename_i hbrace
    rw [if_pos hbrace, next_openRecord]
    exact .inl (Nat.lt_succ_self j)
  rename_i hbrace
  rw [if_neg hbrace]
  split at hn
  · rename_i hcolon
    have hle := le_baseListEnd (s := s) (j + 1)
    rw [if_pos hcolon]
    split at hn
    · rename_i hbody
      rw [if_pos hbody, next_openRecord]
      exact .inl (by omega)
    · simp [done] at hn
  rename_i hcolon
  rw [if_neg hcolon]
  cases houter : outer.isSome with
  | true => exact .inr (.inl ⟨rfl, rfl⟩)
  | false =>
    simp only [Bool.false_eq_true, if_false]
    split
    · exact .inl (Nat.lt_succ_self j)
    · exact .inr (.inr ⟨trivial, rfl⟩)

include h hl ho in
/-- Behind its head a class is recognised. -/
theorem readRecordFrom_alike {outer outer' : Option Nat} (houter : outer'.isSome = outer.isSome)
    {n n' : RecordName} (hname : n' = { n with index := past k n.index })
    {parent : CursorId} {j : Nat}
    (hm : k ≤ i ∨ (readRecordFrom s scope start i templated outer n parent o j).next ≤ k)
    (hn : (readRecordFrom s scope start i templated outer n parent o j).outline.notes = []) :
    (readRecordFrom s scope start i templated outer n parent o j).Alike k
      (readRecordFrom s' scope start' (past k i) templated outer' n' parent o' (past k j)) := by
  subst hname
  have hbase := h.baseListEnd_past (abreast_succ k j)
  unfold readRecordFrom at hm hn ⊢
  simp only [h.is_past, h.spelling, hbase, houter] at hm hn ⊢
  split
  · exact openRecord_alike ho rfl rfl houter
  split
  · rename_i hbrace hcolon
    simp only [if_neg hbrace, if_pos hcolon] at hn
    split
    · exact openRecord_alike (ho.note ..) rfl rfl houter
    · rename_i hbody
      simp [if_neg hbody, done] at hn
  split
  · exact ⟨ho, abreast_past k j, rfl⟩
  split
  · exact ⟨ho.add .., abreast_succ k j, rfl⟩
  · rename_i hbrace hcolon htypedef hsemi
    simp only [if_neg hbrace, if_neg hcolon, if_neg htypedef, if_neg hsemi] at hm hn
    exact readPlain_alike h hl ho (abreast_past k i)
      (fun j hj hk _ => hm.resolve_left (by omega)) hn

include h hl ho in
/-- **A class is recognised with a comment in front of it or behind its head.** -/
theorem readRecord_alike {outer outer' : Option Nat} (houter : outer'.isSome = outer.isSome)
    (hi : i' = past k i)
    (hm : k ≤ i ∨ (o.readRecord s scope start i templated outer).next ≤ k ∧
      (outer.isSome = true → (o.readRecord s scope start i templated outer).opened = none →
        (o.readRecord s scope start i templated outer).next < k))
    (hn : (o.readRecord s scope start i templated outer).outline.notes = []) :
    (o.readRecord s scope start i templated outer).Alike k
      (o'.readRecord s' scope start' i' templated outer') := by
  subst hi
  rw [readRecord_eq] at hm hn ⊢
  rw [readRecord_eq]
  have hnote := ho.note (s.skipDecorations o.macros (i + 1)).notes
    (s'.skipDecorations o'.macros (past k i + 1)).notes
  rw [ho.macros] at hnote ⊢
  rw [ho.resolve]
  rcases h.recordHead_past o.macros (abreast_succ k i) with hhead | ⟨hk, hstuck⟩
  · rw [hhead]
    exact readRecordFrom_alike h hl hnote houter rfl (hm.imp_right (·.1)) hn
  · have hge := s'.le_recordHead o.macros (past k i + 1)
    have hle := hstuck.le
    have hbefore : ¬ k ≤ i := by
      have := past_cases k i
      omega
    replace hm := hm.resolve_left hbefore
    -- what is read ends in front of the comment, so the head decided nothing
    rcases readRecordFrom_cases hn with hlt | ⟨houter', hdone⟩ | ⟨hnone, hplain⟩
    · omega
    · rw [hdone] at hm
      have hlt := hm.2 houter' rfl
      simp only [done] at hlt
      omega
    · rw [hplain] at hn hm ⊢
      have hplain' (n : RecordName) (parent : CursorId) (o' : Outline) :
          readRecordFrom s' scope start' (past k i) templated outer' n parent o'
              (s'.recordHead o.macros (past k i + 1)).2 =
            o'.readPlain s' scope start' (past k i) templated := by
        simp only [readRecordFrom, hstuck.is_eq "\x7b" (by decide), hstuck.is_eq ":" (by decide),
          hstuck.is_eq ";" (by decide), houter, hnone, Bool.false_eq_true, if_false]
      rw [hplain']
      exact readPlain_alike h hl hnote (abreast_past k i) (fun j _ _ _ => hm.1) hn

end Outline

end DocIndex
