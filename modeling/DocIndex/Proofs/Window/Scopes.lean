import DocIndex.Proofs.Window.Statements

/-!
# Namespaces, classes and enumerations within a window

A scope is recognised alike in both sources, if its head ends within the window. A class or an
enumeration whose head is followed by neither a body nor a `;` is no more than the type of a
declaration: then it is the declaration that is asked to end within the window, and the head as
well, since it may reach further.

* `readNamespace_moved`, `readLinkage_moved`, `readRecord_moved`, `readEnumeration_moved` — what
  heads open.
* `readTypedef_moved` — type definitions.
-/

namespace DocIndex

namespace Source

variable {s : Source} {i : Nat}

theorem namespaceNames_le (names : List String) (hi : i ≤ s.size) :
    (s.namespaceNames names i).2 ≤ s.size := by
  have hskip {i : Nat} (hi : i ≤ s.size) : s.skipInline i ≤ s.size := by
    unfold skipInline
    split
    · exact lt_size_of_is ‹_›
    · exact hi
  fun_induction namespaceNames s names i with
  | case1 names i j hname hcolons ih => exact ih (lt_size_of_is hcolons)
  | case2 names i j hname hcolons => exact lt_size_of_isIdentifier hname
  | case3 names i j hname => exact hskip hi

theorem skipBrackets_le (hi : i ≤ s.size) : (s.skipBrackets i).index ≤ s.size := by
  fun_induction skipBrackets s i with
  | case1 i hopen r ih => exact ih (groupEnd_lt (lt_size_of_is hopen))
  | case2 i hopen => exact hi

theorem namespaceHead_le (hi : i ≤ s.size) : (s.namespaceHead i).2 ≤ s.size :=
  skipBrackets_le (namespaceNames_le [] hi)

theorem enumKeyEnd_le (hi : i < s.size) : s.enumKeyEnd i ≤ s.size := by
  unfold enumKeyEnd
  split
  · rename_i hclass
    simp only [Bool.or_eq_true] at hclass
    rcases hclass with hclass | hclass <;> exact lt_size_of_is hclass
  · exact hi

end Source

namespace Outline

variable {w : Window} {s s' : Source} (h : s.Agrees w s') {scope : Scope} {o o' : Outline}
  (ho : o.Matches w o') {start start' i : Nat} {templated : Bool}

open Source

/-! ## Linkage blocks -/

include ho in
theorem readLinkage_moved {brace : Nat} (hbrace : w.first ≤ brace) (hstart : w.Same start start') :
    (o.readLinkage scope start brace).Matches w (o'.readLinkage scope start' (w.moved brace)) := by
  have hid := ho.declare_id .unexposedDecl "" start start' brace (w.moved brace) scope.parent
  simp only [readLinkage, hid]
  exact Matches.enter ((ho.declare _ _ _ hstart (Window.same_moved _)).claim _ hstart
    (Window.same_moved _)) (Window.moved_succ hbrace).symm _ (.linkage _ hstart)

/-! ## Namespaces -/

include ho in
theorem openNamespaces_matches {brace brace' : Nat} (hstart : w.Same start start')
    (hbrace : w.Same brace brace') (parent : CursorId) (path : List String)
    (ids : List CursorId) (names : List String) :
    (openNamespaces start brace parent path ids names o).1.Matches w
        (openNamespaces start' brace' parent path ids names o').1 ∧
      (openNamespaces start' brace' parent path ids names o').2 =
        (openNamespaces start brace parent path ids names o).2 := by
  induction names generalizing o o' parent path ids with
  | nil => exact ⟨ho, rfl⟩
  | cons name names ih =>
    have hid := ho.declare_id .namespaceDecl name start start' brace brace' parent
    have hdeclare := ho.declare .namespaceDecl name parent hstart hbrace
    simp only [openNamespaces, hid]
    split
    · exact ih hdeclare ..
    · exact ih (hdeclare.openScope ..) ..

theorem le_next_readNamespaceFrom {names : List String} {j : Nat} (hj : j ≤ s.size) :
    j ≤ (o.readNamespaceFrom s scope start names j).next := by
  unfold readNamespaceFrom
  split
  · exact le_succ_statementEnd hj
  split
  · exact Nat.le_succ j
  · rw [next_readPlain]
    exact le_succ_stop_shapeFrom (Nat.le_refl j) hj

include h ho in
theorem readNamespaceFrom_moved {names : List String} {j : Nat} (hj : w.Behind j)
    (hle : j ≤ s.size) (hstart : w.Same start start')
    (hs : w.Seen ((o.readNamespaceFrom s scope start names j).next + 1))
    (hqualified : s.is j "=" = false → s.is j "\x7b" = false → s.QualifiedWithin w o.macros j) :
    (o.readNamespaceFrom s scope start names j).Matches w
      (o'.readNamespaceFrom s' scope start' names (w.moved j)) := by
  have hseen : w.Seen j := w.seen_of_le hs (Nat.le_succ_of_le (le_next_readNamespaceFrom hle))
  unfold readNamespaceFrom at hs ⊢
  simp only [h.is_moved hj.le hseen]
  split
  · rename_i hassign
    rw [if_pos hassign] at hs
    have hend : w.Seen ((s.statementEnd j).index + 1) := w.seen_of_le hs (Nat.le_succ _)
    simp only [h.statementEnd_moved hj hend]
    exact Matches.done ((ho.note _ _).add _ _ _ hstart (Window.same_moved _))
      (Window.moved_succ (h.first_le_statementEnd hj)).symm
  rename_i hassign
  rw [if_neg hassign] at hs
  split
  · obtain ⟨hopened, hids⟩ := openNamespaces_matches ho hstart (Window.same_moved j) scope.parent
      scope.path [] (if names.isEmpty then [""] else names)
    simp only [hids]
    exact Matches.enter (hopened.claim _ hstart (Window.same_moved j))
      (Window.moved_succ hj.le).symm _ (.namespaces _ hstart)
  · rename_i hbrace
    rw [if_neg hbrace] at hs
    exact readPlain_moved h (ho.note _ _) hj hle hstart hs
      (hqualified (Bool.eq_false_iff.2 hassign) (Bool.eq_false_iff.2 hbrace))

include h ho in
/-- **A namespace or an alias of one is recognised alike.** -/
theorem readNamespace_moved (hi : w.first ≤ i) (hin : i < s.size) (hstart : w.Same start start')
    (hs : w.Seen ((o.readNamespace s scope start i).next + 1))
    (hqualified : s.is (s.namespaceHead (i + 1)).2 "=" = false →
      s.is (s.namespaceHead (i + 1)).2 "\x7b" = false →
        s.QualifiedWithin w o.macros (s.namespaceHead (i + 1)).2) :
    (o.readNamespace s scope start i).Matches w
      (o'.readNamespace s' scope start' (w.moved i)) := by
  have hle := le_namespaceHead s (i + 1)
  have hend := namespaceHead_le (s := s) (i := i + 1) hin
  rw [readNamespace_eq] at hs ⊢
  have hseen : w.Seen ((s.namespaceHead (i + 1)).2 + 1) :=
    w.seen_of_le hs (Nat.succ_le_succ (le_next_readNamespaceFrom hend))
  rw [readNamespace_eq, ← Window.moved_succ hi, h.namespaceHead_moved (Nat.le_succ_of_le hi) hseen]
  exact readNamespaceFrom_moved h (ho.note _ _) ((Window.behind_succ hi).mono hle) hend hstart hs
    hqualified

/-! ## Classes -/

include ho in
theorem openRecord_matches {n n' : RecordName} (hname : n'.name = n.name)
    (hqualifier : n'.qualifier = n.qualifier) {kind : CursorKind} {parent : CursorId}
    {outer outer' : Option Nat} (houter : Option.Rel w.Same outer outer') {brace : Nat}
    (hbrace : w.first ≤ brace) (hstart : w.Same start start') :
    (openRecord scope n kind start parent outer o brace).Matches w
      (openRecord scope n' kind start' parent outer' o' (w.moved brace)) := by
  have hid := ho.declare_id kind n.name start start' brace (w.moved brace) parent
  have hopened := (ho.declare kind n.name parent hstart (Window.same_moved brace)).claim
    (o.declare kind n.name start brace parent).2 hstart (Window.same_moved brace)
  have hnext := (Window.moved_succ hbrace).symm
  cases houter with
  | none =>
    simp only [openRecord, hname, hqualifier, hid]
    split
    · exact Matches.enter hopened hnext _ (.record _ hstart)
    · exact Matches.enter (hopened.openScope ..) hnext _ (.record _ hstart)
  | some houter =>
    simp only [openRecord, hname, hqualifier, hid]
    split
    · exact Matches.enter hopened hnext _ (.typedefRecord _ hstart houter)
    · exact Matches.enter (hopened.openScope ..) hnext _ (.typedefRecord _ hstart houter)

/-- Behind its head a class ends no earlier, unless it is no more than a type. -/
theorem le_next_readRecordFrom {outer : Option Nat} {n : RecordName} {parent : CursorId} {j : Nat}
    (houter : outer.isSome = true) :
    j ≤ (readRecordFrom s scope start i templated outer n parent o j).next := by
  unfold readRecordFrom
  have hbases := le_baseListEnd (s := s) (j + 1)
  simp only [houter, if_true]
  split
  · rw [next_openRecord]
    exact Nat.le_succ j
  split
  · rename_i hcolon
    have hlt := lt_size_of_is hcolon
    split
    · rw [next_openRecord]
      omega
    · simp only [done]
      omega
  · exact Nat.le_refl j

theorem next_readRecordFrom_le {outer : Option Nat} {n : RecordName} {parent : CursorId} {j : Nat}
    (houter : outer.isSome = true) (hj : j ≤ s.size) :
    (readRecordFrom s scope start i templated outer n parent o j).next ≤ s.size := by
  unfold readRecordFrom
  simp only [houter, if_true]
  split
  · rw [next_openRecord]
    exact lt_size_of_is ‹_›
  split
  · rename_i hcolon
    have hlt := lt_size_of_is hcolon
    split
    · rw [next_openRecord]
      exact lt_size_of_is ‹_›
    · simp only [done]
      omega
  · exact hj

include h in
/-- The last lexeme up to `i` is the same one, also at the end of the text. -/
theorem min_pred_moved (hi : w.first ≤ i) (hin : i ≤ s.size) (hs : w.Seen i) :
    min (w.moved i) (s'.size - 1) = w.moved (min i (s.size - 1)) := by
  rcases Nat.lt_or_eq_of_le hin with hlt | rfl
  · have := (h.lt_iff hi hs).2 hlt
    rw [Nat.min_eq_left (by omega), Nat.min_eq_left (by omega)]
  · have hpred := h.size_pred hs
    have hsize := h.size hs
    rw [Nat.min_eq_right (Nat.sub_le s.size 1), hpred, Nat.min_eq_right]
    omega

include h ho in
theorem readRecordFrom_moved {outer outer' : Option Nat} (houter : Option.Rel w.Same outer outer')
    {n : RecordName} {parent : CursorId} {j : Nat} (hi : w.Behind i) (hin : i < s.size)
    (hij : i ≤ j) (hstart : w.Same start start')
    (hs : w.Seen ((readRecordFrom s scope start i templated outer n parent o j).next + 1))
    (hseen : w.Seen (j + 1))
    (hqualified : outer = none → s.is j "\x7b" = false → s.is j ":" = false →
      s.is j ";" = false → s.QualifiedWithin w o.macros i) :
    (readRecordFrom s scope start i templated outer n parent o j).Matches w
      (readRecordFrom s' scope start' (w.moved i) templated outer' (n.map w.moved) parent o'
        (w.moved j)) := by
  have hle : w.first ≤ j := Nat.le_trans hi.le hij
  have hsome : outer'.isSome = outer.isSome := by cases houter <;> rfl
  have hjs := w.seen_of_le hseen (Nat.le_succ j)
  have hbases := le_baseListEnd (s := s) (j + 1)
  unfold readRecordFrom at hs ⊢
  simp only [h.is_moved hle hjs, h.spelling hi.le (w.seen_of_le hjs hij), hsome,
    ← Window.moved_succ hle] at hs ⊢
  split
  · exact openRecord_matches ho rfl rfl houter hle hstart
  rename_i hbrace
  rw [if_neg hbrace] at hs
  split
  · rename_i hcolon
    have hin' : j + 1 ≤ s.size := lt_size_of_is hcolon
    have hend := baseListEnd_le hin'
    have hb : w.first ≤ (s.baseListEnd (j + 1)).index := by omega
    have hbs : w.Seen ((s.baseListEnd (j + 1)).index + 1) := by
      refine w.seen_of_le hs ?_
      rw [if_pos hcolon]
      split
      · rw [next_openRecord]
        exact Nat.le_succ _
      · simp only [done]
        omega
    have hbs' := w.seen_of_le hbs (Nat.le_succ _)
    rw [h.baseListEnd_moved (Nat.le_succ_of_le hle) hin' hbs, h.is_moved hb hbs']
    split
    · exact openRecord_matches (ho.note _ _) rfl rfl houter hb hstart
    · have hlast := min_pred_moved h hb hend hbs'
      have hfirst : w.first ≤ min (s.baseListEnd (j + 1)).index (s.size - 1) := by
        have := h.behind_size.le_pred
        omega
      rw [hlast, ← Window.moved_succ hfirst]
      exact Matches.done (((ho.note _ _).note _ _).add _ _ _ hstart (Window.same_moved _)) rfl
  rename_i hcolon
  rw [if_neg hcolon] at hs
  split
  · exact Matches.done ho rfl
  rename_i hsome
  rw [if_neg hsome] at hs
  split
  · exact Matches.done (ho.add _ _ _ hstart (Window.same_moved j)) rfl
  · rename_i hsemi
    rw [if_neg hsemi] at hs
    have hnone : outer = none := by
      cases outer with
      | none => rfl
      | some _ => exact absurd rfl hsome
    exact readPlain_moved h ho hi (Nat.le_of_lt hin) hstart hs
      (hqualified hnone (Bool.eq_false_iff.2 hbrace) (Bool.eq_false_iff.2 hcolon)
        (Bool.eq_false_iff.2 hsemi))

include h ho in
/-- **A class is recognised alike.** -/
theorem readRecord_moved {outer outer' : Option Nat} (houter : Option.Rel w.Same outer outer')
    (hi : w.Behind i) (hin : i < s.size) (hstart : w.Same start start')
    (hs : w.Seen ((o.readRecord s scope start i templated outer).next + 1))
    (hhead : outer = none → w.Seen ((s.recordHead o.macros (i + 1)).2 + 1))
    (hqualified : outer = none → s.is (s.recordHead o.macros (i + 1)).2 "\x7b" = false →
      s.is (s.recordHead o.macros (i + 1)).2 ":" = false →
        s.is (s.recordHead o.macros (i + 1)).2 ";" = false → s.QualifiedWithin w o.macros i) :
    (o.readRecord s scope start i templated outer).Matches w
      (o'.readRecord s' scope start' (w.moved i) templated outer') := by
  have hle := le_recordHead s o.macros (i + 1)
  rw [readRecord_eq] at hs ⊢
  have hseen : w.Seen ((s.recordHead o.macros (i + 1)).2 + 1) := by
    cases houter with
    | none => exact hhead rfl
    | some _ => exact w.seen_of_le hs (Nat.succ_le_succ (le_next_readRecordFrom rfl))
  rw [readRecord_eq, ho.macros, ← Window.moved_succ hi.le,
    h.recordHead_moved (Nat.le_succ_of_le hi.le) hin hseen]
  simp only [RecordName.map, ho.resolve]
  exact readRecordFrom_moved h (ho.note _ _) houter hi hin (by omega) hstart hs hseen hqualified

/-! ## Enumerations -/

include h ho in
/-- **The enumerators of a body are recognised alike.** -/
theorem readEnumerators_moved (id : CursorId) (hi : w.Behind i) (hin : i ≤ s.size)
    (hs : w.Seen ((readEnumerators s id o i).2 + 1)) :
    (readEnumerators s id o i).1.Matches w (readEnumerators s' id o' (w.moved i)).1 ∧
      (readEnumerators s' id o' (w.moved i)).2 = w.moved (readEnumerators s id o i).2 := by
  have hstep {o' : Outline} {i : Nat} (hi : w.Behind i) (hlt : i < s.size) (hs : w.Seen i) :
      readEnumerators s' id o' (w.moved i) =
        if s.is i "\x7d" then (o', w.moved i)
        else if s.is i "#" && s.startsLine i then
          readEnumerators s' id (o'.readDirective s' (w.moved i)) (s'.lineEnd (w.moved i) + 1)
        else if s.isIdentifier i then
          readEnumerators s' id ((o'.note (s'.enumeratorEnd (w.moved i)).notes).add .enumConstantDecl
            (s.spelling i) (w.moved i)
            (s'.lastCode (w.moved i) (s'.enumeratorEnd (w.moved i)).index) id)
            ((s'.enumeratorEnd (w.moved i)).index + 1)
        else readEnumerators s' id (o'.claim (w.moved i) (w.moved i) id) (w.moved (i + 1)) := by
    rw [readEnumerators, if_pos ((h.lt_iff hi.le hs).2 hlt), h.is_moved hi.le hs,
      h.startsLine_moved hi hs, h.isIdentifier_moved hi.le hs, h.spelling hi.le hs,
      Window.moved_succ hi.le]
  fun_induction readEnumerators s id o i generalizing o' with
  | case1 o i hlt hbrace =>
    rw [hstep hi hlt (w.seen_of_le hs (Nat.le_succ i)), if_pos hbrace]
    exact ⟨ho, rfl⟩
  | case2 o i hlt hbrace hline ih =>
    have hle := le_lineEnd (s := s) i
    have hnext := le_next_readEnumerators (s := s) id (o.readDirective s i) (s.lineEnd i + 1)
    have hend : w.Seen (s.lineEnd i + 2) := w.seen_of_le hs (Nat.succ_le_succ hnext)
    have hline' := hline
    simp only [Bool.and_eq_true] at hline'
    have hlines := h.lines_of_hash hline'.1
    rw [hstep hi hlt (w.seen_of_le hend (by omega)), if_neg hbrace, if_pos hline,
      h.lineEnd_moved hlines hi.le (w.seen_of_le hend (Nat.le_succ _)),
      ← Window.moved_succ (Nat.le_trans hi.le hle)]
    exact ih (readDirective_moved h ho hi.le hline'.1 hend) (hi.mono (by omega)) (s.lineEnd_lt hlt)
      hs
  | case3 o i hlt hbrace hline hname e last =>
    rename_i ih
    have hle : i ≤ e.index := le_enumeratorEnd i
    have hnext := le_next_readEnumerators (s := s) id
      ((o.note e.notes).add .enumConstantDecl (s.spelling i) i last id) (e.index + 1)
    have hend : w.Seen (e.index + 1) := w.seen_of_le hs (Nat.le_succ_of_le hnext)
    have hmoved : (s'.enumeratorEnd (w.moved i)).index = w.moved e.index :=
      h.enumeratorEnd_moved hi.le hend
    have hlast : s'.lastCode (w.moved i) (w.moved e.index) = w.moved last :=
      h.lastCode_moved hi.le hle (w.seen_of_le hend (Nat.le_succ _))
    rw [hstep hi hlt (w.seen_of_le hend (by omega)), if_neg hbrace, if_neg hline, if_pos hname,
      hmoved, hlast, ← Window.moved_succ (Nat.le_trans hi.le hle)]
    exact ih ((ho.note _ _).add _ _ _ (Window.same_moved i) (Window.same_moved last))
      (hi.mono (by omega)) (enumeratorEnd_lt hlt) hs
  | case4 o i hlt hbrace hline hname ih =>
    have hnext := le_next_readEnumerators (s := s) id (o.claim i i id) (i + 1)
    rw [hstep hi hlt (w.seen_of_le hs (by omega)), if_neg hbrace, if_neg hline, if_neg hname]
    exact ih (ho.claim id (Window.same_moved i) (Window.same_moved i)) (hi.mono (Nat.le_succ i)) hlt
      hs
  | case5 o i hlt =>
    have hend : ¬ w.moved i < s'.size := by
      rwa [h.lt_iff hi.le (w.seen_of_le hs (Nat.le_succ i))]
    rw [readEnumerators, if_neg hend]
    exact ⟨ho, rfl⟩

/-- An enumeration reaches at least to where its body ends. -/
theorem le_succ_enumEnd (inTypedef : Bool) {brace : Nat} (hbrace : brace ≤ s.size) :
    brace ≤ (enumEnd s inTypedef brace).index + 1 := by
  unfold enumEnd
  split
  · simp only
    omega
  · have := s.min_le_declaratorsEnd (brace + 1)
    omega

include h in
theorem first_le_declaratorsEnd (hi : w.Behind i) : w.first ≤ (declaratorsEnd s i).index := by
  unfold declaratorsEnd
  split
  · exact hi.le
  split
  · exact h.first_le_statementEnd hi
  · exact hi.le_pred

include h in
theorem first_le_enumEnd (inTypedef : Bool) {brace : Nat} (hi : w.first ≤ brace) :
    w.first ≤ (enumEnd s inTypedef brace).index := by
  unfold enumEnd
  split
  · exact Nat.le_min_of_le_of_le hi h.behind_size.le_pred
  · exact first_le_declaratorsEnd h (Window.behind_succ hi)

include h in
theorem enumEnd_moved {inTypedef : Bool} {brace : Nat} (hi : w.first ≤ brace)
    (hbrace : brace ≤ s.size) (hseen : w.Seen (brace + 1))
    (hs : w.Seen ((enumEnd s inTypedef brace).index + 1)) :
    (enumEnd s' inTypedef (w.moved brace)).index = w.moved (enumEnd s inTypedef brace).index := by
  unfold enumEnd at hs ⊢
  split
  · exact min_pred_moved h hi hbrace (w.seen_of_le hseen (Nat.le_succ _))
  · rename_i htypedef
    rw [if_neg htypedef] at hs
    rw [← Window.moved_succ hi]
    exact h.declaratorsEnd_moved (Window.behind_succ hi) hseen hs

/-- Reads on behind the enumerators of the body of the enumeration `id`, which end at `brace`. -/
def closeEnum (s : Source) (id : CursorId) (start : Nat) (inTypedef : Bool) (o : Outline)
    (brace : Nat) : Outcome :=
  let e := enumEnd s inTypedef brace
  (((o.note ((if s.size ≤ brace then [⟨brace, .noClosingBrace⟩] else []) ++ e.notes)).claim
    (min brace e.index) e.index id).reachTo id (max e.index start)).done (e.index + 1)

theorem readEnumBody_eq {id : CursorId} {brace : Nat} {inTypedef : Bool} :
    o.readEnumBody s id start brace inTypedef =
      closeEnum s id start inTypedef (readEnumerators s id o (brace + 1)).1
        (readEnumerators s id o (brace + 1)).2 := by
  simp only [readEnumBody, closeEnum, enumEnd]
  split <;> simp [note]

include h ho in
theorem closeEnum_moved {id : CursorId} {inTypedef : Bool} {brace : Nat} (hi : w.first ≤ brace)
    (hbrace : brace ≤ s.size) (hstart : w.Same start start')
    (hs : w.Seen ((closeEnum s id start inTypedef o brace).next + 1)) :
    (closeEnum s id start inTypedef o brace).Matches w
      (closeEnum s' id start' inTypedef o' (w.moved brace)) := by
  have hle := le_succ_enumEnd (s := s) inTypedef hbrace
  replace hs : w.Seen ((enumEnd s inTypedef brace).index + 1 + 1) := hs
  have hend := enumEnd_moved h hi hbrace (w.seen_of_le hs (Nat.succ_le_succ hle))
    (w.seen_of_le hs (Nat.le_succ _))
  have hfirst := first_le_enumEnd h inTypedef hi
  have hmin : w.Same (min brace (enumEnd s inTypedef brace).index)
      (min (w.moved brace) (w.moved (enumEnd s inTypedef brace).index)) :=
    (Window.same_moved _).min (Window.same_moved _)
  simp only [closeEnum, hend]
  exact Matches.done (((ho.note _ _).claim id hmin (Window.same_moved _)).reachTo id
    ((Window.same_moved _).max hstart)) (Window.moved_succ hfirst).symm

include h ho in
theorem readEnumBody_moved {id : CursorId} {brace : Nat} {inTypedef : Bool} (hi : w.first ≤ brace)
    (hbrace : brace < s.size) (hstart : w.Same start start')
    (hs : w.Seen ((o.readEnumBody s id start brace inTypedef).next + 1)) :
    (o.readEnumBody s id start brace inTypedef).Matches w
      (o'.readEnumBody s' id start' (w.moved brace) inTypedef) := by
  rw [readEnumBody_eq] at hs ⊢
  have hend : (readEnumerators s id o (brace + 1)).2 ≤ s.size := readEnumerators_le hbrace
  have hge := le_next_readEnumerators (s := s) id o (brace + 1)
  have hle := le_succ_enumEnd inTypedef hend
  obtain ⟨hread, hnext⟩ := readEnumerators_moved h ho id (Window.behind_succ hi) hbrace
    (w.seen_of_le hs (Nat.succ_le_succ hle))
  rw [readEnumBody_eq, ← Window.moved_succ hi, hnext]
  exact closeEnum_moved h hread (by omega) hend hstart hs

theorem le_next_readEnumerationFrom {name : String} {j : Nat} :
    j ≤ (readEnumerationFrom s scope start i true name o j).next := by
  unfold readEnumerationFrom
  split
  · rename_i hbrace
    have hlt := lt_size_of_is hbrace
    rw [readEnumBody_eq]
    generalize (((o.declare .enumDecl name start j scope.parent).1.claim start j
      (o.declare .enumDecl name start j scope.parent).2)) = o₁
    have hge := le_next_readEnumerators (s := s)
      (o.declare .enumDecl name start j scope.parent).2 o₁ (j + 1)
    simp only [closeEnum, enumEnd, done, if_true]
    omega
  · exact Nat.le_refl j

theorem next_readEnumerationFrom_le {name : String} {j : Nat} (hj : j ≤ s.size) :
    (readEnumerationFrom s scope start i true name o j).next ≤ s.size := by
  unfold readEnumerationFrom
  split
  · rename_i hbrace
    have hlt := lt_size_of_is hbrace
    rw [readEnumBody_eq]
    simp only [closeEnum, enumEnd, done, if_true]
    omega
  · exact hj

include h ho in
theorem readEnumerationFrom_moved {inTypedef : Bool} {name : String} {j : Nat} (hi : w.Behind i)
    (hin : i < s.size) (hij : i ≤ j) (hstart : w.Same start start')
    (hs : w.Seen ((readEnumerationFrom s scope start i inTypedef name o j).next + 1))
    (hseen : w.Seen (j + 1))
    (hqualified : inTypedef = false → s.is j "\x7b" = false → s.is j ";" = false →
      s.QualifiedWithin w o.macros i) :
    (readEnumerationFrom s scope start i inTypedef name o j).Matches w
      (readEnumerationFrom s' scope start' (w.moved i) inTypedef name o' (w.moved j)) := by
  have hle : w.first ≤ j := Nat.le_trans hi.le hij
  unfold readEnumerationFrom at hs ⊢
  simp only [h.is_moved hle (w.seen_of_le hseen (Nat.le_succ j))]
  split
  · rename_i hbrace
    rw [if_pos hbrace] at hs
    have hid := ho.declare_id .enumDecl name start start' j (w.moved j) scope.parent
    rw [hid]
    exact readEnumBody_moved h ((ho.declare _ _ _ hstart (Window.same_moved j)).claim _ hstart
      (Window.same_moved j)) hle (lt_size_of_is hbrace) hstart hs
  rename_i hbrace
  rw [if_neg hbrace] at hs
  split
  · exact Matches.done ho rfl
  rename_i htypedef
  rw [if_neg htypedef] at hs
  split
  · exact Matches.done (ho.add _ _ _ hstart (Window.same_moved j)) (Window.moved_succ hle).symm
  · rename_i hsemi
    rw [if_neg hsemi] at hs
    exact readPlain_moved h ho hi (Nat.le_of_lt hin) hstart hs
      (hqualified (Bool.eq_false_iff.2 htypedef) (Bool.eq_false_iff.2 hbrace)
        (Bool.eq_false_iff.2 hsemi))

include h ho in
/-- **An enumeration is recognised alike.** -/
theorem readEnumeration_moved {inTypedef : Bool} (hi : w.Behind i) (hin : i < s.size)
    (hstart : w.Same start start')
    (hs : w.Seen ((o.readEnumeration s scope start i inTypedef).next + 1))
    (hhead : inTypedef = false → w.Seen ((s.enumHead o.macros i).2 + 1))
    (hqualified : inTypedef = false → s.is (s.enumHead o.macros i).2 "\x7b" = false →
      s.is (s.enumHead o.macros i).2 ";" = false → s.QualifiedWithin w o.macros i) :
    (o.readEnumeration s scope start i inTypedef).Matches w
      (o'.readEnumeration s' scope start' (w.moved i) inTypedef) := by
  rw [readEnumeration_eq] at hs ⊢
  have hseen : w.Seen ((s.enumHead o.macros i).2 + 1) := by
    cases inTypedef with
    | false => exact hhead rfl
    | true => exact w.seen_of_le hs (Nat.succ_le_succ le_next_readEnumerationFrom)
  rw [readEnumeration_eq, ho.macros, h.enumHead_moved hi.le (enumKeyEnd_le hin) hseen]
  exact readEnumerationFrom_moved h (ho.note _ _) hi hin (Nat.le_of_lt (s.lt_enumHead o.macros i))
    hstart hs hseen hqualified

/-! ## Type definitions -/

include h in
/-- What is left of a type definition is read alike behind a class or an enumeration. -/
theorem readTypedefAfter_moved {r r' : Outcome} (hr : w.Seen (r.next + 1) → r.Matches w r')
    (hbehind : w.Behind r.next) (hle : r.next ≤ s.size) (hstart : w.Same start start')
    (hs : w.Seen ((readTypedefAfter s scope start r).next + 1)) :
    (readTypedefAfter s scope start r).Matches w (readTypedefAfter s' scope start' r') := by
  have hseen : w.Seen (r.next + 1) := by
    refine w.seen_of_le hs (Nat.succ_le_succ ?_)
    unfold readTypedefAfter
    split
    · exact Nat.le_refl _
    · exact le_succ_statementEnd hle
  have hmatches := hr hseen
  have hopened := hmatches.opened
  unfold readTypedefAfter at hs ⊢
  cases hf : r.opened with
  | some f =>
    rw [hf] at hopened
    cases hf' : r'.opened with
    | some f' => exact hmatches
    | none =>
      rw [hf'] at hopened
      cases hopened
  | none =>
    rw [hf] at hs hopened
    cases hf' : r'.opened with
    | some f' =>
      rw [hf'] at hopened
      cases hopened
    | none =>
      simp only [hmatches.next]
      exact readTypedefRest_moved h hmatches.outline _ hbehind (w.seen_of_le hseen (Nat.le_succ _))
        hstart hs

include h ho in
/-- **A type definition is recognised alike.** -/
theorem readTypedef_moved (hi : w.Behind i) (hin : i < s.size) (hstart : w.Same start start')
    (hs : w.Seen ((o.readTypedef s scope start i).next + 1)) :
    (o.readTypedef s scope start i).Matches w (o'.readTypedef s' scope start' (w.moved i)) := by
  have hbehind : w.Behind (i + 1) := Window.behind_succ hi.le
  have hseen : w.Seen (i + 1) := by
    have hlt : i < (o.readTypedef s scope start i).next := lt_next_readTypedef hin (Nat.le_refl i)
    exact w.seen_of_le hs (Nat.le_succ_of_le hlt)
  have hstarts : startsRecord s' (w.moved (i + 1)) = startsRecord s (i + 1) := by
    simp only [startsRecord, h.is_moved hbehind.le hseen]
  rw [readTypedef_eq] at hs ⊢
  rw [readTypedef_eq, ← Window.moved_succ hi.le, hstarts, h.is_moved hbehind.le hseen]
  split
  · rename_i hrecord
    rw [if_pos hrecord] at hs
    have hlt : i + 1 < s.size := lt_size_of_startsRecord hrecord
    have hnext : i + 1 < (o.readRecord s scope (i + 1) (i + 1) false (some start)).next :=
      lt_next_readRecord hlt (Nat.le_refl _)
    refine readTypedefAfter_moved h (fun hseen => ?_) (hbehind.mono (Nat.le_of_lt hnext)) ?_ hstart
      hs
    · exact readRecord_moved h ho (.some hstart) hbehind hlt (Window.same_moved _) hseen
        (fun hnone => by cases hnone) (fun hnone => by cases hnone)
    · rw [readRecord_eq]
      exact next_readRecordFrom_le rfl (recordHead_le o.macros hlt)
  rename_i hrecord
  rw [if_neg hrecord] at hs
  split
  · rename_i henum
    rw [if_pos henum] at hs
    have hlt : i + 1 < s.size := lt_size_of_is henum
    have hnext : i + 1 < (o.readEnumeration s scope (i + 1) (i + 1) true).next :=
      lt_next_readEnumeration hlt (Nat.le_refl _)
    refine readTypedefAfter_moved h (fun hseen => ?_) (hbehind.mono (Nat.le_of_lt hnext)) ?_ hstart
      hs
    · exact readEnumeration_moved h ho hbehind hlt (Window.same_moved _) hseen
        (fun hnone => by cases hnone) (fun hnone => by cases hnone)
    · rw [readEnumeration_eq]
      exact next_readEnumerationFrom_le (enumHead_le o.macros hlt)
  · rename_i henum
    rw [if_neg henum] at hs
    exact readTypedefRest_moved h ho scope hbehind hseen hstart hs

end Outline

end DocIndex
