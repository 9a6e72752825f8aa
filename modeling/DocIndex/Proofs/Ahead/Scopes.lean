import DocIndex.Proofs.Ahead.Heads
import DocIndex.Proofs.Ahead.Outline

/-!
# Statements and scopes behind some lexemes

Functions, variables, aliases, preprocessor lines and the heads of scopes are recognised as they are
alone. What is read for its shape asks for the lexeme in front and for its scopes: so it is asked
that neither is looked for ahead of the text (`Outline.Apart`). Where no scope is known, it does not
matter which one is looked for.

* `readPlain_ahead`, `readSimple_ahead` — what is read for its shape.
* `readModule_ahead`, `readUsing_ahead`, `readTypedefRest_ahead` — statements.
* `readDirective_ahead` — preprocessor lines.
* `readNamespace_ahead`, `readLinkage_ahead`, `readRecord_ahead`, `readEnumeration_ahead`,
  `readTypedef_ahead` — what heads open.
-/

namespace DocIndex

/-- What is read for its shape at `i` does not ask for what stands ahead of the text. -/
structure Outline.Apart (k : Nat) (s s' : Source) (o : Outline) (i : Nat) : Prop where
  nameless : Source.Nameless k s s' o.macros i
  qualified : o.scopes ≠ [] → ∀ n ∈ (s.shape o.macros i).name, ¬ s.LooksAhead n

namespace Outline

variable {k : Nat} {front : List Face} {s s' : Source} (h : s.Ahead k s') {scope : Scope}
  {o o' : Outline} (ho : o.Ahead k front o') {start i j : Nat} {templated : Bool}

open Source

/-! ## Functions and variables -/

/-- Where no scope is known, none is meant. -/
theorem resolve_of_scopes_nil (hscopes : o.scopes = []) (path qualifier : List String) :
    o.resolve path qualifier = none := by
  have hfrom (tail : String) (names : List String) : o.resolveFrom tail names = none := by
    induction names with
    | nil =>
      rw [resolveFrom, hscopes]
      rfl
    | cons name outer ih =>
      rw [resolveFrom, hscopes]
      exact ih
  rw [resolve]
  split
  · rfl
  · exact hfrom _ _

include h ho in
/-- The scope that the name at `i` is qualified with is the same. -/
theorem resolve_qualifierOf_ahead (hqualified : o.scopes ≠ [] → ¬ s.LooksAhead i)
    (path : List String) :
    o'.resolve path (s'.qualifierOf (k + i)) =
      (o.resolve path (s.qualifierOf i)).map (CursorId.behind front.length) := by
  by_cases hscopes : o.scopes = []
  · rw [ho.resolve, resolve_of_scopes_nil hscopes, resolve_of_scopes_nil hscopes]
  · rw [h.qualifierOf_ahead (hqualified hscopes), ho.resolve]

include h ho in
/-- A function or a variable is declared alike. -/
theorem declarePlain_ahead {d : Shape}
    (hqualified : o.scopes ≠ [] → ∀ n ∈ d.name, ¬ s.LooksAhead n) :
    (o.declarePlain s scope start templated d).Ahead k front
      (o'.declarePlain s' (scope.behind front.length) (k + start) templated (d.map (k + ·))) := by
  unfold declarePlain
  simp only [Shape.map]
  cases hn : d.name with
  | none => exact ho.add _ _ _ _ _
  | some n =>
    have hresolve := resolve_qualifierOf_ahead h ho (i := n)
      (fun hscopes => hqualified hscopes n hn) scope.path
    simp only [Option.map_some, show (scope.behind front.length).path = scope.path from rfl,
      hresolve, ho.recordOf, h.spelling, Option.isNone_map,
      show (scope.behind front.length).parent = .behind front.length scope.parent from rfl,
      Option.getD_map]
    split
    · exact ho.add _ _ _ _ _
    · exact ho.add _ _ _ _ _

include h ho in
/-- **Functions and variables are recognised alike.** -/
theorem readPlain_ahead (hapart : o.Apart k s s' i) :
    (o.readPlain s scope start i templated).Ahead k front
      (o'.readPlain s' (scope.behind front.length) (k + start) (k + i) templated) := by
  rw [readPlain_eq, readPlain_eq, ho.macros, h.shape_ahead hapart.nameless]
  exact (declarePlain_ahead h (ho.note _ _) hapart.qualified).done _

include h ho in
theorem readSimple_ahead {kind : CursorKind} (hname : Nameless k s s' o.macros (i + 1)) :
    (o.readSimple s scope kind start i).Ahead k front
      (o'.readSimple s' (scope.behind front.length) kind (k + start) (k + i)) := by
  have hspelling : ((s.shape o.macros (i + 1)).map (k + ·)).name.map s'.spelling =
      (s.shape o.macros (i + 1)).name.map s.spelling := by
    simp only [Shape.map, Option.map_map]
    exact Option.map_congr fun n _ => h.spelling n
  simp only [readSimple, ho.macros, Nat.add_assoc, h.shape_ahead hname, hspelling]
  exact ((ho.note _ _).add _ _ _ _ _).done _

/-! ## Modules, aliases and type definitions -/

include h ho in
theorem readModule_ahead :
    (o.readModule s scope start i).Ahead k front
      (o'.readModule s' (scope.behind front.length) (k + start) (k + i)) := by
  simp only [readModule, Nat.add_assoc, h.statementEnd_ahead (Nat.succ_pos i),
    Nat.add_sub_add_left, h.concatFrom_ahead, h.spelling]
  split
  · exact (((ho.note _ _).nameModule _).add _ _ _ _ _).done _
  · exact ((ho.note _ _).add _ _ _ _ _).done _

include h ho in
/-- A `using` line names what stands in front of its end. At the beginning of the text it is asked
that its end does not stand there as well. -/
theorem readUsing_ahead (hend : i = 0 → (s.statementEnd (i + 1)).index ≠ 0) (hin : i < s.size) :
    (o.readUsing s scope start i templated).Ahead k front
      (o'.readUsing s' (scope.behind front.length) (k + start) (k + i) templated) := by
  have hpos : 0 < (s.statementEnd (i + 1)).index := by
    rcases Nat.eq_zero_or_pos i with hi | hi
    · exact Nat.pos_of_ne_zero (hend hi)
    · exact Nat.lt_of_lt_of_le hi (le_statementEnd hin (Nat.lt_succ_self i))
  have hpred : k + (s.statementEnd (i + 1)).index - 1 = k + ((s.statementEnd (i + 1)).index - 1) :=
    Nat.add_sub_assoc hpos k
  simp only [readUsing, Nat.add_assoc, ho.macros, h.statementEnd_ahead (Nat.succ_pos i), hpred,
    h.skipDecorations_ahead, h.is_ahead, h.isIdentifier_ahead, h.spelling]
  split
  · exact ((ho.note _ _).add _ _ _ _ _).done _
  split
  · exact ((ho.note _ _).add _ _ _ _ _).done _
  · exact ((ho.note _ _).add _ _ _ _ _).done _

include h ho in
theorem readTypedefRest_ahead (scope : Scope) (start : Nat) (hi : 0 < i) :
    (o.readTypedefRest s scope start i).Ahead k front
      (o'.readTypedefRest s' (scope.behind front.length) (k + start) (k + i)) := by
  have hname : (s'.declaredName? (k + i) (k + (s.statementEnd i).index)).map s'.spelling =
      (s.declaredName? i (s.statementEnd i).index).map s.spelling := by
    rw [h.declaredName?_ahead, Option.map_map]
    exact Option.map_congr fun n _ => h.spelling n
  simp only [readTypedefRest, h.statementEnd_ahead hi, hname]
  exact ((ho.note _ _).add _ _ _ _ _).done _

/-! ## Preprocessor lines -/

include h ho in
/-- **A preprocessor line says the same.** -/
theorem readDirective_ahead (hash : Nat) :
    (o.readDirective s hash).Ahead k front (o'.readDirective s' (k + hash)) := by
  have hlast : s'.lastCode (k + hash) (s'.lineEnd (k + hash)) =
      k + s.lastCode hash (s.lineEnd hash) := by
    rw [h.lineEnd_ahead, h.lastCode_ahead]
  simp only [readDirective, Nat.add_assoc, h.spelling, hlast, h.is_ahead, h.touches,
    Nat.add_lt_add_iff_left]
  generalize s.lastCode hash (s.lineEnd hash) = last
  have hdeclare := ho.declare .preprocessingDirective (s.spelling (hash + 1)) hash (k + hash) last
    (k + last) 0
  have hid := ho.declare_id .preprocessingDirective (s.spelling (hash + 1)) hash (k + hash) last
    (k + last) 0 (.behind front.length 0)
  rw [CursorId.behind_zero] at hdeclare hid
  rw [hid]
  split
  · exact ((hdeclare.define _ _).claim _ _ _).add _ _ _ _ _
  split
  · exact (hdeclare.undefine _).claim _ _ _
  · exact hdeclare.claim _ _ _

/-! ## Linkage blocks and namespaces -/

include ho in
theorem readLinkage_ahead {brace : Nat} :
    (o.readLinkage scope start brace).Ahead k front
      (o'.readLinkage (scope.behind front.length) (k + start) (k + brace)) := by
  have hdeclare := ho.declare .unexposedDecl "" start (k + start) brace (k + brace) scope.parent
  have hid := ho.declare_id .unexposedDecl "" start (k + start) brace (k + brace) scope.parent
    (scope.behind front.length).parent
  simp only [readLinkage, hid]
  exact (hdeclare.claim _ _ _).enter _ _ _

include ho in
theorem openNamespaces_ahead (start brace : Nat) (parent : CursorId) (path : List String)
    (ids : List CursorId) (names : List String) :
    (openNamespaces start brace parent path ids names o).1.Ahead k front
        (openNamespaces (k + start) (k + brace) (.behind front.length parent) path
          (ids.map (.behind front.length)) names o').1 ∧
      (openNamespaces (k + start) (k + brace) (.behind front.length parent) path
          (ids.map (.behind front.length)) names o').2 =
        ((openNamespaces start brace parent path ids names o).2.1.map (.behind front.length),
          .behind front.length (openNamespaces start brace parent path ids names o).2.2.1,
          (openNamespaces start brace parent path ids names o).2.2.2) := by
  induction names generalizing o o' parent path ids with
  | nil => exact ⟨ho, rfl⟩
  | cons name names ih =>
    have hdeclare := ho.declare .namespaceDecl name start (k + start) brace (k + brace) parent
    have hid := ho.declare_id .namespaceDecl name start (k + start) brace (k + brace) parent
      (.behind front.length parent)
    have hids (id : CursorId) : ids.map (CursorId.behind front.length) ++
        [CursorId.behind front.length id] = (ids ++ [id]).map (.behind front.length) := by
      rw [List.map_append]
      rfl
    simp only [openNamespaces, hid, hids]
    split
    · exact ih hdeclare ..
    · exact ih (hdeclare.openScope ..) ..

include h ho in
theorem readNamespaceFrom_ahead {names : List String} (hj : 0 < j)
    (hapart : s.is j "=" = false → s.is j "\x7b" = false → o.Apart k s s' j) :
    (o.readNamespaceFrom s scope start names j).Ahead k front
      (o'.readNamespaceFrom s' (scope.behind front.length) (k + start) names (k + j)) := by
  unfold readNamespaceFrom
  simp only [h.is_ahead, h.statementEnd_ahead hj]
  split
  · exact ((ho.note _ _).add _ _ _ _ _).done _
  rename_i hassign
  split
  · obtain ⟨hopened, hids⟩ := openNamespaces_ahead ho start j scope.parent scope.path []
      (if names.isEmpty then [""] else names)
    simp only [List.map_nil] at hopened hids
    simp only [show (scope.behind front.length).parent = .behind front.length scope.parent from rfl,
      show (scope.behind front.length).path = scope.path from rfl, hids]
    exact (hopened.claim _ _ _).enter _ _ _
  · rename_i hbrace
    have hplain := hapart (Bool.eq_false_iff.2 hassign) (Bool.eq_false_iff.2 hbrace)
    exact readPlain_ahead h (ho.note _ _) ⟨hplain.nameless, hplain.qualified⟩

include h ho in
/-- **A namespace or an alias of one is recognised alike.** -/
theorem readNamespace_ahead
    (hapart : s.is (s.namespaceHead (i + 1)).2 "=" = false →
      s.is (s.namespaceHead (i + 1)).2 "\x7b" = false →
        o.Apart k s s' (s.namespaceHead (i + 1)).2) :
    (o.readNamespace s scope start i).Ahead k front
      (o'.readNamespace s' (scope.behind front.length) (k + start) (k + i)) := by
  have hle := le_namespaceHead s (i + 1)
  rw [readNamespace_eq, readNamespace_eq, Nat.add_assoc, h.namespaceHead_ahead]
  exact readNamespaceFrom_ahead h (ho.note _ _) (Nat.lt_of_lt_of_le (Nat.succ_pos i) hle)
    fun hassign hbrace =>
      ⟨(hapart hassign hbrace).nameless, (hapart hassign hbrace).qualified⟩

/-! ## Classes -/

include ho in
theorem openRecord_ahead {n : RecordName} {kind : CursorKind} {parent : CursorId}
    {outer : Option Nat} {brace : Nat} :
    (openRecord scope n kind start parent outer o brace).Ahead k front
      (openRecord (scope.behind front.length) (n.map (k + ·)) kind (k + start)
        (.behind front.length parent) (outer.map (k + ·)) o' (k + brace)) := by
  have hdeclare := ho.declare kind n.name start (k + start) brace (k + brace) parent
  have hid := ho.declare_id kind n.name start (k + start) brace (k + brace) parent
    (.behind front.length parent)
  have hopened := hdeclare.claim start brace (o.declare kind n.name start brace parent).2
  simp only [openRecord, RecordName.map, hid]
  cases outer with
  | none =>
    split
    · exact hopened.enter _ _ _
    · exact (hopened.openScope _ _ _).enter _ _ _
  | some outer =>
    split
    · exact hopened.enter _ _ _
    · exact (hopened.openScope _ _ _).enter _ _ _

include h in
/-- The last lexeme up to `i` is the same one, also at the end of the text. -/
theorem min_pred_ahead (i : Nat) : min (k + i) (s'.size - 1) = k + min i (s.size - 1) := by
  rw [h.size_pred, Nat.add_min_add_left]

include h ho in
theorem readRecordFrom_ahead {outer : Option Nat} {n : RecordName} {parent : CursorId}
    (hapart : outer = none → s.is j "\x7b" = false → s.is j ":" = false → s.is j ";" = false →
      o.Apart k s s' i) :
    (readRecordFrom s scope start i templated outer n parent o j).Ahead k front
      (readRecordFrom s' (scope.behind front.length) (k + start) (k + i) templated
        (outer.map (k + ·)) (n.map (k + ·)) (.behind front.length parent) o' (k + j)) := by
  unfold readRecordFrom
  simp only [h.is_ahead, h.spelling, Option.isSome_map, Nat.add_assoc, h.baseListEnd_ahead,
    min_pred_ahead h]
  split
  · exact openRecord_ahead ho
  rename_i hbrace
  split
  · split
    · exact openRecord_ahead (ho.note _ _)
    · exact (((ho.note _ _).note _ _).add _ _ _ _ _).done _
  rename_i hcolon
  split
  · exact ho.done _
  rename_i hsome
  split
  · exact (ho.add _ _ _ _ _).done _
  · rename_i hsemi
    have hnone : outer = none := Option.not_isSome_iff_eq_none.1 hsome
    exact readPlain_ahead h ho (hapart hnone (Bool.eq_false_iff.2 hbrace)
      (Bool.eq_false_iff.2 hcolon) (Bool.eq_false_iff.2 hsemi))

include h ho in
/-- **A class is recognised alike.** -/
theorem readRecord_ahead (outer : Option Nat)
    (hapart : outer = none → s.is (s.recordHead o.macros (i + 1)).2 "\x7b" = false →
      s.is (s.recordHead o.macros (i + 1)).2 ":" = false →
        s.is (s.recordHead o.macros (i + 1)).2 ";" = false → o.Apart k s s' i) :
    (o.readRecord s scope start i templated outer).Ahead k front
      (o'.readRecord s' (scope.behind front.length) (k + start) (k + i) templated
        (outer.map (k + ·))) := by
  rw [readRecord_eq, readRecord_eq, ho.macros, Nat.add_assoc, h.recordHead_ahead]
  simp only [RecordName.map, show (scope.behind front.length).path = scope.path from rfl,
    show (scope.behind front.length).parent = .behind front.length scope.parent from rfl,
    ho.resolve, Option.getD_map]
  exact readRecordFrom_ahead h (ho.note _ _) fun hnone hbrace hcolon hsemi =>
    ⟨(hapart hnone hbrace hcolon hsemi).nameless, (hapart hnone hbrace hcolon hsemi).qualified⟩

/-! ## Enumerations -/

include h ho in
/-- **The enumerators of a body are recognised alike.** -/
theorem readEnumerators_ahead (id : CursorId) (i : Nat) :
    (readEnumerators s id o i).1.Ahead k front
        (readEnumerators s' (.behind front.length id) o' (k + i)).1 ∧
      (readEnumerators s' (.behind front.length id) o' (k + i)).2 =
        k + (readEnumerators s id o i).2 := by
  have hstep {o' : Outline} {i : Nat} (hlt : i < s.size) :
      readEnumerators s' (.behind front.length id) o' (k + i) =
        if s.is i "\x7d" then (o', k + i)
        else if s.is i "#" && s.startsLine i then
          readEnumerators s' (.behind front.length id) (o'.readDirective s' (k + i))
            (k + (s.lineEnd i + 1))
        else if s.isIdentifier i then
          readEnumerators s' (.behind front.length id)
            ((o'.note (s'.enumeratorEnd (k + i)).notes).add .enumConstantDecl (s.spelling i) (k + i)
              (k + s.lastCode i (s.enumeratorEnd i).index) (.behind front.length id))
            (k + ((s.enumeratorEnd i).index + 1))
        else
          readEnumerators s' (.behind front.length id)
            (o'.claim (k + i) (k + i) (.behind front.length id)) (k + (i + 1)) := by
    rw [readEnumerators, if_pos (h.lt_size.2 hlt), h.startsLine_ahead, h.is_ahead,
      h.isIdentifier_ahead, h.spelling, h.lineEnd_ahead]
    simp only [h.enumeratorEnd_ahead, h.lastCode_ahead, Nat.add_assoc]
  fun_induction readEnumerators s id o i generalizing o' with
  | case1 o i hlt hbrace =>
    rw [hstep hlt, if_pos hbrace]
    exact ⟨ho, rfl⟩
  | case2 o i hlt hbrace hline ih =>
    rw [hstep hlt, if_neg hbrace, if_pos hline]
    exact ih (readDirective_ahead h ho i)
  | case3 o i hlt hbrace hline hname e last =>
    rename_i ih
    rw [hstep hlt, if_neg hbrace, if_neg hline, if_pos hname]
    exact ih ((ho.note _ _).add _ _ _ _ _)
  | case4 o i hlt hbrace hline hname ih =>
    rw [hstep hlt, if_neg hbrace, if_neg hline, if_neg hname]
    exact ih (ho.claim _ _ _)
  | case5 o i hlt =>
    rw [readEnumerators, if_neg (mt h.lt_size.1 hlt)]
    exact ⟨ho, rfl⟩

include h in
theorem enumEnd_ahead (inTypedef : Bool) (brace : Nat) :
    (enumEnd s' inTypedef (k + brace)).index = k + (enumEnd s inTypedef brace).index := by
  unfold enumEnd
  split
  · exact min_pred_ahead h brace
  · exact h.declaratorsEnd_ahead (Nat.succ_pos brace)

include h ho in
theorem closeEnum_ahead {id : CursorId} {inTypedef : Bool} {brace : Nat} :
    (closeEnum s id start inTypedef o brace).Ahead k front
      (closeEnum s' (.behind front.length id) (k + start) inTypedef o' (k + brace)) := by
  simp only [closeEnum, enumEnd_ahead h, Nat.add_min_add_left, Nat.add_assoc]
  exact (((ho.note _ _).claim _ _ _).reachTo _ _ _ _).done _

include h ho in
theorem readEnumBody_ahead {id : CursorId} {brace : Nat} {inTypedef : Bool} :
    (o.readEnumBody s id start brace inTypedef).Ahead k front
      (o'.readEnumBody s' (.behind front.length id) (k + start) (k + brace) inTypedef) := by
  obtain ⟨hread, hnext⟩ := readEnumerators_ahead h ho id (brace + 1)
  rw [readEnumBody_eq, readEnumBody_eq, Nat.add_assoc, hnext]
  exact closeEnum_ahead h hread

include h ho in
theorem readEnumerationFrom_ahead {inTypedef : Bool} {name : String}
    (hapart : inTypedef = false → s.is j "\x7b" = false → s.is j ";" = false →
      o.Apart k s s' i) :
    (readEnumerationFrom s scope start i inTypedef name o j).Ahead k front
      (readEnumerationFrom s' (scope.behind front.length) (k + start) (k + i) inTypedef name o'
        (k + j)) := by
  unfold readEnumerationFrom
  simp only [h.is_ahead]
  split
  · have hdeclare := ho.declare .enumDecl name start (k + start) j (k + j) scope.parent
    have hid := ho.declare_id .enumDecl name start (k + start) j (k + j) scope.parent
      (scope.behind front.length).parent
    rw [hid]
    exact readEnumBody_ahead h (hdeclare.claim _ _ _)
  rename_i hbrace
  split
  · exact ho.done _
  rename_i htypedef
  split
  · exact (ho.add _ _ _ _ _).done _
  · rename_i hsemi
    exact readPlain_ahead h ho (hapart (Bool.eq_false_iff.2 htypedef) (Bool.eq_false_iff.2 hbrace)
      (Bool.eq_false_iff.2 hsemi))

include h ho in
/-- **An enumeration is recognised alike.** -/
theorem readEnumeration_ahead {inTypedef : Bool}
    (hapart : inTypedef = false → s.is (s.enumHead o.macros i).2 "\x7b" = false →
      s.is (s.enumHead o.macros i).2 ";" = false → o.Apart k s s' i) :
    (o.readEnumeration s scope start i inTypedef).Ahead k front
      (o'.readEnumeration s' (scope.behind front.length) (k + start) (k + i) inTypedef) := by
  rw [readEnumeration_eq, readEnumeration_eq, ho.macros, h.enumHead_ahead]
  exact readEnumerationFrom_ahead h (ho.note _ _) fun htypedef hbrace hsemi =>
    ⟨(hapart htypedef hbrace hsemi).nameless, (hapart htypedef hbrace hsemi).qualified⟩

/-! ## Type definitions -/

include h in
/-- What is left of a type definition is read alike behind a class or an enumeration. -/
theorem readTypedefAfter_ahead {r r' : Outcome} (hr : r.Ahead k front r') (hpos : 0 < r.next) :
    (readTypedefAfter s scope start r).Ahead k front
      (readTypedefAfter s' (scope.behind front.length) (k + start) r') := by
  have hopened := hr.opened
  unfold readTypedefAfter
  cases hf : r.opened with
  | some f =>
    rw [hf] at hopened
    rw [hopened]
    exact hr
  | none =>
    rw [hf] at hopened
    rw [hopened, hr.next]
    exact readTypedefRest_ahead h hr.outline scope start hpos

include h ho in
/-- **A type definition is recognised alike.** -/
theorem readTypedef_ahead :
    (o.readTypedef s scope start i).Ahead k front
      (o'.readTypedef s' (scope.behind front.length) (k + start) (k + i)) := by
  have hstarts : startsRecord s' (k + i + 1) = startsRecord s (i + 1) := by
    simp only [startsRecord, Nat.add_assoc, h.is_ahead]
  rw [readTypedef_eq, readTypedef_eq, hstarts, Nat.add_assoc, h.is_ahead]
  split
  · rename_i hrecord
    have hlt : i + 1 < s.size := lt_size_of_startsRecord hrecord
    have hnext : i + 1 < (o.readRecord s scope (i + 1) (i + 1) false (some start)).next :=
      lt_next_readRecord hlt (Nat.le_refl _)
    refine readTypedefAfter_ahead h ?_ (Nat.lt_of_le_of_lt (Nat.zero_le _) hnext)
    exact readRecord_ahead h ho (some start) fun hnone => by cases hnone
  split
  · rename_i henum
    have hnext : i + 1 < (o.readEnumeration s scope (i + 1) (i + 1) true).next :=
      lt_next_readEnumeration (lt_size_of_is henum) (Nat.le_refl _)
    refine readTypedefAfter_ahead h ?_ (Nat.lt_of_le_of_lt (Nat.zero_le _) hnext)
    exact readEnumeration_ahead h ho fun hfalse => by cases hfalse
  · exact readTypedefRest_ahead h ho scope start (Nat.succ_pos i)

end Outline

end DocIndex
