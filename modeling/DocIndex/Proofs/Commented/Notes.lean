import DocIndex.Proofs.Commented.Enumeration
import DocIndex.Proofs.Commented.Scopes

/-!
# Flaws are kept

What is wrong with a text stays noted: an outline without flaws was read without flaws from the
start on (`notes_of_readFrom`), and all of its scopes were closed.
-/

namespace DocIndex

namespace Outline

open Source

variable {s : Source} {scope : Scope} {o : Outline} {start i : Nat} {templated : Bool}

/-! ## Declarations -/

theorem notes_of_readPlain (hn : (o.readPlain s scope start i templated).outline.notes = []) :
    o.notes = [] := by
  rw [notes_readPlain] at hn
  exact (List.append_eq_nil_iff.1 hn).1

theorem notes_of_readSimple {kind : CursorKind}
    (hn : (o.readSimple s scope kind start i).outline.notes = []) : o.notes = [] := by
  simp only [readSimple, done, notes_add, notes_note, List.append_eq_nil_iff] at hn
  exact hn.1

theorem notes_of_readModule (hn : (o.readModule s scope start i).outline.notes = []) :
    o.notes = [] := by
  rw [notes_readModule] at hn
  exact (List.append_eq_nil_iff.1 hn).1

theorem notes_of_readUsing (hn : (o.readUsing s scope start i templated).outline.notes = []) :
    o.notes = [] := by
  rw [notes_readUsing] at hn
  exact (List.append_eq_nil_iff.1 hn).1

theorem notes_of_readTypedefRest (hn : (o.readTypedefRest s scope start i).outline.notes = []) :
    o.notes = [] := by
  simp only [readTypedefRest, done, notes_add, notes_note, List.append_eq_nil_iff] at hn
  exact hn.1

theorem notes_of_readNamespaceFrom {names : List String}
    (hn : (readNamespaceFrom s scope start names o i).outline.notes = []) : o.notes = [] := by
  unfold readNamespaceFrom at hn
  simp only at hn
  split at hn
  · simp only [done, notes_add, notes_note, List.append_eq_nil_iff] at hn
    exact hn.1
  split at hn
  · rwa [enter, notes_claim, notes_openNamespaces] at hn
  · exact (List.append_eq_nil_iff.1 (notes_of_readPlain hn)).1

theorem notes_of_readNamespace (hn : (o.readNamespace s scope start i).outline.notes = []) :
    o.notes = [] :=
  (List.append_eq_nil_iff.1 (notes_of_readNamespaceFrom hn)).1

theorem notes_of_readRecordFrom {outer : Option Nat} {n : RecordName} {parent : CursorId} {j : Nat}
    (hn : (readRecordFrom s scope start i templated outer n parent o j).outline.notes = []) :
    o.notes = [] := by
  unfold readRecordFrom at hn
  simp only at hn
  split at hn
  · rwa [notes_openRecord] at hn
  split at hn
  · split at hn
    · rw [notes_openRecord] at hn
      exact (List.append_eq_nil_iff.1 hn).1
    · simp [done] at hn
  split at hn
  · exact hn
  split at hn
  · exact hn
  · exact notes_of_readPlain hn

theorem notes_of_readRecord {outer : Option Nat}
    (hn : (o.readRecord s scope start i templated outer).outline.notes = []) : o.notes = [] :=
  (List.append_eq_nil_iff.1 (notes_of_readRecordFrom hn)).1

theorem notes_of_readEnumerators {id : CursorId}
    (hn : (readEnumerators s id o i).1.notes = []) : o.notes = [] := by
  fun_induction readEnumerators s id o i with
  | case1 => exact hn
  | case2 o i hlt hend hline ih => simpa using ih hn
  | case3 o i hlt hend hline hname e last ih =>
    have hnote := ih hn
    rw [notes_add, notes_note] at hnote
    exact (List.append_eq_nil_iff.1 hnote).1
  | case4 o i hlt hend hline hname ih => exact ih hn
  | case5 => exact hn

theorem notes_of_readEnumBody {id : CursorId} {brace : Nat} {inTypedef : Bool}
    (hn : (o.readEnumBody s id start brace inTypedef).outline.notes = []) : o.notes = [] := by
  have hlt := (readEnumBody_sound hn).1
  simp only [readEnumBody, done, notes_reachTo, notes_claim, notes_note,
    List.append_eq_nil_iff] at hn
  rw [if_neg (by omega)] at hn
  exact notes_of_readEnumerators hn.1

theorem notes_of_readEnumerationFrom {inTypedef : Bool} {name : String} {j : Nat}
    (hn : (readEnumerationFrom s scope start i inTypedef name o j).outline.notes = []) :
    o.notes = [] := by
  unfold readEnumerationFrom at hn
  simp only at hn
  split at hn
  · have hbody := notes_of_readEnumBody hn
    rwa [notes_claim, notes_declare] at hbody
  split at hn
  · exact hn
  split at hn
  · exact hn
  · exact notes_of_readPlain hn

theorem notes_of_readEnumeration {inTypedef : Bool}
    (hn : (o.readEnumeration s scope start i inTypedef).outline.notes = []) : o.notes = [] :=
  (List.append_eq_nil_iff.1 (notes_of_readEnumerationFrom hn)).1

theorem notes_of_readTypedef (hn : (o.readTypedef s scope start i).outline.notes = []) :
    o.notes = [] := by
  unfold readTypedef at hn
  simp only at hn
  split at hn
  · split at hn
    · exact notes_of_readRecord hn
    · exact notes_of_readRecord (notes_of_readTypedefRest hn)
  split at hn
  · exact notes_of_readEnumeration (notes_of_readTypedefRest hn)
  · exact notes_of_readTypedefRest hn

theorem notes_addMacroCall :
    (o.addMacroCall s i).1.notes = o.notes ++ s.macroCallNotes o.macros i := rfl

theorem notes_of_readDeclaration
    (hn : (readDeclaration s scope start o i templated).outline.notes = []) : o.notes = [] := by
  have hcall {o o' : Outline} {i : Nat} {id : CursorId} (ho : o.addMacroCall s i = (o', id))
      (hn : o'.notes = []) : o.notes = [] := by
    have hnotes := notes_addMacroCall (s := s) (o := o) (i := i)
    rw [ho] at hnotes
    exact (List.append_eq_nil_iff.1 (hnotes.symm.trans hn)).1
  fun_induction readDeclaration s scope start o i templated with
  | case1 o i templated hlt hbrace => exact hn
  | case2 o i templated hlt hbrace hcalled last o' id ho hsemi => exact hcall ho hn
  | case3 o i templated hlt hbrace hcalled last o' id ho hsemi halone => exact hcall ho hn
  | case4 o i templated hlt hbrace hcalled last o' id ho hsemi halone ih => exact hcall ho (ih hn)
  | case5 o i templated hlt hbrace hcalled keyword ha => exact notes_of_readNamespace hn
  | case6 o i templated hlt hbrace hcalled brace ha => exact hn
  | case7 o i templated hlt hbrace hcalled ha ih => exact ih hn
  | case8 o i templated hlt hbrace hcalled ha => exact notes_of_readModule hn
  | case9 o i templated hlt hbrace hcalled ha ih => exact ih hn
  | case10 o i templated hlt hbrace hcalled ha => exact hn
  | case11 o i templated hlt hbrace hcalled ha => exact notes_of_readRecord hn
  | case12 o i templated hlt hbrace hcalled ha => exact notes_of_readEnumeration hn
  | case13 o i templated hlt hbrace hcalled ha => exact notes_of_readUsing hn
  | case14 o i templated hlt hbrace hcalled ha => exact notes_of_readTypedef hn
  | case15 o i templated hlt hbrace hcalled kind ha => exact notes_of_readSimple hn
  | case16 o i templated hlt hbrace hcalled ha => exact notes_of_readPlain hn
  | case17 o i templated hlt => exact hn

/-! ## The whole text -/

theorem notes_reachTo_all {ids : List CursorId} {last : Nat} :
    (ids.foldl (fun o id => o.reachTo id last) o).notes = o.notes := by
  induction ids generalizing o with
  | nil => rfl
  | cons id ids ih => exact ih

theorem notes_of_close {around : Scope} {closing : Closing} {after : Nat}
    (hn : (close s around closing o after).1.notes = []) : o.notes = [] := by
  unfold close at hn
  split at hn
  · exact hn
  · rwa [notes_reachTo_all] at hn
  · exact (List.append_eq_nil_iff.1 hn).1
  · simp only at hn
    have hrest := notes_of_readTypedefRest hn
    rwa [notes_reachTo, notes_claim] at hrest

theorem notes_of_step {frames : List Frame} (hn : (step s o frames i).outline.notes = []) :
    o.notes = [] := by
  unfold step at hn
  simp only at hn
  split at hn
  · exact hn
  split at hn
  · simpa using hn
  split at hn
  · split at hn
    · simp at hn
    · have hclose := notes_of_close hn
      rwa [notes_claim] at hclose
  split at hn
  · exact hn
  · exact notes_of_readDeclaration hn

theorem notes_of_closeAll {frames : List Frame} (hn : (closeAll s frames o i).notes = []) :
    frames = [] ∧ o.notes = [] := by
  induction frames generalizing o i with
  | nil => exact ⟨rfl, hn⟩
  | cons f around ih =>
    have hclose := notes_of_close (ih hn).2
    simp at hclose

theorem notes_of_readFrom {frames : List Frame} (hn : (readFrom s o frames i).notes = []) :
    o.notes = [] := by
  fun_induction readFrom s o frames i with
  | case1 o frames i hlt r ih => exact notes_of_step (ih hn)
  | case2 o frames i hlt => exact (notes_of_closeAll hn).2

end Outline

end DocIndex
