import DocIndex.Proofs.Commented.Heads
import DocIndex.Proofs.Commented.Outline
import DocIndex.Proofs.Commented.Shape

/-!
# Functions, variables and aliases with one comment more

These are read up to the `;` or the body that ends them. Nothing that is looked for on the way is
missed because of a comment, but two: the spelling of an operator, which is joined from what stands
behind the keyword, and the name of a module, joined likewise.

* `readPlain_alike`, `readSimple_alike` — with the comment anywhere but in an operator's name.
* `readModule_alike`, `readUsing_alike` — with the comment in front or behind.
* `readTypedefRest_alike` — with the comment anywhere.
-/

namespace DocIndex

namespace Outline

variable {s s' : Source} {k : Nat} (h : s.Commented s' k) (hl : s.Loose k) {scope : Scope}
  {o o' : Outline} (ho : o.Alike o') {start start' i i' : Nat} {templated : Bool}

open Source

/-! ## Functions and variables -/

theorem next_readPlain :
    (o.readPlain s scope start i templated).next = (s.shape o.macros i).stop + 1 := by
  unfold readPlain
  simp only
  split <;> rfl

theorem notes_readPlain :
    (o.readPlain s scope start i templated).outline.notes =
      o.notes ++ (s.shape o.macros i).notes := by
  unfold readPlain
  simp only
  split
  · simp [done]
  · simp only [done]
    split <;> simp

include h hl ho

/-- **Functions and variables are recognised with a comment inside**, unless it stands in the name
of an operator. -/
theorem readPlain_alike (hi : Abreast k i i')
    (hword : ∀ j, i ≤ j → j < k → s.spelling j = "operator" →
      (o.readPlain s scope start i templated).next ≤ k)
    (hn : (o.readPlain s scope start i templated).outline.notes = []) :
    (o.readPlain s scope start i templated).Alike k
      (o'.readPlain s' scope start' i' templated) := by
  rw [notes_readPlain] at hn
  rw [next_readPlain] at hword
  have hshape := h.shape_past hl hi hword (List.append_eq_nil_iff.1 hn).2
  unfold readPlain
  rw [ho.macros, hshape]
  cases hname : (s.shape o.macros i).name with
  | none =>
    simp only [Shape.map, hname, Option.map_none]
    exact ⟨(ho.note _ _).add .., abreast_succ k _, rfl⟩
  | some nameAt =>
    have hnote := ho.note (s.shape o.macros i).notes
      ((s.shape o.macros i).notes.map (Note.map (past k)))
    simp only [Shape.map, hname, Option.map_some, h.qualifierOf_past hl, hnote.resolve,
      hnote.recordOf, h.spelling]
    refine ⟨?_, abreast_succ k _, rfl⟩
    simp only [done]
    split
    · exact hnote.add ..
    · exact hnote.add ..

theorem readSimple_alike {kind : CursorKind} (hi : i' = past k i)
    (hword : ∀ j, i ≤ j → j < k → s.spelling j = "operator" →
      (o.readSimple s scope kind start i).next ≤ k)
    (hn : (o.readSimple s scope kind start i).outline.notes = []) :
    (o.readSimple s scope kind start i).Alike k (o'.readSimple s' scope kind start' i') := by
  simp only [readSimple, done, notes_add, notes_note, List.append_eq_nil_iff] at hn hword
  have hshape := h.shape_past hl (hi ▸ abreast_succ k i) (fun j hj => hword j (by omega)) hn.2
  have hname : ((s.shape o.macros (i + 1)).map (past k)).name.map s'.spelling =
      (s.shape o.macros (i + 1)).name.map s.spelling := by
    simp only [Shape.map, Option.map_map]
    exact congrArg (Option.map · _) (funext h.spelling)
  simp only [readSimple, ho.macros, hshape, hname]
  exact ⟨(ho.note _ _).add .., abreast_succ k _, rfl⟩

/-! ## Modules, aliases and type definitions -/

omit hl ho in
theorem concatFrom_past {n : Nat} (hi : k ≤ i ∨ i + n ≤ k) :
    s'.concatFrom (past k i) n = s.concatFrom i n := by
  induction n generalizing i with
  | zero => rfl
  | succ n ih =>
    rw [concatFrom, concatFrom, h.spelling]
    cases n with
    | zero => rfl
    | succ n => rw [← past_succ (show i + 1 ≠ k by omega), ih (by omega)]

omit h hl ho in
theorem notes_readModule :
    (o.readModule s scope start i).outline.notes = o.notes ++ (s.statementEnd (i + 1)).notes := by
  simp only [readModule, done, notes_add]
  split <;> simp

omit hl in
theorem readModule_alike (hi : i' = past k i)
    (hm : k ≤ i ∨ (o.readModule s scope start i).next ≤ k)
    (hn : (o.readModule s scope start i).outline.notes = []) :
    (o.readModule s scope start i).Alike k (o'.readModule s' scope start' i') := by
  subst hi
  rw [notes_readModule] at hn
  replace hn := (List.append_eq_nil_iff.1 hn).2
  have hend := h.statementEnd_past hn (abreast_succ k i)
  have hle := (statementEnd_sound hn).2
  have hname : s'.concatFrom (past k i + 1)
        (past k (s.statementEnd (i + 1)).index - (past k i + 1)) =
      s.concatFrom (i + 1) ((s.statementEnd (i + 1)).index - (i + 1)) := by
    simp only [readModule, done] at hm
    have hcount : past k (s.statementEnd (i + 1)).index - past k (i + 1) =
        (s.statementEnd (i + 1)).index - (i + 1) := by
      have := past_cases k (s.statementEnd (i + 1)).index
      have := past_cases k (i + 1)
      omega
    rw [← past_succ (show i + 1 ≠ k by omega), hcount]
    exact concatFrom_past h (by omega)
  simp only [readModule, hend, hname, h.spelling]
  refine ⟨?_, abreast_succ k _, rfl⟩
  simp only [done]
  split
  · exact ((ho.note _ _).nameModule _).add ..
  · exact (ho.note _ _).add ..

omit h hl ho in
theorem notes_readUsing :
    (o.readUsing s scope start i templated).outline.notes =
      o.notes ++
        ((s.statementEnd (i + 1)).notes ++ (s.skipDecorations o.macros (i + 2)).notes) := by
  simp only [readUsing, done]
  (repeat' split) <;> simp

omit hl in
theorem readUsing_alike (hi : i' = past k i)
    (hm : k ≤ i ∨ (o.readUsing s scope start i templated).next ≤ k)
    (hn : (o.readUsing s scope start i templated).outline.notes = []) :
    (o.readUsing s scope start i templated).Alike k
      (o'.readUsing s' scope start' i' templated) := by
  subst hi
  simp only [notes_readUsing, List.append_eq_nil_iff] at hn
  replace hn := hn.2.1
  have hend := h.statementEnd_past hn (abreast_succ k i)
  have hle := (statementEnd_sound hn).2
  replace hm : k ≤ i ∨ (s.statementEnd (i + 1)).index < k := hm
  have hnext : past k i + 1 = past k (i + 1) := (past_succ (by omega)).symm
  have hlast : past k (s.statementEnd (i + 1)).index - 1 =
      past k ((s.statementEnd (i + 1)).index - 1) := past_pred (by omega) (by omega)
  -- reading is not held up in front of the `=`
  have halias : (s'.isIdentifier (past k i + 1) &&
        s'.is (s'.skipDecorations o.macros (past k i + 2)).index "=") =
      (s.isIdentifier (i + 1) && s.is (s.skipDecorations o.macros (i + 2)).index "=") := by
    rw [hnext, h.isIdentifier_past]
    cases hname : s.isIdentifier (i + 1) with
    | false => rfl
    | true =>
      have hsucc := statementEnd_succ (lt_size_of_isIdentifier hname) fun word hword =>
        h.spelling_ne_of_isIdentifier hname (isWordStart_statementMarks word hword)
      have hskip := h.skipDecorations_le_statementEnd o.macros (hsucc ▸ hn)
      rw [← hsucc] at hskip
      have hheld := h.skipDecorations_past o.macros (abreast_succ k (i + 1))
      rw [← hnext] at hheld
      rcases hheld with hheld | ⟨hk, hstuck⟩
      · rw [hheld, h.is_past]
      · have hge := le_skipDecorations (s := s') o.macros (past k i + 1 + 1)
        have hle' := hstuck.le
        have := past_cases k i
        omega
  simp only [readUsing, hend, hlast, h.spelling, ho.macros, halias]
  rw [hnext, h.is_past, h.spelling]
  refine ⟨?_, abreast_succ k _, rfl⟩
  simp only [done]
  split
  · exact (ho.note _ _).add ..
  split
  · exact (ho.note _ _).add ..
  · exact (ho.note _ _).add ..

omit hl in
theorem readTypedefRest_alike (hi : Abreast k i i')
    (hn : (o.readTypedefRest s scope start i).outline.notes = []) :
    (o.readTypedefRest s scope start i).Alike k (o'.readTypedefRest s' scope start' i') := by
  simp only [readTypedefRest, done, notes_add, notes_note, List.append_eq_nil_iff] at hn
  have hend := h.statementEnd_past hn.2 hi
  have hname : (s'.declaredName? i' (s'.statementEnd i').index).map s'.spelling =
      (s.declaredName? i (s.statementEnd i).index).map s.spelling := by
    rw [hend, h.declaredName?_past hi, Option.map_map]
    exact congrArg (Option.map · _) (funext h.spelling)
  simp only [readTypedefRest, hname]
  exact ⟨(ho.note _ _).add .., by rw [done, done, hend]; exact abreast_succ k _, rfl⟩

end Outline

end DocIndex
