import DocIndex.Proofs.Commented.Statements
import DocIndex.Proofs.Commented.Lines

/-!
# Enumerations with one comment more

An enumeration is read as one declaration, its body included. The readings are compared where the
comment stands in front of it or behind.

* `readEnumerators_alike` — the enumerators.
* `readEnumeration_alike` — the whole enumeration, with the declarators behind its body.
-/

namespace DocIndex

namespace Source.Commented

variable {s s' : Source} {k i i' : Nat} (h : s.Commented s' k)
include h

/-- An enumerator that ends in front of the comment, or begins behind it, ends where it did. -/
theorem enumeratorEnd_past (hi : k ≤ i ∨ (s.enumeratorEnd i).index + 1 < k) :
    (s'.enumeratorEnd (past k i)).index = past k (s.enumeratorEnd i).index := by
  fun_induction enumeratorEnd s i with
  | case1 i hlt hend =>
    simp only at hi
    have hk : i + 1 ≠ k := by omega
    rw [enumeratorEnd, ← past_succ hk, dif_pos (h.lt_size_past.2 hlt), h.is_past, h.is_past,
      if_pos hend]
  | case2 i hlt hend hopen r ih =>
    have hgroup := le_groupEnd hlt
    have hle : s.groupEnd (i + 1) ≤ r.index := le_enumeratorEnd _
    simp only at hi
    have hk : i + 1 ≠ k := by omega
    rw [enumeratorEnd, ← past_succ hk, dif_pos (h.lt_size_past.2 hlt), h.is_past, h.is_past,
      if_neg hend, h.opensGroup_past, if_pos hopen, h.groupEnd_past]
    exact ih (hi.imp_left fun hi => by omega)
  | case3 i hlt hend hopen ih =>
    have hle := le_enumeratorEnd (s := s) (i + 1)
    have hk : i + 1 ≠ k := by omega
    rw [enumeratorEnd, ← past_succ hk, dif_pos (h.lt_size_past.2 hlt), h.is_past, h.is_past,
      if_neg hend, h.opensGroup_past, if_neg hopen]
    exact ih (hi.imp_left fun hi => by omega)
  | case4 i hlt =>
    have hlt' := h.lt
    simp only at hi
    have hk : i + 1 ≠ k := by omega
    rw [enumeratorEnd, ← past_succ hk, dif_neg (mt h.lt_size_past.1 hlt)]

/-- **The declarators behind a brace end where they do without the comment**, if it stands in front
of the brace or behind the declarators. -/
theorem declaratorsEnd_past {brace : Nat}
    (hi : k ≤ brace ∨ (Outline.declaratorsEnd s (brace + 1)).index < k)
    (hn : (Outline.declaratorsEnd s (brace + 1)).notes = []) :
    (Outline.declaratorsEnd s' (past k brace + 1)).index =
      past k (Outline.declaratorsEnd s (brace + 1)).index := by
  by_cases hk : brace + 1 = k
  · -- nothing follows the brace that is declared with it
    have hbrace : (Outline.declaratorsEnd s (brace + 1)).index = brace := by
      unfold Outline.declaratorsEnd at hi hn ⊢
      split
      · rename_i hsemi
        simp only [if_pos hsemi] at hi
        omega
      rename_i hsemi
      simp only [if_neg hsemi] at hi hn
      split
      · rename_i hmore
        rw [if_pos hmore] at hi hn
        have hle := (statementEnd_sound hn).2
        omega
      · rfl
    rw [hbrace, past_of_lt (show brace < k by omega), hk, Outline.declaratorsEnd,
      h.isIdentifier_comment]
    simp (disch := decide) only [h.is_comment, Bool.or_self, Bool.false_eq_true, if_false]
    omega
  · rw [← past_succ hk]
    have hpred : past k (brace + 1) - 1 = past k (brace + 1 - 1) := past_pred (by omega) hk
    unfold Outline.declaratorsEnd at hn ⊢
    simp only [h.is_past, h.isIdentifier_past, hpred]
    split
    · rfl
    rename_i hsemi
    rw [if_neg hsemi] at hn
    split
    · rename_i hmore
      rw [if_pos hmore] at hn
      exact h.statementEnd_past hn (abreast_past k _)
    · rfl

end Source.Commented

namespace Outline

variable {s s' : Source} {k : Nat} (h : s.Commented s' k) (hl : s.Loose k) {scope : Scope}
  {o o' : Outline} (ho : o.Alike o') {start start' i i' : Nat} {id : CursorId} {inTypedef : Bool}

open Source

include h hl ho in
/-- **The enumerators of a body are recognised**, with the comment in front of the body or
behind. -/
theorem readEnumerators_alike (hi : k ≤ i ∨ (readEnumerators s id o i).2 < k) :
    (readEnumerators s id o i).1.Alike (readEnumerators s' id o' (past k i)).1 ∧
      (readEnumerators s' id o' (past k i)).2 = past k (readEnumerators s id o i).2 := by
  fun_induction readEnumerators s id o i generalizing o' with
  | case1 o i hlt hend =>
    rw [readEnumerators, if_pos (h.lt_size_past.2 hlt), h.is_past, if_pos hend]
    exact ⟨ho, rfl⟩
  | case2 o i hlt hend hline ih =>
    have hle := le_next_readEnumerators (s := s) id (o.readDirective s i) (s.lineEnd i + 1)
    have hend' := le_lineEnd (s := s) i
    have hhash : s.is i "#" = true := by
      simp only [Bool.and_eq_true] at hline
      exact hline.1
    -- the comment stands in front of the line, or behind all that is read
    have hdirective := readDirective_alike h hl ho hhash (hi.imp_right fun hi => by omega)
    have hnext := (h.abreast_lineEnd (i := i) (hi.imp_right fun hi => by omega)).eq_past (by omega)
    rw [readEnumerators.eq_def s', if_pos (h.lt_size_past.2 hlt), h.is_past, if_neg hend, h.is_past,
      h.startsLine_past, if_pos hline, hnext]
    exact ih hdirective (hi.imp_left fun hi => by omega)
  | case3 o i hlt hend hline hname e last =>
    rename_i ih
    have hle := le_next_readEnumerators (s := s) id
      ((o.note e.notes).add .enumConstantDecl (s.spelling i) i last id) (e.index + 1)
    have hei : i ≤ e.index := le_enumeratorEnd i
    -- it does not stand within the enumerator, or directly behind it
    have hmode : k ≤ i ∨ e.index + 1 < k := hi.imp_right fun hi => by omega
    have hpast : (s'.enumeratorEnd (past k i)).index = past k e.index := h.enumeratorEnd_past hmode
    have hlast : s'.lastCode (past k i) (past k e.index) = past k last :=
      h.lastCode_past (hmode.imp_right fun hi => ⟨hei, by omega⟩)
    rw [readEnumerators.eq_def s', if_pos (h.lt_size_past.2 hlt), h.is_past, if_neg hend, h.is_past,
      h.startsLine_past, if_neg hline, h.isIdentifier_past, if_pos hname]
    simp only [hpast, hlast, h.spelling]
    rw [← past_succ (show e.index + 1 ≠ k by omega)]
    exact ih ((ho.note _ _).add ..) (hmode.imp (fun hi => by omega) fun hi => by omega)
  | case4 o i hlt hend hline hname ih =>
    have hle := le_next_readEnumerators (s := s) id (o.claim i i id) (i + 1)
    rw [readEnumerators.eq_def s', if_pos (h.lt_size_past.2 hlt), h.is_past, if_neg hend, h.is_past,
      h.startsLine_past, if_neg hline, h.isIdentifier_past, if_neg hname,
      ← past_succ (show i + 1 ≠ k by omega)]
    exact ih (ho.claim ..) (hi.imp_left fun hi => by omega)
  | case5 o i hlt =>
    rw [readEnumerators, if_neg (mt h.lt_size_past.1 hlt)]
    exact ⟨ho, rfl⟩

/-- Reads on behind the head of an enumeration with this name, at `j`. -/
def readEnumerationFrom (s : Source) (scope : Scope) (start key : Nat) (inTypedef : Bool)
    (name : String) (o : Outline) (j : Nat) : Outcome :=
  if s.is j "\x7b" then
    let r := o.declare .enumDecl name start j scope.parent
    (r.1.claim start j r.2).readEnumBody s r.2 start j inTypedef
  else if inTypedef then o.done j
  else if s.is j ";" then (o.add .enumDecl name start j scope.parent).done (j + 1)
  else o.readPlain s scope start key false

theorem readEnumeration_eq :
    o.readEnumeration s scope start i inTypedef =
      readEnumerationFrom s scope start i inTypedef (s.enumHead o.macros i).1
        (o.note (s.skipDecorations o.macros (s.enumKeyEnd i)).notes) (s.enumHead o.macros i).2 :=
  rfl

/-- The last lexeme of an enumeration whose body is closed at `brace`. -/
def enumEnd (s : Source) (inTypedef : Bool) (brace : Nat) : Reach :=
  if inTypedef then ⟨min brace (s.size - 1), []⟩ else declaratorsEnd s (brace + 1)

theorem le_enumEnd (inTypedef : Bool) {brace : Nat} (hlt : brace < s.size) :
    brace ≤ (enumEnd s inTypedef brace).index := by
  unfold enumEnd
  split
  · simp only
    omega
  · exact le_declaratorsEnd hlt (Nat.lt_succ_self brace)

include h in
theorem enumEnd_past {brace : Nat} (hlt : brace < s.size)
    (hi : k ≤ brace ∨ (enumEnd s inTypedef brace).index < k)
    (hn : (enumEnd s inTypedef brace).notes = []) :
    (enumEnd s' inTypedef (past k brace)).index = past k (enumEnd s inTypedef brace).index := by
  cases inTypedef with
  | false => exact h.declaratorsEnd_past hi hn
  | true =>
    have hlt' := h.lt_size_past.2 hlt
    simp only [enumEnd, if_true]
    rw [Nat.min_eq_left (by omega), Nat.min_eq_left (by omega)]

/-- The body of an enumeration that nothing is wrong with is closed. -/
theorem readEnumBody_sound {brace : Nat}
    (hn : (o.readEnumBody s id start brace inTypedef).outline.notes = []) :
    (readEnumerators s id o (brace + 1)).2 < s.size ∧
      (enumEnd s inTypedef (readEnumerators s id o (brace + 1)).2).notes = [] := by
  simp only [readEnumBody, done, notes_reachTo, notes_claim, notes_note,
    List.append_eq_nil_iff] at hn
  refine ⟨?_, hn.2⟩
  by_cases hlt : (readEnumerators s id o (brace + 1)).2 < s.size
  · exact hlt
  · rw [if_pos (by omega)] at hn
    simp at hn

theorem next_readEnumBody {brace : Nat} :
    (o.readEnumBody s id start brace inTypedef).next =
      (enumEnd s inTypedef (readEnumerators s id o (brace + 1)).2).index + 1 :=
  rfl

include h hl ho in
theorem readEnumBody_alike {brace : Nat}
    (hm : k ≤ brace ∨ (o.readEnumBody s id start brace inTypedef).next ≤ k)
    (hn : (o.readEnumBody s id start brace inTypedef).outline.notes = []) :
    (o.readEnumBody s id start brace inTypedef).Alike k
      (o'.readEnumBody s' id start' (past k brace) inTypedef) := by
  obtain ⟨hlt, hend⟩ := readEnumBody_sound hn
  have hle := le_next_readEnumerators (s := s) id o (brace + 1)
  have hle' := le_enumEnd inTypedef hlt
  rw [next_readEnumBody] at hm
  have hmode : k ≤ brace + 1 ∨ (readEnumerators s id o (brace + 1)).2 < k :=
    hm.imp (fun hm => by omega) fun hm => by omega
  obtain ⟨hbody, hbrace⟩ := readEnumerators_alike h hl ho hmode
  rw [past_succ (show brace + 1 ≠ k by omega)] at hbody hbrace
  have hpast := enumEnd_past h hlt (hm.imp (fun hm => by omega) fun hm => by omega) hend
  rw [← hbrace] at hpast
  refine ⟨?_, ?_, rfl⟩
  · simp only [readEnumBody, done]
    have hlt' : ¬ s'.size ≤ (readEnumerators s' id o' (past k brace + 1)).2 := by
      have := h.lt_size_past.2 hlt
      omega
    rw [if_neg (by omega), if_neg hlt']
    exact ((hbody.note _ _).claim ..).reachTo ..
  · rw [next_readEnumBody, next_readEnumBody, hpast]
    exact abreast_succ k _

/-- Reading goes on behind the head of an enumeration, unless the enumeration is left to a type
definition or is no more than a type. -/
theorem readEnumerationFrom_cases {name : String} {j : Nat}
    (hn : (readEnumerationFrom s scope start i inTypedef name o j).outline.notes = []) :
    j < (readEnumerationFrom s scope start i inTypedef name o j).next ∨
      (inTypedef = true ∧ readEnumerationFrom s scope start i inTypedef name o j = o.done j) ∨
      (inTypedef = false ∧ readEnumerationFrom s scope start i inTypedef name o j =
        o.readPlain s scope start i false) := by
  unfold readEnumerationFrom at hn ⊢
  simp only at hn ⊢
  split at hn
  · rename_i hbrace
    rw [if_pos hbrace, next_readEnumBody]
    have hle := le_next_readEnumerators (s := s) o.drafts.size
      ((o.declare .enumDecl name start j scope.parent).1.claim start j o.drafts.size) (j + 1)
    have hle' := le_enumEnd inTypedef (readEnumBody_sound hn).1
    simp only [Outline.declare] at hle hle' ⊢
    exact .inl (by omega)
  rename_i hbrace
  rw [if_neg hbrace]
  cases inTypedef with
  | true => exact .inr (.inl ⟨rfl, rfl⟩)
  | false =>
    simp only [Bool.false_eq_true, if_false]
    split
    · exact .inl (Nat.lt_succ_self j)
    · exact .inr (.inr ⟨trivial, rfl⟩)

include h hl ho in
/-- Behind its head an enumeration is recognised. -/
theorem readEnumerationFrom_alike {name : String} {j : Nat}
    (hm : k ≤ i ∧ k ≤ j ∨ (readEnumerationFrom s scope start i inTypedef name o j).next ≤ k)
    (hn : (readEnumerationFrom s scope start i inTypedef name o j).outline.notes = []) :
    (readEnumerationFrom s scope start i inTypedef name o j).Alike k
      (readEnumerationFrom s' scope start' (past k i) inTypedef name o' (past k j)) := by
  unfold readEnumerationFrom at hm hn ⊢
  simp only [h.is_past] at hm hn ⊢
  split
  · rename_i hbrace
    rw [if_pos hbrace] at hn hm
    have hid := ho.declare_id .enumDecl name start start' j (past k j) scope.parent
    rw [hid]
    exact readEnumBody_alike h hl ((ho.declare ..).claim ..) (hm.imp_left (·.2)) hn
  split
  · exact ⟨ho, abreast_past k j, rfl⟩
  split
  · exact ⟨ho.add .., abreast_succ k j, rfl⟩
  · rename_i hbrace htypedef hsemi
    simp only [if_neg hbrace, if_neg htypedef, if_neg hsemi] at hm hn
    exact readPlain_alike h hl ho (abreast_past k i)
      (fun j hj hk _ => hm.resolve_left (by omega)) hn

include h hl ho in
/-- **An enumeration is recognised with a comment in front of it or behind.** -/
theorem readEnumeration_alike (hi : i' = past k i)
    (hm : k ≤ i ∨ (o.readEnumeration s scope start i inTypedef).next ≤ k ∧
      (inTypedef = true → (o.readEnumeration s scope start i inTypedef).next < k))
    (hn : (o.readEnumeration s scope start i inTypedef).outline.notes = []) :
    (o.readEnumeration s scope start i inTypedef).Alike k
      (o'.readEnumeration s' scope start' i' inTypedef) := by
  subst hi
  rw [readEnumeration_eq] at hm hn ⊢
  rw [readEnumeration_eq]
  have hnote := ho.note (s.skipDecorations o.macros (s.enumKeyEnd i)).notes
    (s'.skipDecorations o'.macros (s'.enumKeyEnd (past k i))).notes
  rw [ho.macros] at hnote ⊢
  rcases h.enumHead_past o.macros i with hhead | ⟨hk, hstuck⟩
  · rw [hhead]
    have hlt := s.lt_enumHead o.macros i
    exact readEnumerationFrom_alike h hl hnote
      (hm.imp (fun hm => ⟨hm, by omega⟩) (·.1)) hn
  · have hge := s'.lt_enumHead o.macros (past k i)
    have hle := hstuck.le
    have hbefore : ¬ k ≤ i := by
      have := past_cases k i
      omega
    replace hm := hm.resolve_left hbefore
    rcases readEnumerationFrom_cases hn with hlt | ⟨htypedef, hdone⟩ | ⟨hnone, hplain⟩
    · omega
    · rw [hdone] at hm
      have hlt := hm.2 htypedef
      simp only [done] at hlt
      omega
    · rw [hplain] at hn hm ⊢
      have hplain' (name : String) (o' : Outline) :
          readEnumerationFrom s' scope start' (past k i) inTypedef name o'
              (s'.enumHead o.macros (past k i)).2 =
            o'.readPlain s' scope start' (past k i) false := by
        simp only [readEnumerationFrom, hstuck.is_eq "\x7b" (by decide),
          hstuck.is_eq ";" (by decide), hnone, Bool.false_eq_true, if_false]
      rw [hplain']
      exact readPlain_alike h hl hnote (abreast_past k i) (fun j _ _ _ => hm.1) hn

end Outline

end DocIndex
