import DocIndex.Proofs.Ahead.Scopes

/-!
# Declarations behind some lexemes

A declaration is recognised as it is alone, from the words in front on, if what is read for its
shape does not ask for what stands ahead of the text (`Lead.Apart`).

* `Lead.ownWords_ahead` — the same words stand in front.
* `Lead.read_ahead` — **a declaration is recognised alike.**
-/

namespace DocIndex

theorem Source.is_of_usingLine {s : Source} {start i : Nat} (hin : i < s.size)
    (ha : s.announced start i = .usingLine) : s.is i "using" = true := by
  have hword : s.spelling i = "using" := by
    unfold announced at ha
    split at ha <;> (try split at ha) <;> simp_all
  rw [is, hword, decide_eq_true hin]
  rfl

namespace Outline

variable {k : Nat} {front : List Face} {s s' : Source} (h : s.Ahead k s') {scope : Scope}
  {o o' : Outline} (ho : o.Ahead k front o') {start i : Nat} {templated : Bool}

open Source

include h ho in
/-- What is announced is recognised alike, if no more words follow in front. -/
theorem readAnnounced_ahead {a : Announced} (hprelude : ¬ a.IsPrelude) (hin : i < s.size)
    (hname : Nameless k s s' o.macros (i + 1))
    (hapart : ∀ j ∈ s.plainAt? o.macros i a, o.Apart k s s' j)
    (husing : i = 0 → a = .usingLine → (s.statementEnd (i + 1)).index ≠ 0) :
    (readAnnounced s scope start o i templated a).Ahead k front
      (readAnnounced s' (scope.behind front.length) (k + start) o' (k + i) templated
        (a.map (k + ·))) := by
  cases a with
  | namespaceHead keyword =>
    refine readNamespace_ahead h ho fun hassign hbrace => hapart _ ?_
    simp only [plainAt?, hassign, hbrace, Bool.or_self, Bool.false_eq_true, if_false,
      Option.mem_def]
  | linkage brace => exact readLinkage_ahead ho
  | exported => exact absurd trivial hprelude
  | moduleLine => exact readModule_ahead h ho
  | templateHead => exact absurd trivial hprelude
  | access => exact (ho.add _ _ _ _ _).done _
  | record =>
    refine readRecord_ahead h ho none fun _ hbrace hcolon hsemi => hapart _ ?_
    simp only [plainAt?, hbrace, hcolon, hsemi, Bool.or_self, Bool.false_eq_true, if_false,
      Option.mem_def]
  | enumeration =>
    refine readEnumeration_ahead h ho fun _ hbrace hsemi => hapart _ ?_
    simp only [plainAt?, hbrace, hsemi, Bool.or_self, Bool.false_eq_true, if_false, Option.mem_def]
  | usingLine => exact readUsing_ahead h ho (fun hi => husing hi rfl) hin
  | typedefLine => exact readTypedef_ahead h ho
  | simple kind => exact readSimple_ahead h ho hname
  | plain => exact readPlain_ahead h ho (hapart _ rfl)

include h ho in
theorem addMacroCall_ahead :
    (o.addMacroCall s i).1.Ahead k front (o'.addMacroCall s' (k + i)).1 ∧
      (o'.addMacroCall s' (k + i)).2 = .behind front.length (o.addMacroCall s i).2 := by
  have hnote := ho.note (s.macroCallNotes o.macros i) (s'.macroCallNotes o.macros (k + i))
  have hdeclare := hnote.declare .macroInstantiation (s.spelling i) i (k + i)
    (s.macroCallEnd o.macros i) (k + s.macroCallEnd o.macros i) 0
  have hid := hnote.declare_id .macroInstantiation (s.spelling i) i (k + i)
    (s.macroCallEnd o.macros i) (k + s.macroCallEnd o.macros i) 0 0
  simp only [addMacroCall, ho.macros, h.spelling, h.macroCallEnd_ahead, hid, and_true]
  exact hdeclare.claim _ _ _

end Outline

namespace Lead

variable {k : Nat} {front : List Face} {s s' : Source} (h : s.Ahead k s') {scope : Scope}
  {start : Nat} {l l' : Lead}

open Outline Source

/-- The same words have been read in front of a declaration, behind `k` lexemes and the cursors
`front`. -/
structure Ahead (k : Nat) (front : List Face) (l l' : Lead) : Prop where
  outline : l.outline.Ahead k front l'.outline
  index : l'.index = k + l.index
  templated : l'.templated = l.templated

/-- The declaration whose own words begin at the lead does not ask for what stands ahead of the
text. -/
structure Apart (k : Nat) (s s' : Source) (start : Nat) (l : Lead) : Prop where
  plain : ∀ j ∈ l.plainAt? s start, l.outline.Apart k s s' j
  usingLine : s.is 0 "using" = true → (s.statementEnd 1).index ≠ 0

/-! ## The words in front -/

include h in
theorem isWord_ahead (hl : l.Ahead k front l') : l'.IsWord s' (k + start) ↔ l.IsWord s start := by
  rw [IsWord, IsWord, hl.index, h.lt_size, h.is_ahead, decide_eq_decide.2 Nat.add_lt_add_iff_left]

include h in
/-- The same word follows in front. -/
theorem next?_ahead (hl : l.Ahead k front l') :
    Option.Rel (Ahead k front) (l.next? s start) (l'.next? s' (k + start)) := by
  by_cases hword : l.IsWord s start
  case neg =>
    rw [next?_of_not_isWord hword, next?_of_not_isWord (mt (isWord_ahead h hl).1 hword)]
    exact .none
  rw [next?_of_isWord hword, next?_of_isWord ((isWord_ahead h hl).2 hword), hl.index,
    hl.outline.macros, h.isMacroCall_ahead]
  split
  · rw [h.macroCallEnd_ahead, Nat.add_assoc, h.is_ahead, h.standsAlone_ahead]
    split
    · exact .none
    · exact .some ⟨(addMacroCall_ahead h hl.outline).1, rfl, hl.templated⟩
  · rw [h.announced_ahead, Nat.add_assoc, h.angleEnd_ahead]
    cases ha : s.announced start l.index with
    | exported => exact .some ⟨hl.outline, rfl, hl.templated⟩
    | templateHead => exact .some ⟨hl.outline, rfl, rfl⟩
    | _ => exact .none

include h in
/-- **The same words stand in front of a declaration.** -/
theorem ownWords_ahead (hl : l.Ahead k front l') :
    (l.ownWords s start).Ahead k front (l'.ownWords s' (k + start)) := by
  fun_induction ownWords s start l generalizing l' with
  | case1 l l₁ hnext ih =>
    have hrel : Option.Rel (Ahead k front) (l.next? s start) (l'.next? s' (k + start)) :=
      next?_ahead h hl
    rw [hnext] at hrel
    cases hnext' : l'.next? s' (k + start) with
    | none =>
      rw [hnext'] at hrel
      cases hrel
    | some l₁' =>
      rw [hnext'] at hrel
      cases hrel with
      | some hl₁ =>
        rw [ownWords_next? hnext']
        exact ih hl₁
  | case2 l hnone =>
    have hrel : Option.Rel (Ahead k front) (l.next? s start) (l'.next? s' (k + start)) :=
      next?_ahead h hl
    rw [hnone] at hrel
    cases hnone' : l'.next? s' (k + start) with
    | none =>
      rw [ownWords_none hnone']
      exact hl
    | some l₁' =>
      rw [hnone'] at hrel
      cases hrel

/-! ## Whole declarations -/

include h in
/-- A macro call that is a declaration of its own is recognised alike. -/
theorem read_macroCall_ahead (hl : l.Ahead k front l') (hword : l.IsWord s start)
    (hcalled : s.isMacroCall l.outline.macros l.index = true)
    (hnone : l.next? s start = none) :
    (l.read s scope start).Ahead k front
      (l'.read s' (scope.behind front.length) (k + start)) := by
  obtain ⟨hadd, hid⟩ := addMacroCall_ahead (i := l.index) h hl.outline
  have hword' : l'.IsWord s' (k + start) := (isWord_ahead h hl).2 hword
  have hcalled' : s'.isMacroCall l'.outline.macros l'.index = true := by
    rw [hl.index, hl.outline.macros, h.isMacroCall_ahead]
    exact hcalled
  rw [next?_of_isWord hword, if_pos hcalled] at hnone
  rw [read, read, readDeclaration_macroCall hword.1 hword.2 hcalled,
    readDeclaration_macroCall hword'.1 hword'.2 hcalled', hl.index, hl.outline.macros,
    h.macroCallEnd_ahead, hid, Nat.add_assoc, Nat.add_assoc, h.is_ahead, h.standsAlone_ahead]
  split
  · exact (hadd.claim _ _ _).done _
  split
  · exact hadd.done _
  · simp_all

/-- Words in front with nothing behind them are not the first ones of the text. -/
theorem pos_of_not_isWord (hsize : 0 < s.size) (hword : ¬ l.IsWord s start) : 0 < l.index := by
  refine Nat.pos_of_ne_zero fun hzero => hword ⟨hzero ▸ hsize, ?_⟩
  rw [hzero, decide_eq_false (Nat.not_lt_zero start), Bool.and_false]
  exact Bool.false_ne_true

/-- Behind its own words a declaration announces what it is. -/
theorem not_isPrelude_of_next? (hnone : l.next? s start = none) (hword : l.IsWord s start)
    (hcalled : ¬ s.isMacroCall l.outline.macros l.index = true) :
    ¬ (s.announced start l.index).IsPrelude := by
  intro hprelude
  rw [next?_of_isWord hword, if_neg hcalled] at hnone
  cases ha : s.announced start l.index <;> rw [ha] at hnone hprelude <;>
    first | exact hprelude | cases hnone

include h in
/-- **A declaration is recognised alike from its own words on.** -/
theorem read_ahead (hl : l.Ahead k front l') (hnone : l.next? s start = none)
    (hcode : s.isComment start = false) (hle : start ≤ l.index) (hapart : l.Apart k s s' start) :
    (l.read s scope start).Ahead k front
      (l'.read s' (scope.behind front.length) (k + start)) := by
  have hmoved : l'.IsWord s' (k + start) ↔ l.IsWord s start := isWord_ahead h hl
  by_cases hword : l.IsWord s start
  case neg =>
    have hpred : k + l.index - 1 = k + (l.index - 1) :=
      Nat.add_sub_assoc (pos_of_not_isWord h.pos hword) k
    rw [read_of_not_isWord hword, read_of_not_isWord (mt hmoved.1 hword), hl.index, hpred]
    simp only [h.lt_size]
    split
    · exact (hl.outline.add _ _ _ _ _).done _
    · exact hl.outline.done _
  by_cases hcalled : s.isMacroCall l.outline.macros l.index = true
  · exact read_macroCall_ahead h hl hword hcalled hnone
  have hword' := hmoved.2 hword
  have hcalled' : ¬ s'.isMacroCall l'.outline.macros l'.index = true := by
    rwa [hl.index, hl.outline.macros, h.isMacroCall_ahead]
  have hplain := hapart.plain
  rw [plainAt?, announced?_eq hword hcalled] at hplain
  rw [read, read, readDeclaration_announced hword.1 hword.2 hcalled,
    readDeclaration_announced hword'.1 hword'.2 hcalled', hl.index, hl.templated,
    h.announced_ahead]
  refine readAnnounced_ahead h hl.outline (not_isPrelude_of_next? hnone hword hcalled) hword.1
    (.of_code hcode (Nat.lt_succ_of_le hle)) hplain fun hzero ha => ?_
  rw [hzero] at ha ⊢
  exact hapart.usingLine (is_of_usingLine h.pos ha)

end Lead

end DocIndex
