import DocIndex.Proofs.Commented.Notes

/-!
# All declarations with one comment more

The words in front of a declaration's own — macros, `export`, template heads — are read one after
the other until one announces what follows. The readings are compared as long as they come to the
same words, and then by what is announced.

* `Source.Commented.announced_past` — what a word announces.
* `Outline.LeadsTo` — the own words of a function, a variable or the like begin here.
* `Outline.readDeclaration_alike` — **a declaration is recognised with one comment more.**
-/

namespace DocIndex

/-- The last lexeme that tells what is announced at `i`. -/
def Announced.reach (i : Nat) : Announced → Nat
  | .namespaceHead keyword => keyword
  | .linkage brace => brace
  | .templateHead | .access => i + 1
  | _ => i

/-- What is announced follows behind more words. -/
def Announced.IsPrelude : Announced → Prop
  | .exported | .templateHead => True
  | _ => False

namespace Source.Commented

variable {s s' : Source} {k i i' : Nat} (h : s.Commented s' k)
include h

/-- A linkage block is told by the two lexemes behind its keyword. -/
theorem linkage_past (hi : k ≤ i ∨
    ((s.kind? (i + 1) == some .literal && s.is (i + 2) "\x7b") = true → i + 2 < k)) :
    (if s'.kind? (past k i + 1) == some .literal && s'.is (past k i + 2) "\x7b" then
        Announced.linkage (past k i + 2)
      else .plain) =
      Announced.map (past k) (if s.kind? (i + 1) == some .literal && s.is (i + 2) "\x7b" then
        .linkage (i + 2)
      else .plain) := by
  by_cases hk : i + 1 = k ∨ i + 1 + 1 = k
  · have hnone : (s.kind? (i + 1) == some .literal && s.is (i + 2) "\x7b") = false := by
      refine Bool.eq_false_iff.2 fun hlinkage => ?_
      have hlt := hi.resolve_left (by omega) hlinkage
      omega
    have hnone' : (s'.kind? (past k i + 1) == some .literal &&
        s'.is (past k i + 2) "\x7b") = false := by
      rw [past_of_lt (show i < k by omega)]
      rcases hk with hk | hk
      · have hcomment := h.isComment
        rw [Source.isComment, beq_iff_eq] at hcomment
        rw [hk, hcomment]
        rfl
      · rw [show i + 2 = k by omega, h.is_comment (by decide), Bool.and_false]
    rw [hnone, hnone']
    rfl
  · have hk₁ : i + 1 ≠ k := fun hk' => hk (.inl hk')
    have hk₂ : i + 1 + 1 ≠ k := fun hk' => hk (.inr hk')
    have hpast : past k i + 2 = past k (i + 2) := by rw [past_succ hk₂, past_succ hk₁]
    rw [← past_succ hk₁, hpast, h.kind, h.is_past, apply_ite (Announced.map (past k))]
    rfl

/-- **The same is announced as without the comment**, unless the comment stands in front of a lexeme
that tells. -/
theorem announced_past (start : Nat)
    (hi : k ≤ i ∨ (s.announced start i).reach i < k) :
    s'.announced (past k start) (past k i) = (s.announced start i).map (past k) := by
  have hstart : (past k start == past k i) = (start == i) := by
    rw [Bool.eq_iff_iff, beq_iff_eq, beq_iff_eq, past_inj]
  -- what the next lexeme tells, it tells with the comment elsewhere
  have hnext {word : String} (hw : word.toList.head? ≠ some '/') {a a' b b' : Announced}
      (ha : i + 1 ≠ k → a' = a.map (past k)) (hb : b' = b.map (past k))
      (htell : s.is (i + 1) word = true → i + 1 ≠ k) :
      (if s'.is (past k i + 1) word then a' else b') =
        (if s.is (i + 1) word then a else b).map (past k) := by
    by_cases hk : i + 1 = k
    · have hword : s.is (i + 1) word = false := by
        cases hword : s.is (i + 1) word with
        | false => rfl
        | true => exact absurd hk (htell hword)
      rw [past_of_lt (show i < k by omega), hword, hk, h.is_comment hw, if_neg Bool.false_ne_true,
        if_neg Bool.false_ne_true]
      exact hb
    · rw [← past_succ hk, h.is_past, ha hk, hb, apply_ite (Announced.map (past k))]
  -- an announcement that the next lexeme makes does not reach over the comment
  have htell {word : String} {a b : Announced}
      (hi : k ≤ i ∨ (if s.is (i + 1) word then a else b).reach i < k) (ha : a.reach i = i + 1)
      (hword : s.is (i + 1) word = true) : i + 1 ≠ k := by
    rw [if_pos hword, ha] at hi
    omega
  unfold announced at hi ⊢
  rw [h.spelling, h.spelling, hstart]
  generalize s.spelling i = word at hi ⊢
  split
  all_goals try rfl
  all_goals simp only at hi
  case h_3 =>
    refine h.linkage_past (hi.imp_right fun hi hlinkage => ?_)
    rwa [if_pos hlinkage] at hi
  case h_5 => split <;> rfl
  case h_6 => split <;> rfl
  all_goals refine hnext (by decide) (fun hk => ?_) rfl (htell hi rfl)
  all_goals try rw [← past_succ hk]
  all_goals rfl

/-- At a comment nothing is announced. -/
theorem announced_comment (start : Nat) : s'.announced start k = .plain := by
  unfold announced
  have hslash := h.slash k h.isComment
  generalize s'.spelling k = word at hslash
  split
  all_goals first | rfl | exact absurd hslash (by decide)

/-! ## Macro calls -/

theorem isMacroCall_past (macros : Macros) (i : Nat) :
    s'.isMacroCall macros (past k i) = s.isMacroCall macros i := by
  simp only [isMacroCall, h.isIdentifier_past, h.spelling]

theorem isMacroCall_comment (macros : Macros) : s'.isMacroCall macros k = false := by
  rw [isMacroCall, h.isIdentifier_comment, Bool.false_and]

/-- A macro call ends where it did, if its arguments do not stand behind the comment alone. -/
theorem macroCallEnd_past (macros : Macros) (hi : k ≤ i ∨ s.macroCallEnd macros i < k) :
    s'.macroCallEnd macros (past k i) = past k (s.macroCallEnd macros i) := by
  unfold macroCallEnd at hi ⊢
  rw [h.spelling]
  by_cases hk : i + 1 = k
  · have hopen : (macros.lookup (s.spelling i) == some true && s.is (i + 1) "(") = false := by
      cases hopen : (macros.lookup (s.spelling i) == some true && s.is (i + 1) "(") with
      | false => rfl
      | true =>
        rw [if_pos hopen] at hi
        simp only [Bool.and_eq_true] at hopen
        have hle := le_groupEnd (lt_size_of_is hopen.2)
        omega
    rw [hopen, past_of_lt (show i < k by omega), hk, h.is_comment (by decide), Bool.and_false,
      if_neg Bool.false_ne_true, if_neg Bool.false_ne_true, past_of_lt (by omega)]
  · rw [← past_succ hk, h.is_past, h.groupEnd_past, apply_ite (past k)]

/-- A macro call stands alone as it did, if the comment does not stand directly behind it. -/
theorem standsAlone_past {last : Nat} (hk : last + 1 ≠ k) :
    s'.standsAlone (past k last) = s.standsAlone last := by
  have hlt : s'.size ≤ past k (last + 1) ↔ s.size ≤ last + 1 := by
    have := h.lt_size_past (i := last + 1)
    omega
  simp only [standsAlone, ← past_succ hk, h.is_past, h.stopLine, h.startLine, hlt]

end Source.Commented

namespace Outline

variable {s s' : Source} {k : Nat} (h : s.Commented s' k) (hl : s.Loose k) {scope : Scope}
  {o o' : Outline} (ho : o.Alike o') {start start' i i' : Nat} {templated : Bool}

open Source

include ho in
theorem addMacroCall_alike (hspelling : s'.spelling i' = s.spelling i) :
    (o.addMacroCall s i).1.Alike (o'.addMacroCall s' i').1 ∧
      (o'.addMacroCall s' i').2 = (o.addMacroCall s i).2 := by
  simp only [addMacroCall, hspelling]
  have hnote := ho.note (s.macroCallNotes o.macros i) (s'.macroCallNotes o'.macros i')
  exact ⟨(hnote.declare ..).claim .., hnote.declare_id ..⟩

/-! ## Type definitions -/

/-- What is left of a type definition that nothing is wrong with ends behind where it is read. -/
theorem lt_next_of_readTypedefRest
    (hn : (o.readTypedefRest s scope start i).outline.notes = []) :
    i < (o.readTypedefRest s scope start i).next := by
  simp only [readTypedefRest, done, notes_add, notes_note, List.append_eq_nil_iff] at hn ⊢
  exact Nat.lt_succ_of_le (statementEnd_sound hn.2).2

/-- Reads on behind the class or the enumeration that a type definition begins with, unless its body
is read first. -/
def readTypedefAfter (s : Source) (scope : Scope) (start : Nat) (r : Outcome) : Outcome :=
  match r.opened with
  | some _ => r
  | none => r.outline.readTypedefRest s scope start r.next

theorem readTypedefAfter_sound {r : Outcome}
    (hn : (readTypedefAfter s scope start r).outline.notes = []) :
    r.outline.notes = [] ∧ r.next ≤ (readTypedefAfter s scope start r).next ∧
      (r.opened = none → r.next < (readTypedefAfter s scope start r).next) := by
  unfold readTypedefAfter at hn ⊢
  split
  · rename_i f hopened
    rw [hopened] at hn
    exact ⟨hn, Nat.le_refl _, fun hnone => by rw [hopened] at hnone; cases hnone⟩
  · rename_i hopened
    rw [hopened] at hn
    have hlt := lt_next_of_readTypedefRest hn
    exact ⟨notes_of_readTypedefRest hn, Nat.le_of_lt hlt, fun _ => hlt⟩

include h in
theorem readTypedefAfter_alike {r r' : Outcome} (hr : r.Alike k r')
    (hn : (readTypedefAfter s scope start r).outline.notes = []) :
    (readTypedefAfter s scope start r).Alike k (readTypedefAfter s' scope start' r') := by
  have hopened := hr.opened
  unfold readTypedefAfter at hn ⊢
  cases hf : r.opened with
  | some f =>
    obtain ⟨f', hf', -⟩ := Option.map_eq_some_iff.1 (hopened.trans (congrArg _ hf))
    rw [hf']
    exact hr
  | none =>
    rw [hf] at hn hopened
    rw [Option.map_eq_none_iff.1 hopened]
    exact readTypedefRest_alike h hr.outline hr.next hn

/-- A class key stands at `i`. -/
def startsRecord (s : Source) (i : Nat) : Bool :=
  s.is i "struct" || s.is i "class" || s.is i "union"

theorem opened_readEnumeration {inTypedef : Bool} :
    (o.readEnumeration s scope start i inTypedef).opened = none := by
  have hplain {o : Outline} : (o.readPlain s scope start i false).opened = none := by
    unfold readPlain
    simp only
    split <;> rfl
  rw [readEnumeration_eq, readEnumerationFrom]
  split
  · rfl
  split
  · rfl
  split
  · rfl
  · exact hplain

theorem readTypedef_eq :
    o.readTypedef s scope start i =
      if startsRecord s (i + 1) then
        readTypedefAfter s scope start (o.readRecord s scope (i + 1) (i + 1) false (some start))
      else if s.is (i + 1) "enum" then
        readTypedefAfter s scope start (o.readEnumeration s scope (i + 1) (i + 1) true)
      else o.readTypedefRest s scope start (i + 1) := by
  have henum : readTypedefAfter s scope start (o.readEnumeration s scope (i + 1) (i + 1) true) =
      (o.readEnumeration s scope (i + 1) (i + 1) true).outline.readTypedefRest s scope start
        (o.readEnumeration s scope (i + 1) (i + 1) true).next := by
    rw [readTypedefAfter, opened_readEnumeration]
  rw [henum]
  rfl

include h hl ho in
/-- **A type definition is recognised with a comment in front of it or behind.** -/
theorem readTypedef_alike (hi : i' = past k i)
    (hm : k ≤ i ∨ (o.readTypedef s scope start i).next ≤ k)
    (hn : (o.readTypedef s scope start i).outline.notes = []) :
    (o.readTypedef s scope start i).Alike k (o'.readTypedef s' scope start' i') := by
  subst hi
  rw [readTypedef_eq] at hm hn ⊢
  rw [readTypedef_eq]
  have hstarts (hk : i + 1 ≠ k) :
      startsRecord s' (past k i + 1) = startsRecord s (i + 1) := by
    simp only [startsRecord, ← past_succ hk, h.is_past]
  split at hn
  · rename_i hrecord
    have hlt : i + 1 < s.size := by
      simp only [startsRecord, Bool.or_eq_true] at hrecord
      rcases hrecord with (hword | hword) | hword <;> exact lt_size_of_is hword
    have hnext : i + 1 < (o.readRecord s scope (i + 1) (i + 1) false (some start)).next :=
      lt_next_readRecord hlt (Nat.le_refl (i + 1))
    obtain ⟨hnotes, hle, hrest⟩ := readTypedefAfter_sound hn
    rw [if_pos hrecord] at hm ⊢
    have hk : i + 1 ≠ k := by omega
    rw [hstarts hk, if_pos hrecord, ← past_succ hk]
    refine readTypedefAfter_alike h (readRecord_alike h hl ho rfl rfl ?_ hnotes) hn
    refine hm.imp Nat.le_succ_of_le fun hm => ⟨Nat.le_trans hle hm, fun _ hopened => ?_⟩
    exact Nat.lt_of_lt_of_le (hrest hopened) hm
  rename_i hrecord
  split at hn
  · rename_i henum
    have hnext : i + 1 < (o.readEnumeration s scope (i + 1) (i + 1) true).next :=
      lt_next_readEnumeration (lt_size_of_is henum) (Nat.le_refl (i + 1))
    obtain ⟨hnotes, hle, hrest⟩ := readTypedefAfter_sound hn
    rw [if_neg hrecord, if_pos henum] at hm ⊢
    have hk : i + 1 ≠ k := by omega
    rw [hstarts hk, if_neg hrecord, ← past_succ hk, h.is_past, if_pos henum]
    refine readTypedefAfter_alike h (readEnumeration_alike h hl ho rfl ?_ hnotes) hn
    refine hm.imp Nat.le_succ_of_le fun hm => ⟨Nat.le_trans hle hm, fun _ => ?_⟩
    exact Nat.lt_of_lt_of_le (hrest opened_readEnumeration) hm
  · rename_i henum
    rw [if_neg hrecord, if_neg henum] at hm ⊢
    have hlt := lt_next_of_readTypedefRest hn
    have hk : i + 1 ≠ k := by omega
    rw [hstarts hk, if_neg hrecord, ← past_succ hk, h.is_past, if_neg henum]
    exact readTypedefRest_alike h ho (abreast_past k _) hn

/-! ## The words in front -/

/-- A declaration that is read from `i` on, after what stands in front, has own words that begin at
`j` and are read for their shape alone: those of a function, a variable or the like. -/
inductive LeadsTo (s : Source) (start : Nat) : Outline → Nat → Nat → Prop
  | plain {o : Outline} {i : Nat} (hcalled : s.isMacroCall o.macros i = false)
      (ha : s.announced start i = .plain) : LeadsTo s start o i i
  | simple {o : Outline} {i : Nat} {kind : CursorKind} (hcalled : s.isMacroCall o.macros i = false)
      (ha : s.announced start i = .simple kind) : LeadsTo s start o i i
  | macroCall {o : Outline} {i j : Nat} (hcalled : s.isMacroCall o.macros i = true)
      (hsemi : s.is (s.macroCallEnd o.macros i + 1) ";" = false)
      (halone : s.standsAlone (s.macroCallEnd o.macros i) = false)
      (hlead : LeadsTo s start (o.addMacroCall s i).1 (s.macroCallEnd o.macros i + 1) j) :
      LeadsTo s start o i j
  | exported {o : Outline} {i j : Nat} (hcalled : s.isMacroCall o.macros i = false)
      (ha : s.announced start i = .exported) (hlead : LeadsTo s start o (i + 1) j) :
      LeadsTo s start o i j
  | templateHead {o : Outline} {i j : Nat} (hcalled : s.isMacroCall o.macros i = false)
      (ha : s.announced start i = .templateHead)
      (hlead : LeadsTo s start o (s.angleEnd (i + 1) + 1) j) : LeadsTo s start o i j

theorem le_of_leadsTo {j : Nat} (hlead : LeadsTo s start o i j) : i ≤ j := by
  induction hlead with
  | plain | simple => exact Nat.le_refl _
  | macroCall hcalled hsemi halone hlead ih =>
    exact Nat.le_trans (s.le_macroCallEnd _ _) (Nat.le_of_succ_le ih)
  | exported hcalled ha hlead ih => exact Nat.le_of_succ_le ih
  | templateHead hcalled ha hlead ih =>
    have := le_angleEnd (lt_size_of_is (is_of_announced ha))
    omega

/-- No macro call ends directly in front of lexeme `k`, but on a line of its own. -/
def MacrosApart (s' : Source) (k : Nat) (o : Outline) : Prop :=
  ∀ d ∈ o.drafts, d.kind = .macroInstantiation → d.last + 1 = k →
    s'.stopLine (k - 1) < s'.startLine k

/-- The comment stands where it makes no difference to the declaration that begins at `start`, and
is read from `i` on to the outcome `r`: in front of it, behind it, or within what is read for its
shape alone and spells out no operator. -/
inductive Clear (s s' : Source) (k start : Nat) (o : Outline) (i i' : Nat) (r : Outcome) : Prop
  | front (hk : k ≤ start) (hi : i' = past k i)
  | behind (hk : start < k) (hi : Abreast k i i') (hnext : r.next ≤ k)
      (hapart : r.next = k → MacrosApart s' k r.outline)
  | within {j : Nat} (hk : start < k) (hi : Abreast k i i') (hlead : LeadsTo s start o i j)
      (hj : j < k) (hword : ∀ m, j ≤ m → m < k → s.spelling m ≠ "operator")

/-- Reads on as a word at `i` announces. -/
def readAnnounced (s : Source) (scope : Scope) (start : Nat) (o : Outline) (i : Nat)
    (templated : Bool) : Announced → Outcome
  | .namespaceHead keyword => o.readNamespace s scope start keyword
  | .linkage brace => o.readLinkage scope start brace
  | .exported => readDeclaration s scope start o (i + 1) templated
  | .moduleLine => o.readModule s scope start i
  | .templateHead => readDeclaration s scope start o (s.angleEnd (i + 1) + 1) true
  | .access => (o.add .accessSpecifier "" start (i + 1) scope.parent).done (i + 2)
  | .record => o.readRecord s scope start i templated none
  | .enumeration => o.readEnumeration s scope start i false
  | .usingLine => o.readUsing s scope start i templated
  | .typedefLine => o.readTypedef s scope start i
  | .simple kind => o.readSimple s scope kind start i
  | .plain => o.readPlain s scope start i templated

theorem readDeclaration_announced (hlt : i < s.size)
    (hbrace : ¬ (s.is i "\x7d" && start < i) = true) (hcalled : ¬ s.isMacroCall o.macros i = true) :
    readDeclaration s scope start o i templated =
      readAnnounced s scope start o i templated (s.announced start i) := by
  rw [readDeclaration, dif_pos hlt, if_neg hbrace, if_neg hcalled]
  split <;> rename_i ha <;> rw [ha] <;> rfl

theorem readDeclaration_macroCall (hlt : i < s.size)
    (hbrace : ¬ (s.is i "\x7d" && start < i) = true) (hcalled : s.isMacroCall o.macros i = true) :
    readDeclaration s scope start o i templated =
      if s.is (s.macroCallEnd o.macros i + 1) ";" then
        ((o.addMacroCall s i).1.claim (s.macroCallEnd o.macros i + 1)
          (s.macroCallEnd o.macros i + 1) (o.addMacroCall s i).2).done
          (s.macroCallEnd o.macros i + 2)
      else if s.standsAlone (s.macroCallEnd o.macros i) then
        (o.addMacroCall s i).1.done (s.macroCallEnd o.macros i + 1)
      else
        readDeclaration s scope start (o.addMacroCall s i).1 (s.macroCallEnd o.macros i + 1)
          templated := by
  rw [readDeclaration, dif_pos hlt, if_neg hbrace, if_pos hcalled]

/-- Where a declaration goes on, the readings stand at the same lexeme. -/
theorem Clear.here {r : Outcome} (hclear : Clear s s' k start o i i' r)
    (hnext : i < r.next ∨ start = i) : i' = past k i ∧ (k ≤ start ∨ i < k) := by
  cases hclear with
  | front hk hi' => exact ⟨hi', .inl hk⟩
  | behind hk hi' hle hapart => exact ⟨hi'.eq_past (by omega), .inr (by omega)⟩
  | within hk hi' hlead hj hword =>
    have := le_of_leadsTo hlead
    exact ⟨hi'.eq_past (by omega), .inr (by omega)⟩

theorem le_next_readDeclaration (s : Source) (scope : Scope) (start : Nat) (o : Outline) (i : Nat)
    (templated : Bool) : i ≤ (readDeclaration s scope start o i templated).next := by
  rcases next_readDeclaration (s := s) (o := o) with hnext | ⟨hnext, -⟩
  · exact Nat.le_of_lt hnext
  · exact Nat.le_of_eq hnext.symm

/-- What a word announces is read as far as the lexeme that tells it. -/
theorem reach_lt_next {a : Announced} (ha : s.announced start i = a) (hlt : i < s.size)
    (hn : (readAnnounced s scope start o i templated a).outline.notes = []) :
    a.reach i < (readAnnounced s scope start o i templated a).next := by
  cases a with
  | namespaceHead keyword =>
    have hle := le_namespaceHead s (keyword + 1)
    have hnext := lt_next_readNamespaceFrom hn
    exact Nat.lt_trans (Nat.lt_of_succ_le hle) hnext
  | linkage brace => exact Nat.lt_succ_self brace
  | exported =>
    have hnext := le_next_readDeclaration s scope start o (i + 1) templated
    exact Nat.lt_of_succ_le hnext
  | moduleLine => exact lt_next_readModule hlt (Nat.le_refl i)
  | templateHead =>
    have hangle := le_angleEnd (lt_size_of_is (is_of_announced ha))
    have hnext := le_next_readDeclaration s scope start o (s.angleEnd (i + 1) + 1) true
    exact Nat.lt_of_le_of_lt hangle (Nat.lt_of_succ_le hnext)
  | access => exact Nat.lt_succ_self _
  | record => exact lt_next_readRecord hlt (Nat.le_refl i)
  | enumeration => exact lt_next_readEnumeration hlt (Nat.le_refl i)
  | usingLine => exact lt_next_readUsing hlt (Nat.le_refl i)
  | typedefLine => exact lt_next_readTypedef hlt (Nat.le_refl i)
  | simple kind => exact lt_next_readSimple hlt (Nat.le_refl i)
  | plain => exact lt_next_readPlain hlt (Nat.le_refl i)

include h hl ho in
/-- What is announced is recognised, if no more words follow in front. -/
theorem readAnnounced_alike {a : Announced} (ha : s.announced start i = a)
    (hprelude : ¬ a.IsPrelude)
    (hm : k ≤ i ∨ (readAnnounced s scope start o i templated a).next ≤ k ∨
      (a = .plain ∨ ∃ kind, a = .simple kind) ∧
        ∀ m, i ≤ m → m < k → s.spelling m ≠ "operator")
    (hn : (readAnnounced s scope start o i templated a).outline.notes = []) :
    (readAnnounced s scope start o i templated a).Alike k
      (readAnnounced s' scope start' o' (past k i) templated (a.map (past k))) := by
  -- only plain declarations may have the comment inside
  have houtside (hplain : ¬ (a = .plain ∨ ∃ kind, a = .simple kind)) :
      k ≤ i ∨ (readAnnounced s scope start o i templated a).next ≤ k :=
    hm.imp_right fun hm => hm.resolve_right fun hm => hplain hm.1
  have hword : ∀ m, i ≤ m → m < k → s.spelling m = "operator" →
      (readAnnounced s scope start o i templated a).next ≤ k := fun m hi hk hspelling => by
    rcases hm with hm | hm | ⟨-, hm⟩
    · omega
    · exact hm
    · exact absurd hspelling (hm m hi hk)
  cases a with
  | namespaceHead keyword =>
    have hle := le_of_announced (.inl ha)
    exact readNamespace_alike h ho rfl ((houtside (by simp)).imp_left fun hm => by omega) hn
  | linkage brace => exact readLinkage_alike ho
  | exported => exact absurd trivial hprelude
  | moduleLine => exact readModule_alike h ho rfl (houtside (by simp)) hn
  | templateHead => exact absurd trivial hprelude
  | access =>
    have hk : i + 1 ≠ k := by
      have hm := houtside (by simp)
      simp only [readAnnounced, done] at hm
      omega
    have hnext := abreast_succ k (i + 1)
    rw [past_succ hk] at hnext
    exact ⟨ho.add .., hnext, rfl⟩
  | record =>
    refine readRecord_alike h hl ho rfl rfl ((houtside (by simp)).imp_right fun hm => ?_) hn
    exact ⟨hm, fun houter => by cases houter⟩
  | enumeration =>
    refine readEnumeration_alike h hl ho rfl ((houtside (by simp)).imp_right fun hm => ?_) hn
    exact ⟨hm, fun htypedef => by cases htypedef⟩
  | usingLine => exact readUsing_alike h ho rfl (houtside (by simp)) hn
  | typedefLine => exact readTypedef_alike h hl ho rfl (houtside (by simp)) hn
  | simple kind => exact readSimple_alike h hl ho rfl hword hn
  | plain => exact readPlain_alike h hl ho (abreast_past k i) hword hn

include h ho in
/-- Words in front of a closing brace declare nothing, with a comment behind them as without. -/
theorem readDeclaration_brace (hbrace : s.is i "\x7d" = true) (hstart : start < i)
    (hi : Abreast k i i') :
    ((o.add .unexposedDecl "" start (i - 1) scope.parent).done i).Alike k
      (readDeclaration s' scope (past k start) o' i' templated) := by
  have hlt := lt_size_of_is hbrace
  have hbrace' := (h.is_past i "\x7d").trans hbrace
  rcases hi with rfl | ⟨hk, hk'⟩
  · have hend : (s'.is (past k i) "\x7d" && decide (past k start < past k i)) = true := by
      rw [hbrace', decide_eq_true (past_lt_past.2 hstart), Bool.and_self]
    rw [readDeclaration, dif_pos (h.lt_size_past.2 hlt), if_pos hend]
    exact ⟨ho.add .., abreast_past k i, rfl⟩
  · -- the comment is read as a declaration that names nothing and ends with it
    subst hk
    rw [past_of_le (Nat.le_refl i)] at hbrace'
    have hspelling : s'.spelling (i + 1) = "\x7d" := by
      simp only [is, Bool.and_eq_true, beq_iff_eq] at hbrace'
      exact hbrace'.2
    have hcode : ¬ s'.isComment (i + 1) = true := fun hcomment => by
      have hslash := h.slash _ hcomment
      rw [hspelling] at hslash
      exact absurd hslash (by decide)
    have hshape : s'.shape o'.macros i =
        (ShapeState.empty.note [⟨i + 1, .noSemicolonAfterDeclaration⟩]).finish (max i i) := by
      have hcomment : s'.shapeStep o'.macros i .empty i = .next (i + 1) .empty := by
        rw [shapeStep, if_pos h.isComment]
      have hdone : s'.shapeStep o'.macros i .empty (i + 1) =
          .done ((ShapeState.empty.note [⟨i + 1, .noSemicolonAfterDeclaration⟩]).finish
            (max i i)) := by
        rw [shapeStep, if_neg hcode]
        simp only [ShapeState.empty, Nat.lt_irrefl, decide_false, Bool.false_and,
          Bool.false_eq_true, if_false]
        rw [plainStep, mark, hspelling]
        rfl
      rw [shape, shapeFrom_next h.lt_size hcomment,
        shapeFrom_done (lt_size_of_is hbrace') hdone]
    rw [hk', readDeclaration_announced h.lt_size
        (by rw [h.is_comment (by decide), Bool.false_and]; exact Bool.false_ne_true)
        (by rw [h.isMacroCall_comment]; exact Bool.false_ne_true),
      h.announced_comment, readAnnounced, readPlain, hshape, Nat.max_self]
    have hnote : o.Alike (o'.note [⟨i + 1, .noSemicolonAfterDeclaration⟩]) :=
      ⟨ho.faces, ho.macros, ho.scopes, ho.moduleName⟩
    exact ⟨hnote.add .., .inl (past_of_le (Nat.le_refl i)).symm, rfl⟩

/-! ## What stands in front -/

theorem le_reach {a : Announced} (ha : s.announced start i = a) : i ≤ a.reach i := by
  cases a with
  | namespaceHead keyword => exact le_of_announced (.inl ha)
  | linkage brace => exact le_of_announced (.inr ha)
  | templateHead | access => exact Nat.le_succ i
  | _ => exact Nat.le_refl i

theorem LeadsTo.of_macroCall {j : Nat} (hlead : LeadsTo s start o i j)
    (hcalled : s.isMacroCall o.macros i = true) :
    s.is (s.macroCallEnd o.macros i + 1) ";" = false ∧
      s.standsAlone (s.macroCallEnd o.macros i) = false ∧
      LeadsTo s start (o.addMacroCall s i).1 (s.macroCallEnd o.macros i + 1) j := by
  cases hlead with
  | macroCall _ hsemi halone hlead => exact ⟨hsemi, halone, hlead⟩
  | plain hcalled' | simple hcalled' | exported hcalled' | templateHead hcalled' =>
    rw [hcalled] at hcalled'
    cases hcalled'

theorem LeadsTo.of_announced {j : Nat} (hlead : LeadsTo s start o i j)
    (hcalled : ¬ s.isMacroCall o.macros i = true) {a : Announced} (ha : s.announced start i = a) :
    (i = j ∧ (a = .plain ∨ ∃ kind, a = .simple kind)) ∨
      (a = .exported ∧ LeadsTo s start o (i + 1) j) ∨
      (a = .templateHead ∧ LeadsTo s start o (s.angleEnd (i + 1) + 1) j) := by
  cases hlead with
  | macroCall hcalled' => exact absurd hcalled' hcalled
  | plain _ ha' => exact .inl ⟨rfl, .inl (ha.symm.trans ha')⟩
  | simple _ ha' => exact .inl ⟨rfl, .inr ⟨_, ha.symm.trans ha'⟩⟩
  | exported _ ha' hlead => exact .inr (.inl ⟨ha.symm.trans ha', hlead⟩)
  | templateHead _ ha' hlead => exact .inr (.inr ⟨ha.symm.trans ha', hlead⟩)

/-- Behind `export` and behind a template head the same words come. -/
theorem LeadsTo.of_exported {j : Nat} (hlead : LeadsTo s start o i j)
    (hcalled : ¬ s.isMacroCall o.macros i = true) (ha : s.announced start i = .exported) :
    LeadsTo s start o (i + 1) j := by
  rcases hlead.of_announced hcalled ha with ⟨-, hplain | ⟨kind, hplain⟩⟩ | ⟨-, hlead⟩ | ⟨hhead, -⟩
  · cases hplain
  · cases hplain
  · exact hlead
  · cases hhead

theorem LeadsTo.of_templateHead {j : Nat} (hlead : LeadsTo s start o i j)
    (hcalled : ¬ s.isMacroCall o.macros i = true) (ha : s.announced start i = .templateHead) :
    LeadsTo s start o (s.angleEnd (i + 1) + 1) j := by
  rcases hlead.of_announced hcalled ha with ⟨-, hplain | ⟨kind, hplain⟩⟩ | ⟨hword, -⟩ | ⟨-, hlead⟩
  · cases hplain
  · cases hplain
  · cases hword
  · exact hlead

theorem Clear.abreast {r : Outcome} (hclear : Clear s s' k start o i i' r) : Abreast k i i' := by
  cases hclear with
  | front _ hi => exact .inl hi
  | behind _ hi => exact hi
  | within _ hi => exact hi

/-- Behind a word in front the comment stands as clear. -/
theorem Clear.behindWord {r : Outcome} (hclear : Clear s s' k start o i i' r) {o₁ : Outline}
    {i₁ i₁' : Nat} (hi : Abreast k i₁ i₁') (hstart : start < i₁)
    (hlead : ∀ j, LeadsTo s start o i j → LeadsTo s start o₁ i₁ j) :
    Clear s s' k start o₁ i₁ i₁' r := by
  cases hclear with
  | front hk _ => exact .front hk (hi.eq_past (by omega))
  | behind hk _ hnext hapart => exact .behind hk hi hnext hapart
  | within hk _ hlead' hj hword => exact .within hk hi (hlead _ hlead') hj hword

theorem mem_addMacroCall (o : Outline) (i : Nat) :
    ∃ d ∈ (o.addMacroCall s i).1.drafts,
      d.kind = .macroInstantiation ∧ d.last = s.macroCallEnd o.macros i := by
  have hle := s.le_macroCallEnd o.macros i
  refine ⟨⟨.macroInstantiation, s.spelling i, i, max (s.macroCallEnd o.macros i) i, some 0⟩, ?_,
    rfl, Nat.max_eq_left hle⟩
  exact Array.mem_push_self

include h in
theorem endsPrelude_past (hbrace : ¬ (s.is i "\x7d" && start < i) = true) :
    ¬ (s'.is (past k i) "\x7d" && past k start < past k i) = true := by
  rwa [h.is_past, decide_eq_decide.2 past_lt_past]

include h hl ho in
/-- A declaration is recognised if no more words stand in front. -/
theorem readDeclaration_words {a : Announced} (hi : start ≤ i) (hlt : i < s.size)
    (hbrace : ¬ (s.is i "\x7d" && start < i) = true) (hcalled : ¬ s.isMacroCall o.macros i = true)
    (ha : s.announced start i = a) (hprelude : ¬ a.IsPrelude)
    (hclear : Clear s s' k start o i i' (readAnnounced s scope start o i templated a))
    (hn : (readAnnounced s scope start o i templated a).outline.notes = []) :
    (readAnnounced s scope start o i templated a).Alike k
      (readDeclaration s' scope (past k start) o' i' templated) := by
  have hreach := reach_lt_next ha hlt hn
  obtain ⟨rfl, -⟩ := hclear.here (.inl (Nat.lt_of_le_of_lt (le_reach ha) hreach))
  have hplain {j : Nat} (hlead : LeadsTo s start o i j) :
      i = j ∧ (a = .plain ∨ ∃ kind, a = .simple kind) := by
    rcases hlead.of_announced hcalled ha with hplain | ⟨rfl, -⟩ | ⟨rfl, -⟩
    · exact hplain
    · exact absurd trivial hprelude
    · exact absurd trivial hprelude
  have hannounced : s'.announced (past k start) (past k i) = a.map (past k) := by
    rw [← ha]
    refine h.announced_past start ?_
    rw [ha]
    cases hclear with
    | front hk _ => exact .inl (Nat.le_trans hk hi)
    | behind _ _ hnext _ => exact .inr (Nat.lt_of_lt_of_le hreach hnext)
    | within _ _ hlead hj _ =>
      obtain ⟨rfl, rfl | ⟨kind, rfl⟩⟩ := hplain hlead <;> exact .inr hj
  rw [readDeclaration_announced (h.lt_size_past.2 hlt) (endsPrelude_past h hbrace)
    (by rwa [ho.macros, h.isMacroCall_past]), hannounced]
  refine readAnnounced_alike h hl ho ha hprelude ?_ hn
  cases hclear with
  | front hk _ => exact .inl (Nat.le_trans hk hi)
  | behind _ _ hnext _ => exact .inr (.inl hnext)
  | within _ _ hlead _ hword =>
    obtain ⟨rfl, hplain⟩ := hplain hlead
    exact .inr (.inr ⟨hplain, hword⟩)

include h ho in
/-- How the reading with the comment goes on at a macro call. -/
theorem readDeclaration_call (hlt : i < s.size)
    (hbrace : ¬ (s.is i "\x7d" && start < i) = true) (hcalled : s.isMacroCall o.macros i = true)
    (hm : k ≤ i ∨ s.macroCallEnd o.macros i < k) :
    readDeclaration s' scope (past k start) o' (past k i) templated =
      if s'.is (past k (s.macroCallEnd o.macros i) + 1) ";" then
        ((o'.addMacroCall s' (past k i)).1.claim (past k (s.macroCallEnd o.macros i) + 1)
          (past k (s.macroCallEnd o.macros i) + 1) (o'.addMacroCall s' (past k i)).2).done
          (past k (s.macroCallEnd o.macros i) + 2)
      else if s'.standsAlone (past k (s.macroCallEnd o.macros i)) then
        (o'.addMacroCall s' (past k i)).1.done (past k (s.macroCallEnd o.macros i) + 1)
      else
        readDeclaration s' scope (past k start) (o'.addMacroCall s' (past k i)).1
          (past k (s.macroCallEnd o.macros i) + 1) templated := by
  rw [readDeclaration_macroCall (h.lt_size_past.2 hlt) (endsPrelude_past h hbrace)
    (by rwa [ho.macros, h.isMacroCall_past]), ho.macros, h.macroCallEnd_past _ hm]

include h ho in
/-- A macro call with a semicolon behind it is a declaration. -/
theorem readDeclaration_callStatement {o₁ : Outline} {id : CursorId} {last : Nat}
    (hadd : o.addMacroCall s i = (o₁, id)) (hlast : s.macroCallEnd o.macros i = last)
    (hi : start ≤ i) (hlt : i < s.size) (hbrace : ¬ (s.is i "\x7d" && start < i) = true)
    (hcalled : s.isMacroCall o.macros i = true) (hsemi : s.is (last + 1) ";" = true)
    (hclear : Clear s s' k start o i i'
      ((o₁.claim (last + 1) (last + 1) id).done (last + 2))) :
    ((o₁.claim (last + 1) (last + 1) id).done (last + 2)).Alike k
      (readDeclaration s' scope (past k start) o' i' templated) := by
  have hle : i ≤ last := hlast ▸ s.le_macroCallEnd o.macros i
  obtain ⟨rfl, -⟩ := hclear.here (.inl (by simp only [done]; omega))
  have hm : k ≤ i ∨ last + 1 < k := by
    cases hclear with
    | front hk _ => exact .inl (Nat.le_trans hk hi)
    | behind _ _ hnext _ => exact .inr hnext
    | within _ _ hlead _ _ =>
      have hnone := (hlead.of_macroCall hcalled).1
      rw [hlast, hsemi] at hnone
      cases hnone
  obtain ⟨hadd', hid⟩ := addMacroCall_alike (s := s) ho (h.spelling i)
  rw [hadd] at hadd' hid
  have hk : last + 1 ≠ k := by omega
  rw [readDeclaration_call h ho hlt hbrace hcalled (by omega), hlast, ← past_succ hk, h.is_past,
    if_pos hsemi]
  have hnext : past k last + 2 = past k (last + 1) + 1 := by rw [past_succ hk]
  exact ⟨hadd'.claim .., by rw [done, done, hnext]; exact abreast_succ k _, rfl⟩

include h ho in
/-- A macro call that stands alone is a declaration. -/
theorem readDeclaration_callAlone {o₁ : Outline} {id : CursorId} {last : Nat}
    (hadd : o.addMacroCall s i = (o₁, id)) (hlast : s.macroCallEnd o.macros i = last)
    (hi : start ≤ i) (hlt : i < s.size) (hbrace : ¬ (s.is i "\x7d" && start < i) = true)
    (hcalled : s.isMacroCall o.macros i = true) (hsemi : ¬ s.is (last + 1) ";" = true)
    (halone : s.standsAlone last = true)
    (hclear : Clear s s' k start o i i' (o₁.done (last + 1))) :
    (o₁.done (last + 1)).Alike k (readDeclaration s' scope (past k start) o' i' templated) := by
  have hle : i ≤ last := hlast ▸ s.le_macroCallEnd o.macros i
  obtain ⟨rfl, -⟩ := hclear.here (.inl (by simp only [done]; omega))
  obtain ⟨hadd', -⟩ := addMacroCall_alike (s := s) ho (h.spelling i)
  rw [hadd] at hadd'
  have hinside {j : Nat} (hlead : LeadsTo s start o i j) : False := by
    have hnone := (hlead.of_macroCall hcalled).2.1
    rw [hlast, halone] at hnone
    cases hnone
  have hm : k ≤ i ∨ last < k := by
    cases hclear with
    | front hk _ => exact .inl (Nat.le_trans hk hi)
    | behind _ _ hnext _ => exact .inr hnext
    | within _ _ hlead _ _ => exact absurd hlead hinside
  have hend : s'.is (past k last + 1) ";" = false ∧ s'.standsAlone (past k last) = true := by
    by_cases hk : last + 1 = k
    · -- the comment directly behind the call stands on a line of its own
      rw [past_of_lt (show last < k by omega), hk]
      refine ⟨h.is_comment (by decide), ?_⟩
      cases hclear with
      | front _ _ => omega
      | behind _ _ _ hapart =>
        obtain ⟨d, hd, hkind, hdraft⟩ := mem_addMacroCall (s := s) o i
        rw [hadd] at hd
        rw [hlast] at hdraft
        have hline := hapart hk d hd hkind (by rw [hdraft]; exact hk)
        have hpred : k - 1 = last := by omega
        rw [hpred] at hline
        rw [standsAlone, hk, decide_eq_true hline, Bool.or_true]
      | within _ _ hlead _ _ => exact absurd hlead hinside
    · rw [← past_succ hk, h.is_past, h.standsAlone_past hk]
      exact ⟨Bool.not_eq_true _ ▸ hsemi, halone⟩
  rw [readDeclaration_call h ho hlt hbrace hcalled (by rwa [hlast]), hlast, hend.1, hend.2,
    if_neg Bool.false_ne_true, if_pos rfl]
  exact ⟨hadd', abreast_succ k last, rfl⟩

include h hl ho in
/-- **A declaration is recognised with one comment more.** -/
theorem readDeclaration_alike (hi : start ≤ i)
    (hclear : Clear s s' k start o i i' (readDeclaration s scope start o i templated))
    (hn : (readDeclaration s scope start o i templated).outline.notes = []) :
    (readDeclaration s scope start o i templated).Alike k
      (readDeclaration s' scope (past k start) o' i' templated) := by
  fun_induction readDeclaration s scope start o i templated generalizing o' i' with
  | case1 o i templated hlt hbrace =>
    simp only [Bool.and_eq_true, decide_eq_true_eq] at hbrace
    exact readDeclaration_brace h ho hbrace.1 hbrace.2 hclear.abreast
  | case2 o i templated hlt hbrace hcalled last o₁ id hadd =>
    rename_i hsemi
    exact readDeclaration_callStatement h ho hadd rfl hi hlt hbrace hcalled hsemi hclear
  | case3 o i templated hlt hbrace hcalled last o₁ id hadd hsemi =>
    rename_i halone
    exact readDeclaration_callAlone h ho hadd rfl hi hlt hbrace hcalled hsemi halone hclear
  | case4 o i templated hlt hbrace hcalled last o₁ id hadd hsemi halone =>
    rename_i ih
    have hle : i ≤ last := s.le_macroCallEnd o.macros i
    have hnext := le_next_readDeclaration s scope start o₁ (last + 1) templated
    obtain ⟨rfl, -⟩ := hclear.here (.inl (by omega))
    obtain ⟨hadd', -⟩ := addMacroCall_alike (s := s) ho (h.spelling i)
    rw [hadd] at hadd'
    have htail {j : Nat} (hlead : LeadsTo s start o i j) : LeadsTo s start o₁ (last + 1) j := by
      have htail := (hlead.of_macroCall hcalled).2.2
      rwa [hadd] at htail
    have hm : k ≤ i ∨ last + 1 < k := by
      cases hclear with
      | front hk _ => exact .inl (Nat.le_trans hk hi)
      | behind _ _ hle _ =>
        -- a closing brace or the end would let the call stand alone
        simp only [standsAlone, Bool.or_eq_true, decide_eq_true_eq, not_or] at halone
        rcases next_readDeclaration (s := s) (o := o₁) with hlt | ⟨-, hbrace | hend⟩
        · exact .inr (Nat.lt_of_lt_of_le hlt hle)
        · exact absurd hbrace halone.1.2
        · exact absurd hend halone.1.1
      | within _ _ hlead hj _ => exact .inr (Nat.lt_of_le_of_lt (le_of_leadsTo (htail hlead)) hj)
    have hk : last + 1 ≠ k := by omega
    rw [readDeclaration_call h ho hlt hbrace hcalled (by omega), ← past_succ hk, h.is_past,
      if_neg hsemi, h.standsAlone_past hk, if_neg halone]
    exact ih hadd' (by omega) (hclear.behindWord (abreast_past k _) (by omega) fun _ => htail) hn
  | case7 o i templated hlt hbrace hcalled ha ih =>
    have hnext := le_next_readDeclaration s scope start o (i + 1) templated
    obtain ⟨rfl, hside⟩ := hclear.here (.inl hnext)
    have hannounced := h.announced_past start (i := i)
      (by rw [ha]; exact hside.imp_left fun hk => Nat.le_trans hk hi)
    rw [readDeclaration_announced (h.lt_size_past.2 hlt) (endsPrelude_past h hbrace)
      (by rwa [ho.macros, h.isMacroCall_past]), hannounced, ha]
    exact ih ho (by omega) (hclear.behindWord (abreast_succ k i) (by omega) fun _ hlead =>
      hlead.of_exported hcalled ha) hn
  | case9 o i templated hlt hbrace hcalled ha ih =>
    have hangle := le_angleEnd (lt_size_of_is (is_of_announced ha))
    have hnext := le_next_readDeclaration s scope start o (s.angleEnd (i + 1) + 1) true
    obtain ⟨rfl, -⟩ := hclear.here (.inl (by omega))
    have hm : k ≤ i ∨ i + 1 < k := by
      cases hclear with
      | front hk _ => exact .inl (Nat.le_trans hk hi)
      | behind _ _ hle _ => exact .inr (by omega)
      | within _ _ hlead hj _ =>
        have := le_of_leadsTo (hlead.of_templateHead hcalled ha)
        exact .inr (by omega)
    have hannounced := h.announced_past start (i := i) (by rw [ha]; exact hm)
    have hpast := h.angleEnd_past (i + 1)
    rw [past_succ (by omega)] at hpast
    rw [readDeclaration_announced (h.lt_size_past.2 hlt) (endsPrelude_past h hbrace)
      (by rwa [ho.macros, h.isMacroCall_past]), hannounced, ha]
    exact ih ho (by omega) (hclear.behindWord hpast (by omega) fun _ hlead =>
      hlead.of_templateHead hcalled ha) hn
  | case17 o i templated hlt =>
    have hlt' := h.lt
    have hpast : i' = past k i := by
      cases hclear with
      | front _ hi' => exact hi'
      | behind _ _ hnext _ => simp only [done] at hnext; omega
      | within _ _ hlead hj _ => have := le_of_leadsTo hlead; omega
    rw [hpast, readDeclaration, dif_neg (mt h.lt_size_past.1 hlt)]
    exact ⟨ho, abreast_past k i, rfl⟩
  -- all else that is announced is the declaration itself
  | case5 o i templated hlt hbrace hcalled keyword ha
  | case6 o i templated hlt hbrace hcalled brace ha
  | case8 o i templated hlt hbrace hcalled ha | case10 o i templated hlt hbrace hcalled ha
  | case11 o i templated hlt hbrace hcalled ha | case12 o i templated hlt hbrace hcalled ha
  | case13 o i templated hlt hbrace hcalled ha | case14 o i templated hlt hbrace hcalled ha
  | case15 o i templated hlt hbrace hcalled kind ha | case16 o i templated hlt hbrace hcalled ha =>
    exact readDeclaration_words h hl ho hi hlt hbrace hcalled ha id hclear hn

end Outline

end DocIndex
