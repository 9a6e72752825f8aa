import DocIndex.Proofs.Body.Shape
import DocIndex.Proofs.Window.Reading

/-!
# Functions with bodies

A function is recognised by what stands in front of its body (`Outline.step_body`): reading goes on
behind the body, whatever that holds. In front of the body no declaration looks ahead into it, but
for the head of a class (`headEnd_lt`): its template arguments are looked through as far as they go.

* `Lead.read_plainAt` — a function or a variable is read from its own words on.
* `Lead.plainAt?_moved` — the same words are those of a function.
* `headEnd_lt` — how far a declaration in front of the body looks ahead.
* `step_body` — **a function is recognised alike, whatever its body holds.**
-/

namespace DocIndex

/-! ## Words of a function or a variable -/

/-- A function whose words are announced so is a template if a template head stands in front. -/
def Announced.keepsTemplate : Announced → Bool
  | .plain | .record => true
  | _ => false

namespace Lead

open Outline Source

variable {w : Window} {s s' : Source} {start j : Nat} {l l' : Lead}

/-- The function that is read is a template. -/
def isTemplate (s : Source) (start : Nat) (l : Lead) : Bool :=
  l.templated && (l.announced? s start).any Announced.keepsTemplate

theorem announced_of_plainAt? (hplain : l.plainAt? s start = some j) :
    ∃ a, l.announced? s start = some a ∧ l.IsWord s start ∧
      ¬ s.isMacroCall l.outline.macros l.index = true ∧ s.announced start l.index = a ∧
      s.plainAt? l.outline.macros l.index a = some j := by
  rw [Lead.plainAt?, Option.bind_eq_some_iff] at hplain
  obtain ⟨a, ha, hj⟩ := hplain
  refine ⟨a, ha, ?_⟩
  rw [announced?] at ha
  split at ha
  · rename_i hword
    exact ⟨hword.1, Bool.eq_false_iff.1 hword.2, Option.some.inj ha, hj⟩
  · cases ha

/-- The words of a function or a variable begin no earlier than the lead. -/
theorem le_of_plainAt? (hplain : l.plainAt? s start = some j) : l.index ≤ j := by
  obtain ⟨a, -, -, -, ha, hj⟩ := announced_of_plainAt? hplain
  cases a <;> simp only [Source.plainAt?] at hj <;> (try split at hj) <;> cases hj
  case namespaceHead.isFalse keyword _ =>
    have hle : l.index ≤ keyword := le_of_announced (.inl ha)
    have hhead := s.le_namespaceHead (keyword + 1)
    omega
  all_goals exact Nat.le_refl _

/-- **A function or a variable is read from its own words on**, whatever is announced in front. -/
theorem read_plainAt (scope : Scope) (hplain : l.plainAt? s start = some j) :
    ∃ notes, l.read s scope start = (l.outline.note notes).readPlain s scope start j
      (l.isTemplate s start) := by
  obtain ⟨a, hannounced, hword, hcalled, ha, hj⟩ := announced_of_plainAt? hplain
  rw [read, readDeclaration_announced hword.1 hword.2 hcalled, ha, isTemplate, hannounced,
    Option.any_some]
  cases a <;> simp only [Source.plainAt?] at hj <;> (try split at hj) <;> cases hj
  case namespaceHead.isFalse keyword hhead =>
    simp only [Bool.or_eq_true, not_or] at hhead
    refine ⟨(s.skipBrackets (s.namespaceNames [] (keyword + 1)).2).notes ++
      [⟨(s.namespaceHead (keyword + 1)).2, .noNamespaceBody⟩], ?_⟩
    have hkeeps : (Announced.namespaceHead keyword).keepsTemplate = false := rfl
    rw [readAnnounced, readNamespace_eq, readNamespaceFrom, if_neg hhead.1, if_neg hhead.2, hkeeps,
      Bool.and_false]
    simp only [Outline.note, List.append_assoc]
  case record hhead =>
    simp only [Bool.or_eq_true, not_or] at hhead
    refine ⟨(s.skipDecorations l.outline.macros (l.index + 1)).notes, ?_⟩
    have hkeeps : Announced.record.keepsTemplate = true := rfl
    have houter : ¬ (none : Option Nat).isSome = true := Bool.false_ne_true
    rw [readAnnounced, readRecord_eq, readRecordFrom, if_neg hhead.1.1, if_neg hhead.1.2,
      if_neg houter, if_neg hhead.2, hkeeps, Bool.and_true]
  case enumeration hhead =>
    simp only [Bool.or_eq_true, not_or] at hhead
    refine ⟨(s.skipDecorations l.outline.macros (s.enumKeyEnd l.index)).notes, ?_⟩
    have hkeeps : Announced.enumeration.keepsTemplate = false := rfl
    rw [readAnnounced, readEnumeration_eq, readEnumerationFrom, if_neg hhead.1,
      if_neg Bool.false_ne_true, if_neg hhead.2, hkeeps, Bool.and_false]
  case plain =>
    refine ⟨[], ?_⟩
    have hkeeps : Announced.plain.keepsTemplate = true := rfl
    rw [readAnnounced, hkeeps, Bool.and_true]
    simp only [Outline.note, List.append_nil]

variable (h : s.Agrees w s')
include h

/-- **The same words are those of a function or a variable**, if they are seen, and so is how far
the head is looked at. -/
theorem plainAt?_moved (hl : l.Matches w l') (hstart : w.first ≤ start) (hle : start ≤ l.index)
    (hsighted : l.Sighted w s start) (hplain : l.plainAt? s start = some j)
    (hhead : w.Seen (l.headEnd s start + 1)) (hj : w.Seen (j + 1)) :
    l'.plainAt? s' (w.moved start) = some (w.moved j) ∧
      l'.isTemplate s' (w.moved start) = l.isTemplate s start := by
  obtain ⟨a, hannounced, hword, hcalled, ha, hplainAt⟩ := announced_of_plainAt? hplain
  have hi : w.first ≤ l.index := Nat.le_trans hstart hle
  have hseen : w.Seen l.index := w.seen_of_le hsighted.next (Nat.le_succ _)
  have hword' := (isWord_moved h hl hstart hle hseen).2 hword
  have hcalled' : ¬ s'.isMacroCall l'.outline.macros l'.index = true := by
    rw [hl.index, hl.outline.macros, h.isMacroCall_moved hi hseen]
    exact hcalled
  have hannounced' : l'.announced? s' (w.moved start) = some (a.map w.moved) := by
    rw [announced?_eq hword' hcalled', hl.index, h.announced_moved hstart hle hsighted.next
      (hsighted.linkage hword (Bool.eq_false_iff.2 hcalled)), ha]
  have hkeeps : (a.map w.moved).keepsTemplate = a.keepsTemplate := by
    cases a <;> rfl
  refine ⟨?_, by rw [isTemplate, isTemplate, hannounced', hannounced, Option.any_some,
    Option.any_some, hl.templated, hkeeps]⟩
  rw [headEnd, hannounced, Option.elim_some] at hhead
  rw [Lead.plainAt?, hannounced', Option.bind_some, hl.index, hl.outline.macros]
  have hnext : w.first ≤ l.index + 1 := Nat.le_succ_of_le hi
  cases a <;> simp only [Source.plainAt?] at hplainAt <;> (try split at hplainAt) <;> cases hplainAt
  case namespaceHead.isFalse keyword hnone =>
    have hkeyword : w.first ≤ keyword + 1 :=
      Nat.le_trans hi (Nat.le_succ_of_le (le_of_announced (.inl ha)))
    have hend := s.le_namespaceHead (keyword + 1)
    simp only [Announced.map, Source.plainAt?,
      ← Window.moved_succ (Nat.le_trans hi (le_of_announced (.inl ha))),
      h.namespaceHead_moved hkeyword hj,
      h.is_moved (Nat.le_trans hkeyword hend) (w.seen_of_le hj (Nat.le_succ _))]
    rw [if_neg hnone]
  case record hnone =>
    have hend := s.le_recordHead l.outline.macros (l.index + 1)
    simp only [Source.headEnd] at hhead
    simp only [Announced.map, Source.plainAt?, ← Window.moved_succ hi,
      h.recordHead_moved hnext hword.1 hhead,
      h.is_moved (Nat.le_trans hnext hend) (w.seen_of_le hhead (Nat.le_succ _))]
    rw [if_neg hnone]
  case enumeration hnone =>
    have hend := Nat.le_of_lt (s.lt_enumHead l.outline.macros l.index)
    simp only [Source.headEnd] at hhead
    simp only [Announced.map, Source.plainAt?, h.enumHead_moved hi (enumKeyEnd_le hword.1) hhead,
      h.is_moved (Nat.le_trans hi hend) (w.seen_of_le hhead (Nat.le_succ _))]
    rw [if_neg hnone]
  case plain => rfl

end Lead

/-! ## Heads in front of the body -/

namespace Source

variable {s : Source} (hs : s.WellSpelled) {macros : Macros} {first key k : Nat}

/-- Where the name of an enumeration ends whose keyword stands at `key`. -/
def enumNameEnd (s : Source) (macros : Macros) (key : Nat) : Nat :=
  let j := (s.skipDecorations macros (s.enumKeyEnd key)).index
  if s.isIdentifier j then j + 1 else j

theorem enumHead_eq (key : Nat) : (s.enumHead macros key).2 =
    if s.is (s.enumNameEnd macros key) ":" then s.underlyingEnd (s.enumNameEnd macros key)
    else s.enumNameEnd macros key :=
  rfl

theorem underlyingEnd_le_brace {i : Nat} (hk : s.is k "\x7b" = true) (hle : i ≤ k) :
    s.underlyingEnd i ≤ k := by
  fun_induction underlyingEnd s i with
  | case1 => exact hle
  | case2 i hi hend ih =>
    refine ih (Nat.lt_of_le_of_ne hle fun heq => hend ?_)
    rw [heq, hk, Bool.true_or]
  | case3 => exact hle

/-- The head of an enumeration is not looked at past a brace behind its name. -/
theorem enumHead_lt_brace (hk : s.is k "\x7b" = true) (hle : s.enumNameEnd macros key ≤ k)
    (hnone : s.is (s.enumHead macros key).2 "\x7b" = false) : (s.enumHead macros key).2 < k := by
  have hend : (s.enumHead macros key).2 ≤ k := by
    rw [enumHead_eq]
    split
    · exact underlyingEnd_le_brace hk hle
    · exact hle
  refine Nat.lt_of_le_of_ne hend fun heq => ?_
  rw [heq, hk] at hnone
  cases hnone

theorem enumNameEnd_le (hkey : key < s.size) : s.enumNameEnd macros key ≤ s.size := by
  have hskip := skipDecorations_le macros (enumKeyEnd_le hkey)
  unfold enumNameEnd
  simp only
  split
  · rename_i hname
    exact lt_size_of_isIdentifier hname
  · exact hskip

theorem le_enumNameEnd : key ≤ s.enumNameEnd macros key := by
  have hkey : key ≤ s.enumKeyEnd key := by
    unfold enumKeyEnd
    split <;> omega
  have hskip := le_skipDecorations (s := s) macros (s.enumKeyEnd key)
  unfold enumNameEnd
  simp only
  split <;> omega

include hs in
/-- The shape of a function whose type is an enumeration comes by the name of that. -/
theorem passesTo_enumNameEnd (hkey : s.is key "enum" = true) :
    s.PassesTo macros first key (s.enumNameEnd macros key) := by
  have hmark {i : Nat} {word : String} (hi : s.is i word = true)
      (hword : (Mark.of word).isPassed = true) : s.PassesTo macros first i (i + 1) := by
    refine .word (lt_size_of_is hi) ?_
    simp only [is, Bool.and_eq_true, beq_iff_eq] at hi
    rwa [mark, hi.2]
  have hkeyEnd : s.PassesTo macros first key (s.enumKeyEnd key) := by
    unfold enumKeyEnd
    split
    · rename_i hclass
      rw [Bool.or_eq_true] at hclass
      refine (hmark hkey rfl).trans ?_
      rcases hclass with hclass | hclass
      · exact hmark hclass rfl
      · exact hmark hclass rfl
    · exact hmark hkey rfl
  refine hkeyEnd.trans ((passesTo_skipDecorations hs _).trans ?_)
  unfold enumNameEnd
  simp only
  split
  · rename_i hname
    exact .word (lt_size_of_isIdentifier hname) (hs.identifier hname)
  · exact .refl _

end Source

namespace Outline

open Source

variable {s : Source} (hs : s.WellSpelled) {scope : Scope} {o : Outline} {start key k : Nat}

include hs in
/-- An enumeration that ends in front of a brace does not look at it. -/
theorem enumHead_lt (hkey : s.is key "enum" = true) (hk : s.is k "\x7b" = true)
    (hnext : (o.readEnumeration s scope start key false).next < k) :
    (s.enumHead o.macros key).2 < k := by
  rw [readEnumeration_eq] at hnext
  unfold readEnumerationFrom at hnext
  split at hnext
  · rename_i hbrace
    have hpos : 0 < (s.enumHead o.macros key).2 := Nat.zero_lt_of_lt (s.lt_enumHead o.macros key)
    have hlt : (s.enumHead o.macros key).2 - 1 < s.size :=
      Nat.lt_of_le_of_lt (Nat.sub_le _ 1) (lt_size_of_is hbrace)
    simp only at hnext
    -- reading goes on behind the brace of the enumeration
    refine Nat.lt_of_le_of_lt (Nat.le_of_pred_lt ?_) hnext
    exact lt_next_readEnumBody hlt (Nat.sub_lt hpos Nat.one_pos)
  rename_i hbrace
  rw [if_neg Bool.false_ne_true] at hnext
  split at hnext
  · exact Nat.lt_of_succ_lt hnext
  · have hlt := lt_size_of_is hkey
    have hpasses : s.PassesTo o.macros key key (s.enumNameEnd o.macros key) :=
      passesTo_enumNameEnd hs hkey
    have hstop := hpasses.le_stop le_enumNameEnd (enumNameEnd_le hlt) .empty
    refine enumHead_lt_brace hk ?_ (Bool.eq_false_iff.2 hbrace)
    rw [readPlain_eq] at hnext
    exact Nat.le_of_lt (Nat.lt_of_le_of_lt hstop hnext)

include hs in
/-- **A declaration in front of the body does not look ahead into it**, unless it is announced as a
class. -/
theorem headEnd_lt {r : Reading} (hstarts : startsDeclaration s r.next = true)
    (hk : s.is k "\x7b" = true) (hnext : (step s r.outline r.frames r.next).next < k)
    (hrecord : (r.lead s).announced? s r.next = some .record →
      (r.lead s).headEnd s r.next < k) :
    (r.lead s).headEnd s r.next < k := by
  rw [step_lead hstarts] at hnext
  have hindex : (r.lead s).index < k := Nat.lt_of_le_of_lt Lead.le_next_read hnext
  cases ha : (r.lead s).announced? s r.next with
  | none =>
    rw [Lead.headEnd, ha]
    exact hindex
  | some a =>
    cases a
    case record => exact hrecord ha
    case enumeration =>
      rw [Lead.headEnd, ha]
      rw [Lead.announced?] at ha
      split at ha
      · rename_i hword
        have ha : s.announced r.next (r.lead s).index = .enumeration := Option.some.inj ha
        rw [Lead.read, readDeclaration_announced hword.1.1 hword.1.2 (Bool.eq_false_iff.1 hword.2),
          ha] at hnext
        exact enumHead_lt hs (is_of_enumeration ha) hk hnext
      · cases ha
    all_goals
      rw [Lead.headEnd, ha]
      exact hindex

include hs in
/-- A function does not look ahead into its body, unless it is announced as a class. -/
theorem headEnd_lt_body {l : Lead} {j : Nat} (hplain : l.plainAt? s start = some j)
    (hbody : s.body? l.outline.macros j = some k)
    (hrecord : l.announced? s start = some .record → l.headEnd s start < k) :
    l.headEnd s start < k := by
  obtain ⟨st, hfrom, hjk, hk⟩ := bodyFrom_of_body? hbody
  obtain ⟨a, ha, -, -, hannounced, hj⟩ := Lead.announced_of_plainAt? hplain
  have hindex : l.index < k := Nat.lt_of_le_of_lt (Lead.le_of_plainAt? hplain) hjk
  cases a
  case record => exact hrecord ha
  case enumeration =>
    rw [Lead.headEnd, ha, Option.elim_some, Source.headEnd]
    simp only [Source.plainAt?] at hj
    split at hj
    · cases hj
    rename_i hnone
    cases hj
    rw [Bool.or_eq_true, not_or, Bool.not_eq_true] at hnone
    have hpasses : s.PassesTo l.outline.macros l.index l.index
        (s.enumNameEnd l.outline.macros l.index) :=
      passesTo_enumNameEnd hs (is_of_enumeration hannounced)
    exact enumHead_lt_brace hk (hpasses.le_brace hfrom) hnone.1
  all_goals
    rw [Lead.headEnd, ha]
    exact hindex

end Outline

/-! ## One function -/

namespace Outline

open Source

variable {w w₂ : Window} {s s' : Source}

/-- Outlines that are alike are so whatever window they are compared in. -/
theorem Matches.congr {o o' : Outline} (h : o.Matches w o') (hw : w.relaid = false)
    (hw₂ : w₂.relaid = false) : o.Matches w₂ o' := by
  have hsame (i i' : Nat) : w₂.Same i i' := fun hrelaid => by
    rw [hw₂] at hrelaid
    cases hrelaid
  refine ⟨h.size, fun hd hd' => ?_, fun hrelaid => ?_, h.macros, h.scopes, h.moduleName,
    fun hrelaid => ?_⟩
  · have hdraft := h.draft hd hd'
    exact ⟨hdraft.kind, fun _ => hdraft.spelling (.inl hw), hdraft.parent, hsame _ _, hsame _ _⟩
  · rw [hw₂] at hrelaid
    cases hrelaid
  · rw [hw₂] at hrelaid
    cases hrelaid

/-- Scopes that are alike are so whatever window they are compared in. -/
theorem frames_congr {frames frames' : List Frame}
    (h : List.Forall₂ (Frame.Matches w) frames frames') (hw₂ : w₂.relaid = false) :
    List.Forall₂ (Frame.Matches w₂) frames frames' := by
  have hsame (i i' : Nat) : w₂.Same i i' := fun hrelaid => by
    rw [hw₂] at hrelaid
    cases hrelaid
  refine h.imp fun f f' hf => ⟨hf.scope, ?_⟩
  obtain ⟨scope, closing⟩ := f
  obtain ⟨scope', closing'⟩ := f'
  obtain ⟨-, hclosing⟩ := hf
  simp only at hclosing ⊢
  cases hclosing with
  | linkage id _ => exact .linkage id (hsame _ _)
  | namespaces ids _ => exact .namespaces ids (hsame _ _)
  | record id _ => exact .record id (hsame _ _)
  | typedefRecord id _ _ => exact .typedefRecord id (hsame _ _) (hsame _ _)

/-- What a function is declared as is told by what stands in front of its body. -/
theorem declareBody_matches (h : s.Agrees w s') (hw : w.relaid = false) (scope : Scope)
    {o o' : Outline} (ho : o.Matches w o') (start start' : Nat) (templated : Bool) {j k : Nat}
    (hj : w.Behind j) (hbody : s.body? o.macros j = some k) (hk : w.Seen k)
    (hqualified : s.QualifiedWithin w o.macros j) :
    (o.declarePlain s scope start templated (s.shape o.macros j)).Matches w
        (o'.declarePlain s' scope start' templated (s'.shape o.macros (w.moved j))) ∧
      (s.shape o.macros j).stop = s.groupEnd k ∧
      (s'.shape o.macros (w.moved j)).stop = s'.groupEnd (w.moved k) := by
  obtain ⟨st, hfrom, hjk, -⟩ := bodyFrom_of_body? hbody
  obtain ⟨hfrom', hwithin⟩ := h.bodyFrom_moved ShapeState.within_empty hj hj.le hfrom hk
  rw [ShapeState.map_moved_empty] at hfrom'
  have hshape : s.shape o.macros j = _ := (shapeFrom_bodyFrom hfrom).1
  have hshape' : s'.shape o.macros (w.moved j) = _ := (shapeFrom_bodyFrom hfrom').1
  have hsame (i i' : Nat) : w.Same i i' := fun hrelaid => by
    rw [hw] at hrelaid
    cases hrelaid
  rw [QualifiedWithin, hshape] at hqualified
  rw [hshape, hshape']
  refine ⟨declarePlain_matches ho (hsame _ _) (hsame _ _) rfl ?_ ?_, rfl, rfl⟩
  all_goals
    simp only [ShapeState.finishBody, ShapeState.note, ShapeState.map, Shape.note, Shape.map,
      Option.map_map]
    refine Option.map_congr fun n hn => ?_
    obtain ⟨hfirst, hlt⟩ := hwithin.name n hn
    have hseen := w.seen_of_le hk (Nat.le_of_lt hlt)
  · exact h.spelling hfirst hseen
  · exact h.qualifierOf_moved hseen (hqualified n hn)

/-- What tells that no more words stand in front of a function is seen in front of its body. -/
theorem sighted_of_body {l : Lead} {start j k : Nat} (hplain : l.plainAt? s start = some j)
    (hjk : j < k) (hkind : s.kind? k = some .punctuation) (hk : w.Seen k) :
    l.Sighted w s start := by
  obtain ⟨a, -, -, hcalled, ha, hj⟩ := Lead.announced_of_plainAt? hplain
  have hindex : l.index < k := Nat.lt_of_le_of_lt (Lead.le_of_plainAt? hplain) hjk
  refine ⟨w.seen_of_le hk hindex, fun _ hcall => absurd hcall hcalled, fun _ _ hliteral => ?_,
    fun _ _ htemplate => ?_⟩
  · -- the brace is no literal, so the literal stands in front of it
    refine w.seen_of_le hk (Nat.lt_of_le_of_ne hindex fun heq => ?_)
    rw [show l.index + 1 = k from heq, hkind] at hliteral
    cases hliteral
  · rw [← ha, htemplate] at hj
    cases hj

/-- A function with a body is declared by what stands in front of the body, and reading goes on
behind it. -/
theorem read_body (h : s.Agrees w s') (hw : w.relaid = false) (scope : Scope) {l l' : Lead}
    (hl : l.Matches w l') {start j k : Nat} (hstart : w.Behind start) (hle : start ≤ l.index)
    (hplain : l.plainAt? s start = some j) (hbody : s.body? l.outline.macros j = some k)
    (hkind : s.kind? k = some .punctuation) (hk : w.Seen k) (hhead : l.headEnd s start < k)
    (hqualified : s.QualifiedWithin w l.outline.macros j) :
    (l.read s scope start).outline.Matches w (l'.read s' scope (w.moved start)).outline ∧
      (l.read s scope start).opened = none ∧ (l'.read s' scope (w.moved start)).opened = none ∧
      (l.read s scope start).next = s.groupEnd k + 1 ∧
      (l'.read s' scope (w.moved start)).next = s'.groupEnd (w.moved k) + 1 := by
  obtain ⟨-, -, hjk, -⟩ := bodyFrom_of_body? hbody
  obtain ⟨hplain', htemplate⟩ := Lead.plainAt?_moved h hl hstart.le hle
    (sighted_of_body hplain hjk hkind hk) hplain (w.seen_of_le hk hhead) (w.seen_of_le hk hjk)
  obtain ⟨notes, hread⟩ := Lead.read_plainAt scope hplain
  obtain ⟨notes', hread'⟩ := Lead.read_plainAt scope hplain'
  have hj : w.Behind j := hstart.mono (Nat.le_trans hle (Lead.le_of_plainAt? hplain))
  have hnote := (hl.outline.note notes notes').note (s.shape l.outline.macros j).notes
    (s'.shape l.outline.macros (w.moved j)).notes
  obtain ⟨hdeclare, hstop, hstop'⟩ := declareBody_matches h hw scope hnote start (w.moved start)
    (l.isTemplate s start) hj hbody hk hqualified
  have hmacros (o : Outline) (notes : List Note) : (o.note notes).macros = o.macros := rfl
  rw [hmacros, hmacros] at hdeclare hstop hstop'
  rw [hread, hread', readPlain_eq, readPlain_eq, htemplate, hmacros, hmacros, hl.outline.macros]
  exact ⟨hdeclare, rfl, rfl, congrArg (· + 1) hstop, congrArg (· + 1) hstop'⟩

/-- **A function is recognised alike, whatever its body holds.** -/
theorem step_body (h : s.Agrees w s') (hw : w.relaid = false) (hw₂ : w₂.relaid = false)
    {r r' : Reading} (hr : r.Matches w r') {j k : Nat} (hi : w.Behind r.next)
    (hstarts : startsDeclaration s r.next = true) (hplain : (r.lead s).plainAt? s r.next = some j)
    (hbody : s.body? (r.lead s).outline.macros j = some k)
    (hkind : s.kind? k = some .punctuation) (hk : w.Seen k)
    (hhead : (r.lead s).headEnd s r.next < k)
    (hqualified : s.QualifiedWithin w (r.lead s).outline.macros j)
    (hnext : s'.groupEnd (w.moved k) + 1 = w₂.moved (s.groupEnd k + 1)) :
    (step s r.outline r.frames r.next).Matches w₂ (step s' r'.outline r'.frames r'.next) ∧
      (step s r.outline r.frames r.next).next = s.groupEnd k + 1 := by
  obtain ⟨-, -, hjk, -⟩ := bodyFrom_of_body? hbody
  have hle := r.le_lead s
  have hlt : r.next < k :=
    Nat.lt_of_le_of_lt (Nat.le_trans hle (Lead.le_of_plainAt? hplain)) hjk
  obtain ⟨o', frames', next'⟩ := r'
  obtain rfl : next' = w.moved r.next := hr.next
  have hwords : (r.lead s).Matches w ((Reading.mk o' frames' (w.moved r.next)).lead s') :=
    Lead.ownWords_moved h ⟨hr.outline, rfl, rfl⟩ hi.le (Nat.le_refl r.next)
      (sighted_of_body hplain hjk hkind hk)
  have hstarts' := (startsDeclaration_moved h hi (w.seen_of_le hk (Nat.le_of_lt hlt))).trans hstarts
  obtain ⟨houtline, hopened, hopened', hend, hend'⟩ :=
    read_body h hw (scopeOf r.frames) hwords hi hle hplain hbody hkind hk hhead hqualified
  rw [step_lead hstarts, step_lead (r := ⟨o', frames', w.moved r.next⟩) hstarts',
    scopeOf_matches hr.frames]
  simp only [hopened, hopened', hend, hend', hnext]
  exact ⟨⟨houtline.congr hw hw₂, frames_congr hr.frames hw₂, rfl⟩, trivial⟩

end Outline

end DocIndex
