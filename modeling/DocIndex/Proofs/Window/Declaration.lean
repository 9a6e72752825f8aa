import DocIndex.Proofs.Lead
import DocIndex.Proofs.Window.Scopes

/-!
# Declarations within a window

A declaration is recognised alike in both sources, if it ends within the window, its head does not
reach further, and what qualifies its name is looked for within the window.

* `Source.headEnd`, `Source.plainAt?` — how far the head is looked at, and where the words are that
  are read for their shape alone.
* `Lead.ownWords_moved` — the same words stand in front.
* `Lead.read_moved` — **a declaration is recognised alike.**
-/

namespace DocIndex

namespace Source

/-- How far the head of a declaration is looked at, whose own words begin at `i`: what stands behind
it decides whether it is a class or an enumeration. -/
def headEnd (s : Source) (macros : Macros) (i : Nat) : Announced → Nat
  | .record => (s.recordHead macros (i + 1)).2
  | .enumeration => (s.enumHead macros i).2
  | _ => i

/-- Where the words begin of a function or a variable whose own words begin at `i`. What begins as a
namespace, a class or an enumeration is none, if its head ends as theirs do. -/
def plainAt? (s : Source) (macros : Macros) (i : Nat) : Announced → Option Nat
  | .plain => some i
  | .record =>
    let j := (s.recordHead macros (i + 1)).2
    if s.is j "\x7b" || s.is j ":" || s.is j ";" then none else some i
  | .enumeration =>
    let j := (s.enumHead macros i).2
    if s.is j "\x7b" || s.is j ";" then none else some i
  | .namespaceHead keyword =>
    let j := (s.namespaceHead (keyword + 1)).2
    if s.is j "=" || s.is j "\x7b" then none else some j
  | _ => none

theorem lt_size_of_namespaceHead {s : Source} {start i keyword : Nat} (hi : i < s.size)
    (ha : s.announced start i = .namespaceHead keyword) : keyword < s.size := by
  unfold announced at ha
  split at ha <;> (try split at ha) <;> simp at ha
  · exact ha ▸ hi
  · rename_i hword
    exact ha ▸ lt_size_of_is hword

end Source

namespace Outline

variable {w : Window} {s s' : Source} (h : s.Agrees w s') {scope : Scope} {o o' : Outline}
  (ho : o.Matches w o') {start start' i : Nat} {templated : Bool}

open Source

/-! ## What is announced -/

include h ho in
/-- What is announced is recognised alike, if no more words follow in front. -/
theorem readAnnounced_moved {a : Announced} (ha : s.announced start i = a)
    (hprelude : ¬ a.IsPrelude) (hi : w.Behind i) (hin : i < s.size) (hstart : w.Same start start')
    (hs : w.Seen ((readAnnounced s scope start o i templated a).next + 1))
    (hhead : w.Seen (s.headEnd o.macros i a + 1))
    (hqualified : ∀ j ∈ s.plainAt? o.macros i a, s.QualifiedWithin w o.macros j) :
    (readAnnounced s scope start o i templated a).Matches w
      (readAnnounced s' scope start' o' (w.moved i) templated (a.map w.moved)) := by
  cases a with
  | namespaceHead keyword =>
    have hle := le_of_announced (.inl ha)
    refine readNamespace_moved h ho (Nat.le_trans hi.le hle) (lt_size_of_namespaceHead hin ha)
      hstart hs fun hassign hbrace => hqualified _ ?_
    simp only [plainAt?, hassign, hbrace, Bool.or_self, Bool.false_eq_true, if_false,
      Option.mem_def]
  | linkage brace =>
    exact readLinkage_moved ho (Nat.le_trans hi.le (le_of_announced (.inr ha))) hstart
  | exported => exact absurd trivial hprelude
  | moduleLine => exact readModule_moved h ho hi.le hin hstart hs
  | templateHead => exact absurd trivial hprelude
  | access =>
    simp only [readAnnounced, Announced.map, ← Window.moved_add hi.le]
    exact Matches.done (ho.add _ _ _ hstart (Window.same_moved _)) rfl
  | record =>
    refine readRecord_moved h ho .none hi hin hstart hs (fun _ => hhead)
      fun _ hbrace hcolon hsemi => hqualified _ ?_
    simp only [plainAt?, hbrace, hcolon, hsemi, Bool.or_self, Bool.false_eq_true, if_false,
      Option.mem_def]
  | enumeration =>
    refine readEnumeration_moved h ho hi hin hstart hs (fun _ => hhead)
      fun _ hbrace hsemi => hqualified _ ?_
    simp only [plainAt?, hbrace, hsemi, Bool.or_self, Bool.false_eq_true, if_false, Option.mem_def]
  | usingLine => exact readUsing_moved h ho hi hin hstart hs
  | typedefLine => exact readTypedef_moved h ho hi hin hstart hs
  | simple kind => exact readSimple_moved h ho hi.le hin hstart hs
  | plain => exact readPlain_moved h ho hi (Nat.le_of_lt hin) hstart hs (hqualified _ rfl)

/-! ## Macro calls -/

include h ho in
theorem addMacroCall_moved (hi : w.first ≤ i) (hs : w.Seen (s.macroCallEnd o.macros i + 1)) :
    (o.addMacroCall s i).1.Matches w (o'.addMacroCall s' (w.moved i)).1 ∧
      (o'.addMacroCall s' (w.moved i)).2 = (o.addMacroCall s i).2 := by
  have hle := s.le_macroCallEnd o.macros i
  have hspelling := h.spelling hi (w.seen_of_le hs (Nat.le_succ_of_le hle))
  have hnote := ho.note (s.macroCallNotes o.macros i) (s'.macroCallNotes o.macros (w.moved i))
  have hid := hnote.declare_id .macroInstantiation (s.spelling i) i (w.moved i)
    (s.macroCallEnd o.macros i) (w.moved (s.macroCallEnd o.macros i)) 0
  simp only [addMacroCall, ho.macros, hspelling, h.macroCallEnd_moved hi hs, hid, and_true]
  exact (hnote.declare _ _ _ (Window.same_moved i) (Window.same_moved _)).claim _
    (Window.same_moved i) (Window.same_moved _)

end Outline

/-! ## The words in front -/

namespace Lead

variable {w : Window} {s s' : Source} (h : s.Agrees w s') {scope : Scope} {start start' : Nat}
  {l l' : Lead}

open Outline Source

/-- The lead stands at a word, which may be one of those that stand in front of a declaration that
begins at `start`. -/
def IsWord (s : Source) (start : Nat) (l : Lead) : Prop :=
  l.index < s.size ∧ ¬ (s.is l.index "\x7d" && start < l.index) = true

instance (s : Source) (start : Nat) (l : Lead) : Decidable (l.IsWord s start) :=
  inferInstanceAs (Decidable (_ ∧ _))

/-- What the word announces at which the lead stands, unless it calls a macro. -/
def announced? (s : Source) (start : Nat) (l : Lead) : Option Announced :=
  if l.IsWord s start ∧ s.isMacroCall l.outline.macros l.index = false then
    some (s.announced start l.index)
  else none

/-- How far the head of the declaration is looked at whose own words begin at the lead. -/
def headEnd (s : Source) (start : Nat) (l : Lead) : Nat :=
  (l.announced? s start).elim l.index (s.headEnd l.outline.macros l.index)

/-- Where the words begin that are read for their shape alone, if the declaration is a function or a
variable whose own words begin at the lead. -/
def plainAt? (s : Source) (start : Nat) (l : Lead) : Option Nat :=
  (l.announced? s start).bind (s.plainAt? l.outline.macros l.index)

theorem announced?_eq (hword : l.IsWord s start)
    (hcalled : ¬ s.isMacroCall l.outline.macros l.index = true) :
    l.announced? s start = some (s.announced start l.index) :=
  if_pos ⟨hword, Bool.eq_false_iff.2 hcalled⟩

/-- The same words have been read in front of a declaration. -/
structure Matches (w : Window) (l l' : Lead) : Prop where
  outline : l.outline.Matches w l'.outline
  index : l'.index = w.moved l.index
  templated : l'.templated = l.templated

/-- What tells whether more words follow at the lead is seen. -/
structure Sighted (w : Window) (s : Source) (start : Nat) (l : Lead) : Prop where
  next : w.Seen (l.index + 1)
  call : l.IsWord s start → s.isMacroCall l.outline.macros l.index = true →
    w.Seen (s.macroCallEnd l.outline.macros l.index + 1)
  linkage : l.IsWord s start → s.isMacroCall l.outline.macros l.index = false →
    s.kind? (l.index + 1) = some .literal → w.Seen (l.index + 2)
  templateHead : l.IsWord s start → s.isMacroCall l.outline.macros l.index = false →
    s.announced start l.index = .templateHead → w.Seen (s.angleEnd (l.index + 1) + 1)

/-- The words in front have been read in a text that is not laid out anew, if one is a macro
call. -/
theorem lines_of_isMacroCall (ho : l.outline.Matches w l'.outline)
    (hcalled : s.isMacroCall l.outline.macros l.index = true) : w.relaid = false := by
  refine Bool.eq_false_iff.2 fun hw => ?_
  obtain ⟨hmacros, -⟩ := ho.plain hw
  rw [isMacroCall, hmacros] at hcalled
  simp at hcalled

theorem next?_of_not_isWord (hword : ¬ l.IsWord s start) : l.next? s start = none := by
  rw [next?, if_pos]
  by_contra hend
  rw [not_or, Nat.not_le] at hend
  exact hword hend

theorem next?_of_isWord (hword : l.IsWord s start) :
    l.next? s start =
      if s.isMacroCall l.outline.macros l.index then
        if s.is (s.macroCallEnd l.outline.macros l.index + 1) ";" ||
            s.standsAlone (s.macroCallEnd l.outline.macros l.index) then none
        else
          some ⟨(l.outline.addMacroCall s l.index).1, s.macroCallEnd l.outline.macros l.index + 1,
            l.templated⟩
      else if s.announced start l.index = .exported then some { l with index := l.index + 1 }
      else if s.announced start l.index = .templateHead then
        some ⟨l.outline, s.angleEnd (l.index + 1) + 1, true⟩
      else none := by
  have hend : ¬ (s.size ≤ l.index ∨ (s.is l.index "\x7d" && start < l.index) = true) := by
    rw [not_or, Nat.not_le]
    exact hword
  rw [next?, if_neg hend]
  cases s.announced start l.index <;> rfl

include h in
theorem isWord_moved (hl : l.Matches w l') (hstart : w.first ≤ start) (hle : start ≤ l.index)
    (hseen : w.Seen l.index) : l'.IsWord s' (w.moved start) ↔ l.IsWord s start := by
  have hi : w.first ≤ l.index := Nat.le_trans hstart hle
  rw [IsWord, IsWord, hl.index, h.lt_iff hi hseen, h.is_moved hi hseen,
    decide_eq_decide.2 (Window.moved_lt_moved hstart hi)]

include h in
/-- The same word follows in front. -/
theorem next?_moved (hl : l.Matches w l') (hstart : w.first ≤ start) (hle : start ≤ l.index)
    (hsighted : l.Sighted w s start) :
    Option.Rel (Matches w) (l.next? s start) (l'.next? s' (w.moved start)) := by
  have hi : w.first ≤ l.index := Nat.le_trans hstart hle
  have hseen : w.Seen l.index := w.seen_of_le hsighted.next (Nat.le_succ _)
  have hmoved := isWord_moved h hl hstart hle hseen
  by_cases hword : l.IsWord s start
  case neg =>
    rw [next?_of_not_isWord hword, next?_of_not_isWord (mt hmoved.1 hword)]
    exact .none
  rw [next?_of_isWord hword, next?_of_isWord (hmoved.2 hword), hl.index, hl.outline.macros,
    h.isMacroCall_moved hi hseen]
  split
  · rename_i hcalled
    have hlines := lines_of_isMacroCall hl.outline hcalled
    have hcall := hsighted.call hword hcalled
    have hlast : w.first ≤ s.macroCallEnd l.outline.macros l.index :=
      Nat.le_trans hi (s.le_macroCallEnd _ _)
    rw [h.macroCallEnd_moved hi hcall, ← Window.moved_succ hlast,
      h.is_moved (Nat.le_succ_of_le hlast) hcall, h.standsAlone_moved hlines hlast hcall]
    split
    · exact .none
    · exact .some ⟨(addMacroCall_moved h hl.outline hi hcall).1, rfl, hl.templated⟩
  · rename_i hcalled
    replace hcalled := Bool.eq_false_iff.2 hcalled
    rw [h.announced_moved hstart hle hsighted.next (hsighted.linkage hword hcalled)]
    cases ha : s.announced start l.index with
    | exported => exact .some ⟨hl.outline, (Window.moved_succ hi).symm, hl.templated⟩
    | templateHead =>
      have hangle := le_angleEnd (lt_size_of_is (is_of_announced ha))
      have hnext : w.first ≤ l.index + 1 := Nat.le_succ_of_le hi
      refine .some ⟨hl.outline, ?_, rfl⟩
      rw [← Window.moved_succ hi, h.angleEnd_moved hnext (hsighted.templateHead hword hcalled ha),
        ← Window.moved_succ (Nat.le_trans hnext hangle)]
    | _ => exact .none

/-- Where a word follows, what tells it is seen if what stands behind it is. -/
theorem sighted_of_next? {l₁ : Lead} (hnext : l.next? s start = some l₁)
    (hs : w.Seen (l₁.index + 1)) : l.Sighted w s start := by
  have hlt := lt_of_next? hnext
  refine ⟨w.seen_of_le hs (by omega), fun hword hcalled => ?_, fun _ _ _ =>
    w.seen_of_le hs (by omega), fun hword hcalled ha => ?_⟩
  · rw [next?_of_isWord hword, if_pos hcalled] at hnext
    split at hnext <;> cases hnext
    exact w.seen_of_le hs (Nat.le_succ _)
  · rw [next?_of_isWord hword, hcalled, ha] at hnext
    cases hnext
    exact w.seen_of_le hs (Nat.le_succ _)

include h in
/-- **The same words stand in front of a declaration**, if what tells that no more follow is
seen. -/
theorem ownWords_moved (hl : l.Matches w l') (hstart : w.first ≤ start) (hle : start ≤ l.index)
    (hsighted : (l.ownWords s start).Sighted w s start) :
    (l.ownWords s start).Matches w (l'.ownWords s' (w.moved start)) := by
  fun_induction ownWords s start l generalizing l' with
  | case1 l l₁ hnext ih =>
    have hlt := lt_of_next? hnext
    have hseen := w.seen_of_le hsighted.next (Nat.succ_le_succ (le_ownWords (l := l₁)))
    have hrel := next?_moved h hl hstart hle (sighted_of_next? hnext hseen)
    rw [hnext] at hrel
    cases hnext' : l'.next? s' (w.moved start) with
    | none =>
      rw [hnext'] at hrel
      cases hrel
    | some l₁' =>
      rw [hnext'] at hrel
      cases hrel with
      | some hl₁ =>
        rw [ownWords_next? hnext']
        exact ih hl₁ (Nat.le_trans hle (Nat.le_of_lt hlt)) hsighted
  | case2 l hnone =>
    have hrel := next?_moved h hl hstart hle hsighted
    rw [hnone] at hrel
    cases hnone' : l'.next? s' (w.moved start) with
    | none =>
      rw [ownWords_none hnone']
      exact hl
    | some l₁' =>
      rw [hnone'] at hrel
      cases hrel

/-! ## Whole declarations -/

theorem le_next_read : l.index ≤ (l.read s scope start).next :=
  le_next_readDeclaration s scope start l.outline l.index l.templated

theorem lt_next_read (hle : start ≤ l.index) (hword : l.IsWord s start) :
    l.index < (l.read s scope start).next := by
  have hnext : l.index < (l.read s scope start).next ∨
      (l.read s scope start).next = l.index ∧ (s.is l.index "\x7d" = true ∨ s.size ≤ l.index) :=
    next_readDeclaration
  rcases hnext with hlt | ⟨-, hbrace | hend⟩
  · exact hlt
  · have heq : start = l.index := by
      refine Nat.le_antisymm hle (Nat.le_of_not_lt fun hlt => hword.2 ?_)
      rw [hbrace, decide_eq_true hlt, Bool.and_self]
    have hlt : start < (l.read s scope start).next :=
      lt_next_readDeclaration (heq ▸ hword.1) hle
    exact heq ▸ hlt
  · exact absurd hword.1 (Nat.not_lt_of_le hend)

/-- The own words of a declaration tell that no more words follow, as far as the declaration is
read. -/
theorem sighted_of_read (hnone : l.next? s start = none) (hle : start ≤ l.index)
    (hs : w.Seen ((l.read s scope start).next + 1)) : l.Sighted w s start := by
  refine ⟨w.seen_of_le hs (Nat.succ_le_succ le_next_read), fun hword hcalled => ?_,
    fun hword _ _ => w.seen_of_le hs (Nat.succ_le_succ (lt_next_read hle hword)),
    fun hword hcalled ha => ?_⟩
  · have hread : (l.read s scope start).next = _ :=
      congrArg Outcome.next (readDeclaration_macroCall hword.1 hword.2 hcalled)
    rw [next?_of_isWord hword, if_pos hcalled] at hnone
    rw [hread] at hs
    split at hs
    · exact w.seen_of_le hs (by simp only [done]; omega)
    split at hs
    · exact w.seen_of_le hs (Nat.le_succ _)
    · simp_all
  · rw [next?_of_isWord hword, hcalled, ha] at hnone
    cases hnone

/-- Words in front with nothing behind them declare nothing. -/
theorem read_of_not_isWord (hword : ¬ l.IsWord s start) :
    l.read s scope start =
      if l.index < s.size then
        (l.outline.add .unexposedDecl "" start (l.index - 1) scope.parent).done l.index
      else l.outline.done l.index := by
  rw [read, readDeclaration]
  split
  · rename_i hlt
    rw [if_pos (Decidable.not_not.1 fun hbrace => hword ⟨hlt, hbrace⟩)]
  · rfl

include h in
/-- A macro call that is a declaration of its own is recognised alike. -/
theorem read_macroCall_moved (hl : l.Matches w l') (hword : l.IsWord s start)
    (hword' : l'.IsWord s' start') (hcalled : s.isMacroCall l.outline.macros l.index = true)
    (hcalled' : s'.isMacroCall l'.outline.macros l'.index = true) (hi : w.first ≤ l.index)
    (hnone : l.next? s start = none)
    (hs : w.Seen (s.macroCallEnd l.outline.macros l.index + 1)) :
    (l.read s scope start).Matches w (l'.read s' scope start') := by
  have hlines := lines_of_isMacroCall hl.outline hcalled
  have hlast : w.first ≤ s.macroCallEnd l.outline.macros l.index :=
    Nat.le_trans hi (s.le_macroCallEnd _ _)
  have hnext := Nat.le_succ_of_le hlast
  obtain ⟨hadd, hid⟩ := addMacroCall_moved h hl.outline hi hs
  rw [next?_of_isWord hword, if_pos hcalled] at hnone
  rw [read, read, readDeclaration_macroCall hword.1 hword.2 hcalled,
    readDeclaration_macroCall hword'.1 hword'.2 hcalled', hl.index, hl.outline.macros,
    h.macroCallEnd_moved hi hs, hid, ← Window.moved_succ hlast, ← Window.moved_add hlast,
    h.is_moved hnext hs, h.standsAlone_moved hlines hlast hs]
  split
  · exact Matches.done (hadd.claim _ (Window.same_moved _) (Window.same_moved _)) rfl
  split
  · exact Matches.done hadd rfl
  · simp_all

include h in
/-- **A declaration is recognised alike from its own words on.** -/
theorem read_moved (hl : l.Matches w l') (hnone : l.next? s start = none)
    (hstart : w.Behind start) (hle : start ≤ l.index)
    (hs : w.Seen ((l.read s scope start).next + 1)) (hhead : w.Seen (l.headEnd s start + 1))
    (hqualified : ∀ j ∈ l.plainAt? s start, s.QualifiedWithin w l.outline.macros j) :
    (l.read s scope start).Matches w (l'.read s' scope (w.moved start)) := by
  have hsighted := sighted_of_read hnone hle hs
  have hi : w.Behind l.index := hstart.mono hle
  have hseen : w.Seen l.index := w.seen_of_le hsighted.next (Nat.le_succ _)
  have hmoved := isWord_moved h hl hstart.le hle hseen
  by_cases hword : l.IsWord s start
  case neg =>
    rw [read_of_not_isWord hword, read_of_not_isWord (mt hmoved.1 hword), hl.index,
      ← Window.moved_pred hi]
    simp only [h.lt_iff hi.le hseen]
    split
    · exact Matches.done (hl.outline.add _ _ _ (Window.same_moved _) (Window.same_moved _)) rfl
    · exact Matches.done hl.outline rfl
  have hword' := hmoved.2 hword
  have hcall : s'.isMacroCall l'.outline.macros l'.index =
      s.isMacroCall l.outline.macros l.index := by
    rw [hl.index, hl.outline.macros, h.isMacroCall_moved hi.le hseen]
  by_cases hcalled : s.isMacroCall l.outline.macros l.index = true
  · exact read_macroCall_moved h hl hword hword' hcalled (hcall.trans hcalled) hi.le hnone
      (hsighted.call hword hcalled)
  · rw [headEnd, announced?_eq hword hcalled] at hhead
    rw [plainAt?, announced?_eq hword hcalled] at hqualified
    have hannounced := h.announced_moved hstart.le hle hsighted.next
      (hsighted.linkage hword (Bool.eq_false_iff.2 hcalled))
    have hprelude : ¬ (s.announced start l.index).IsPrelude := fun hprelude => by
      rw [next?_of_isWord hword, if_neg hcalled] at hnone
      cases ha : s.announced start l.index <;> rw [ha] at hnone hprelude <;>
        first | exact hprelude | cases hnone
    have hread : l.read s scope start = readAnnounced s scope start l.outline l.index l.templated
        (s.announced start l.index) := readDeclaration_announced hword.1 hword.2 hcalled
    rw [hread] at hs ⊢
    rw [read, readDeclaration_announced hword'.1 hword'.2 (by rwa [hcall]), hl.index, hannounced,
      hl.templated]
    exact readAnnounced_moved h hl.outline rfl hprelude hi hword.1 (Window.same_moved start) hs
      hhead hqualified

end Lead

end DocIndex
