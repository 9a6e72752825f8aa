import DocIndex.Proofs.Window.Declaration

/-!
# Reading within a window

Step by step, two readings stay matched as long as they stay within the window: each step ends
there, and a declaration neither looks further ahead nor further back (`Reading.InWindow`).

* `Outline.step_moved` — one step.
* `Outline.comes_moved` — all steps up to where reading comes to.
* `Outline.readFrom_moved` — **all steps to the end of the text.**
-/

namespace DocIndex

/-- Two readings have recognised the same, and stand at the same lexeme. -/
structure Reading.Matches (w : Window) (r r' : Reading) : Prop where
  outline : r.outline.Matches w r'.outline
  frames : List.Forall₂ (Frame.Matches w) r.frames r'.frames
  next : r'.next = w.moved r.next

/-- A declaration that is read next looks neither further ahead nor further back than the window
reaches. -/
structure Reading.InWindow (w : Window) (s : Source) (r : Reading) : Prop where
  head : Outline.startsDeclaration s r.next = true →
    w.Seen ((r.lead s).headEnd s r.next + 1)
  qualified : Outline.startsDeclaration s r.next = true →
    ∀ j ∈ (r.lead s).plainAt? s r.next, s.QualifiedWithin w (r.lead s).outline.macros j

namespace Outline

variable {w : Window} {s s' : Source} (h : s.Agrees w s') {o o' : Outline} (ho : o.Matches w o')
  {frames frames' : List Frame} {i : Nat}

open Source

/-! ## Closing scopes -/

theorem scopeOf_matches (hf : List.Forall₂ (Frame.Matches w) frames frames') :
    scopeOf frames' = scopeOf frames := by
  cases hf with
  | nil => rfl
  | cons hf _ => exact hf.scope

include ho in
theorem reachTo_all_matches (ids : List CursorId) {last last' : Nat} (hlast : w.Same last last') :
    (ids.foldl (fun o id => o.reachTo id last) o).Matches w
      (ids.foldl (fun o id => o.reachTo id last') o') := by
  induction ids generalizing o o' with
  | nil => exact ho
  | cons id ids ih => exact ih (ho.reachTo id hlast)

include h ho in
/-- **A scope is closed alike.** -/
theorem close_moved (around : Scope) {closing closing' : Closing}
    (hclosing : closing.Matches w closing') {after : Nat} (hi : w.Behind after)
    (hseen : w.Seen (after - 1 + 1)) (hs : w.Seen ((close s around closing o after).2 + 1)) :
    (close s around closing o after).1.Matches w
        (close s' around closing' o' (w.moved after)).1 ∧
      (close s' around closing' o' (w.moved after)).2 =
        w.moved (close s around closing o after).2 := by
  have hpred := Window.moved_pred hi
  have hlast : w.Same (after - 1) (w.moved after - 1) := by
    rw [← hpred]
    exact Window.same_moved _
  cases hclosing with
  | linkage id hstart => exact ⟨ho.reachTo id (hlast.max hstart), rfl⟩
  | namespaces ids hstart => exact ⟨reachTo_all_matches ho ids (hlast.max hstart), rfl⟩
  | record id hstart =>
    have hend := h.declaratorsEnd_moved hi (w.seen_of_le hseen (by omega))
      (w.seen_of_le hs (Nat.le_succ _))
    have hmin := (Window.same_moved (w := w) after).min
      (Window.same_moved (declaratorsEnd s after).index)
    simp only [close, hend]
    exact ⟨((ho.note _ _).claim id hmin (Window.same_moved _)).reachTo id
      ((Window.same_moved _).max hstart), (Window.moved_succ (first_le_declaratorsEnd h hi)).symm⟩
  | typedefRecord id hstart houter =>
    have hmin := (Window.same_moved (w := w) after).min hlast
    have hclaim := (ho.claim id hmin hlast).reachTo id (hlast.max hstart)
    have hrest := readTypedefRest_moved h hclaim around
      (Window.behind_succ hi.le_pred) hseen houter hs
    rw [Window.moved_succ hi.le_pred, hpred] at hrest
    exact ⟨hrest.outline, hrest.next⟩

/-! ## Steps -/

/-- A declaration that is read next is read from its own words on. -/
theorem step_lead {r : Reading} (hstarts : startsDeclaration s r.next = true) :
    step s r.outline r.frames r.next =
      ⟨((r.lead s).read s (scopeOf r.frames) r.next).outline,
        ((r.lead s).read s (scopeOf r.frames) r.next).opened.toList ++ r.frames,
        ((r.lead s).read s (scopeOf r.frames) r.next).next⟩ := by
  rw [step_declaration _ _ hstarts, r.read_lead s]

include h in
theorem startsDeclaration_moved (hi : w.Behind i) (hs : w.Seen i) :
    startsDeclaration s' (w.moved i) = startsDeclaration s i := by
  rw [startsDeclaration, startsDeclaration, h.isComment_moved hi.le hs, h.startsLine_moved hi hs,
    h.is_moved hi.le hs, h.is_moved hi.le hs]

include h ho in
/-- A declaration is read in a step. -/
theorem stepDeclaration_moved (hf : List.Forall₂ (Frame.Matches w) frames frames')
    (hi : w.Behind i) (hseen : w.Seen i) (hstarts : startsDeclaration s i = true)
    (hs : w.Seen ((step s o frames i).next + 1)) (hin : Reading.InWindow w s ⟨o, frames, i⟩) :
    (step s o frames i).Matches w (step s' o' frames' (w.moved i)) := by
  have hstarts' := (startsDeclaration_moved h hi hseen).trans hstarts
  rw [step_lead (r := ⟨o, frames, i⟩) hstarts] at hs ⊢
  rw [step_lead (r := ⟨o', frames', w.moved i⟩) hstarts', scopeOf_matches hf]
  have hle : i ≤ (Reading.lead s ⟨o, frames, i⟩).index := Reading.le_lead s ⟨o, frames, i⟩
  have hnone : (Reading.lead s ⟨o, frames, i⟩).next? s i = none := Lead.next?_ownWords
  have hwords : (Reading.lead s ⟨o, frames, i⟩).Matches w
      (Reading.lead s' ⟨o', frames', w.moved i⟩) :=
    Lead.ownWords_moved h ⟨ho, rfl, rfl⟩ hi.le (Nat.le_refl i)
      (Lead.sighted_of_read hnone hle hs)
  have hmatches := Lead.read_moved h hwords hnone hi hle hs (hin.head hstarts)
    (hin.qualified hstarts)
  refine ⟨hmatches.outline, ?_, hmatches.next⟩
  have hopened := hmatches.opened
  simp only
  generalize ((Reading.lead s ⟨o, frames, i⟩).read s (scopeOf frames) i).opened = f at hopened ⊢
  generalize ((Reading.lead s' ⟨o', frames', w.moved i⟩).read s' (scopeOf frames)
    (w.moved i)).opened = f' at hopened ⊢
  cases hopened with
  | none => exact hf
  | some hmatches => exact .cons hmatches hf

include h ho in
/-- **One step recognises the same**, if it stays within the window. -/
theorem step_moved (hf : List.Forall₂ (Frame.Matches w) frames frames') (hi : w.Behind i)
    (hlt : i < s.size) (hs : w.Seen ((step s o frames i).next + 1))
    (hin : Reading.InWindow w s ⟨o, frames, i⟩) :
    (step s o frames i).Matches w (step s' o' frames' (w.moved i)) := by
  have hnext : w.Seen (i + 1) := w.seen_of_le hs (Nat.le_succ_of_le (lt_next_step o frames hlt))
  have hseen : w.Seen i := w.seen_of_le hnext (Nat.le_succ i)
  have hclaim (id : CursorId) := ho.claim id (Window.same_moved i) (Window.same_moved i)
  have hbehind := (Window.moved_succ hi.le).symm
  cases hstarts : startsDeclaration s i with
  | true => exact stepDeclaration_moved h ho hf hi hseen hstarts hs hin
  | false =>
    simp only [startsDeclaration, Bool.and_eq_false_iff, Bool.not_eq_false'] at hstarts
    unfold step at hs ⊢
    simp only at hs ⊢
    rw [h.startsLine_moved hi hseen, h.isComment_moved hi.le hseen, h.is_moved hi.le hseen,
      h.is_moved hi.le hseen, scopeOf_matches hf]
    split
    · exact ⟨hclaim _, hf, hbehind⟩
    rename_i hcomment
    rw [if_neg hcomment] at hs
    split
    · rename_i hline
      rw [if_pos hline] at hs
      simp only [Bool.and_eq_true] at hline
      have hlines := h.lines_of_hash hline.1
      refine ⟨readDirective_moved h ho hi.le hline.1 hs, hf, ?_⟩
      simp only
      rw [h.lineEnd_moved hlines hi.le (w.seen_of_le hs (Nat.le_succ _)),
        Window.moved_succ (Nat.le_trans hi.le (le_lineEnd i))]
    rename_i hline
    rw [if_neg hline] at hs
    split
    · rename_i hbrace
      rw [if_pos hbrace] at hs
      cases hf with
      | nil => exact ⟨ho.note _ _, .nil, hbehind⟩
      | cons hframe hf =>
        have hclose := close_moved h (hclaim _) (scopeOf _) hframe.closing
          (Window.behind_succ hi.le) hnext hs
        rw [Window.moved_succ hi.le] at hclose
        simp only [scopeOf_matches hf]
        exact ⟨hclose.1, hf, hclose.2⟩
    rename_i hbrace
    split
    · exact ⟨hclaim _, hf, hbehind⟩
    · rename_i hsemi
      simp_all

/-! ## Readings -/

include h in
/-- **Up to where reading comes to, the same is recognised.** -/
theorem comes_moved {r r₁ r' : Reading} (hcomes : Comes s r r₁) (hr : r.Matches w r')
    (hi : w.Behind r.next) (hs : w.Seen (r₁.next + 1))
    (hin : ∀ r₂, Comes s r r₂ → Comes s r₂ r₁ → r₂.next < r₁.next → r₂.InWindow w s) :
    ∃ r₁', r₁.Matches w r₁' ∧ Comes s' r' r₁' := by
  induction hcomes generalizing r' with
  | refl r => exact ⟨r', hr, .refl r'⟩
  | @step r r₁ hlt hcomes ih =>
    have hnext := lt_next_step r.outline r.frames hlt
    have hle := le_of_comes hcomes
    have hstep : (Outline.step s r.outline r.frames r.next).Matches w
        (Outline.step s' r'.outline r'.frames r'.next) := by
      rw [hr.next]
      exact step_moved h hr.outline hr.frames hi hlt (w.seen_of_le hs (Nat.succ_le_succ hle))
        (hin r (.refl r) (.step hlt hcomes) (Nat.lt_of_lt_of_le hnext hle))
    obtain ⟨r₁', hr₁, hcomes'⟩ := ih hstep (hi.mono (Nat.le_of_lt hnext)) hs
      fun r₂ hto hfrom => hin r₂ (.step hlt hto) hfrom
    refine ⟨r₁', hr₁, .step ?_ hcomes'⟩
    rw [hr.next]
    exact (h.lt_iff hi.le (w.seen_of_le hs (by omega))).2 hlt

include h in
/-- Behind a scope that is closed in the window, reading goes on there. -/
theorem behind_next_close {around : Scope} {closing : Closing} {after : Nat} (hi : w.Behind after) :
    w.Behind (close s around closing o after).2 := by
  cases closing with
  | linkage | namespaces => exact hi
  | record id start => exact Window.behind_succ (first_le_declaratorsEnd h hi)
  | typedefRecord id start outer =>
    exact Window.behind_succ (h.first_le_statementEnd (Window.behind_succ hi.le_pred))

include h ho in
/-- The scopes that are still open at the end are closed alike. -/
theorem closeAll_moved (hf : List.Forall₂ (Frame.Matches w) frames frames') (hi : w.Behind i)
    (hs : ∀ i, w.Seen i) :
    (closeAll s frames o i).Matches w (closeAll s' frames' o' (w.moved i)) := by
  induction hf generalizing o o' i with
  | nil => exact ho
  | @cons f f' around around' hframe hf ih =>
    have hnote := ho.note [⟨i, .noClosingBrace⟩] [⟨w.moved i, .noClosingBrace⟩]
    obtain ⟨hclose, hnext⟩ :=
      close_moved h hnote (scopeOf around) hframe.closing hi (hs _) (hs _)
    rw [closeAll, closeAll, scopeOf_matches hf]
    simp only [hnext]
    exact ih hclose (behind_next_close h hi)

include h in
/-- **To the end of the text the same is recognised.** -/
theorem readFrom_moved {r r' : Reading} (hr : r.Matches w r') (hi : w.Behind r.next)
    (hs : ∀ i, w.Seen i) (hin : ∀ r₂, Comes s r r₂ → r₂.next < s.size → r₂.InWindow w s) :
    (readFrom s r.outline r.frames r.next).Matches w
      (readFrom s' r'.outline r'.frames r'.next) := by
  obtain ⟨r₁, hcomes, hend, hread⟩ := exists_comes (s := s) r
  obtain ⟨r₁', hr₁, hcomes'⟩ := comes_moved h hcomes hr hi (hs _) fun r₂ hto hfrom hlt => by
    cases hfrom with
    | refl => exact absurd hlt (Nat.lt_irrefl _)
    | step hsize => exact hin r₂ hto hsize
  have hbehind : w.Behind r₁.next := hi.mono (le_of_comes hcomes)
  have hend' : ¬ r₁'.next < s'.size := by
    rw [hr₁.next, h.lt_iff hbehind.le (hs _)]
    exact Nat.not_lt_of_le hend
  rw [hread, readFrom_comes hcomes', readFrom, if_neg hend', hr₁.next]
  exact closeAll_moved h hr₁.outline hr₁.frames hbehind hs

end Outline

end DocIndex
