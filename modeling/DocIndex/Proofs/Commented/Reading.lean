import DocIndex.Proofs.Commented.Declaration

/-!
# A whole text with one comment more

A reading of the text with the comment keeps abreast with one of the text without: step by step up
to the comment, then over it, then step by step again. What is recognised is the same.

* `Outline.step_alike` — one step.
* `Outline.readFrom_alike` — all steps behind the comment.
* `Outline.Comes` — reading comes to stand there by whole steps.
* `Outline.ofSource_alike` — **the outline is alike**, whatever is read in front of the comment,
  behind it, or around it for its shape alone.
-/

namespace DocIndex

/-- Two readings have recognised the same, and stand abreast. -/
structure Reading.Alike (k : Nat) (r r' : Reading) : Prop where
  outline : r.outline.Alike r'.outline
  frames : r'.frames.map Frame.bare = r.frames.map Frame.bare
  next : Abreast k r.next r'.next

namespace Outline

variable {s s' : Source} {k : Nat} (h : s.Commented s' k) (hl : s.Loose k) {o o' : Outline}
  (ho : o.Alike o') {frames frames' : List Frame} {i i' : Nat}

open Source

/-! ## Steps -/

theorem scopeOf_bare (hf : frames'.map Frame.bare = frames.map Frame.bare) :
    scopeOf frames' = scopeOf frames := by
  cases frames <;> cases frames' <;> simp_all [Frame.bare, scopeOf]

include ho in
theorem reachTo_all_alike (ids : List CursorId) (last last' : Nat) :
    (ids.foldl (fun o id => o.reachTo id last) o).Alike
      (ids.foldl (fun o id => o.reachTo id last') o') := by
  induction ids generalizing o o' with
  | nil => exact ho
  | cons id ids ih => exact ih (ho.reachTo id last last')

include h ho in
/-- **A scope is closed with the comment in front of its brace, or behind what follows.** -/
theorem close_alike {around : Scope} {closing closing' : Closing}
    (hbare : closing'.bare = closing.bare) {brace : Nat}
    (hm : k ≤ brace ∨ (close s around closing o (brace + 1)).2 ≤ k)
    (hn : (close s around closing o (brace + 1)).1.notes = []) :
    (close s around closing o (brace + 1)).1.Alike
        (close s' around closing' o' (past k brace + 1)).1 ∧
      Abreast k (close s around closing o (brace + 1)).2
        (close s' around closing' o' (past k brace + 1)).2 := by
  cases closing <;> cases closing' <;> simp only [Closing.bare, reduceCtorEq] at hbare
  case linkage.linkage id start id' start' =>
    obtain rfl : id' = id := by simpa using hbare
    exact ⟨ho.reachTo .., abreast_succ k brace⟩
  case namespaces.namespaces ids start ids' start' =>
    obtain rfl : ids' = ids := by simpa using hbare
    exact ⟨reachTo_all_alike ho .., abreast_succ k brace⟩
  case record.record id start id' start' =>
    obtain rfl : id' = id := by simpa using hbare
    have hnotes : (declaratorsEnd s (brace + 1)).notes = [] := (List.append_eq_nil_iff.1 hn).2
    have hend := h.declaratorsEnd_past hm hnotes
    simp only [close, hend]
    exact ⟨((ho.note ..).claim ..).reachTo .., abreast_succ k _⟩
  case typedefRecord.typedefRecord id start outer id' start' outer' =>
    obtain rfl : id' = id := by simpa using hbare
    simp only [close] at hn ⊢
    have hrest {o o' : Outline} (ho : o.Alike o')
        (hn : (o.readTypedefRest s around outer (brace + 1)).outline.notes = []) :
        (o.readTypedefRest s around outer (brace + 1)).Alike k
          (o'.readTypedefRest s' around outer' (past k brace + 1)) :=
      readTypedefRest_alike h ho (abreast_succ k brace) hn
    exact ⟨(hrest ((ho.claim ..).reachTo ..) hn).outline,
      (hrest ((ho.claim ..).reachTo ..) hn).next⟩

/-- At lexeme `i` a declaration begins. -/
def startsDeclaration (s : Source) (i : Nat) : Bool :=
  !s.isComment i && !(s.is i "#" && s.startsLine i) && !s.is i "\x7d" && !s.is i ";"

/-- The comment stands where it makes no difference to the step at lexeme `i`: in front of it, or
behind what is read, or within a declaration that is read for its shape alone. -/
inductive StepClear (s s' : Source) (k : Nat) (o : Outline) (frames : List Frame) (i : Nat) : Prop
  | front (hk : k ≤ i)
  | behind (hk : i < k) (hnext : (step s o frames i).next ≤ k)
      (hapart : (step s o frames i).next = k → MacrosApart s' k (step s o frames i).outline)
  | within {j : Nat} (hk : i < k) (hstarts : startsDeclaration s i = true)
      (hlead : LeadsTo s i o i j) (hj : j < k)
      (hword : ∀ m, j ≤ m → m < k → s.spelling m ≠ "operator")

theorem step_declaration (o : Outline) (frames : List Frame)
    (hstarts : startsDeclaration s i = true) :
    step s o frames i =
      let r := readDeclaration s (scopeOf frames) i o i false
      ⟨r.outline, r.opened.toList ++ frames, r.next⟩ := by
  simp only [startsDeclaration, Bool.and_eq_true, Bool.not_eq_true'] at hstarts
  obtain ⟨⟨⟨hcomment, hline⟩, hbrace⟩, hsemi⟩ := hstarts
  simp only [step, hcomment, hline, hbrace, hsemi, Bool.false_eq_true, if_false]

include h in
theorem startsDeclaration_past (i : Nat) :
    startsDeclaration s' (past k i) = startsDeclaration s i := by
  simp only [startsDeclaration, h.isComment_past, h.is_past, h.startsLine_past]

include h hl ho in
/-- A declaration is read in a step as in one with one comment more. -/
theorem stepDeclaration_alike (hf : frames'.map Frame.bare = frames.map Frame.bare)
    (hstarts : startsDeclaration s i = true) (hclear : StepClear s s' k o frames i)
    (hn : (step s o frames i).outline.notes = []) :
    (step s o frames i).Alike k (step s' o' frames' (past k i)) := by
  have hstep := step_declaration o frames hstarts
  have hread : (readDeclaration s (scopeOf frames) i o i false).Alike k
      (readDeclaration s' (scopeOf frames) (past k i) o' (past k i) false) := by
    rw [hstep] at hn
    refine readDeclaration_alike h hl ho (Nat.le_refl i) ?_ hn
    cases hclear with
    | front hk => exact .front hk rfl
    | behind hk hnext hapart =>
      rw [hstep] at hnext hapart
      exact .behind hk (abreast_past k i) hnext hapart
    | within hk _ hlead hj hword => exact .within hk (abreast_past k i) hlead hj hword
  rw [hstep, step_declaration o' frames' ((startsDeclaration_past h i).trans hstarts),
    scopeOf_bare hf]
  refine ⟨hread.outline, ?_, hread.next⟩
  rw [List.map_append, List.map_append, hf, ← Option.toList_map, ← Option.toList_map, hread.opened]

include h hl ho in
/-- **One step recognises the same with one comment more.** -/
theorem step_alike (hf : frames'.map Frame.bare = frames.map Frame.bare)
    (hclear : StepClear s s' k o frames i) (hn : (step s o frames i).outline.notes = []) :
    (step s o frames i).Alike k (step s' o' frames' (past k i)) := by
  cases hstarts : startsDeclaration s i with
  | true => exact stepDeclaration_alike h hl ho hf hstarts hclear hn
  | false =>
    have hm : k ≤ i ∨ (step s o frames i).next ≤ k := by
      cases hclear with
      | front hk => exact .inl hk
      | behind _ hnext _ => exact .inr hnext
      | within _ hdeclaration _ _ _ =>
        rw [hstarts] at hdeclaration
        cases hdeclaration
    simp only [startsDeclaration, Bool.and_eq_false_iff, Bool.not_eq_false'] at hstarts
    have hscope := scopeOf_bare hf
    unfold step at hm hn ⊢
    simp only [h.isComment_past, h.is_past, h.startsLine_past, hscope] at hm hn ⊢
    split
    · exact ⟨ho.claim .., hf, abreast_succ k i⟩
    rename_i hcomment
    rw [if_neg hcomment] at hm hn
    split
    · rename_i hline
      rw [if_pos hline] at hm
      simp only [Bool.and_eq_true] at hline
      exact ⟨readDirective_alike h hl ho hline.1 hm, hf, h.abreast_lineEnd hm⟩
    rename_i hline
    rw [if_neg hline] at hm hn
    split
    · rename_i hbrace
      rw [if_pos hbrace] at hm hn
      cases frames with
      | nil => simp at hn
      | cons f around =>
        cases frames' with
        | nil => simp at hf
        | cons f' around' =>
          simp only [List.map_cons, List.cons.injEq] at hf
          have hbare := congrArg Frame.closing hf.1
          simp only [scopeOf_bare hf.2]
          exact ⟨(close_alike h (ho.claim ..) hbare hm hn).1, hf.2,
            (close_alike h (ho.claim ..) hbare hm hn).2⟩
    rename_i hbrace
    split
    · exact ⟨ho.claim .., hf, abreast_succ k i⟩
    · rename_i hsemi
      simp_all

/-! ## Readings -/

include h ho in
/-- At the comment nothing is recognised. -/
theorem readFrom_abreast (hi : Abreast k i i') :
    ∃ o₁, o.Alike o₁ ∧ readFrom s' o' frames i' = readFrom s' o₁ frames (past k i) := by
  rcases hi with rfl | ⟨rfl, rfl⟩
  · exact ⟨o', ho, rfl⟩
  · refine ⟨o'.claim i' i' (scopeOf frames).owner,
      ⟨ho.faces, ho.macros, ho.scopes, ho.moduleName⟩, ?_⟩
    have hstep : step s' o' frames i' =
        ⟨o'.claim i' i' (scopeOf frames).owner, frames, i' + 1⟩ := by
      simp only [step, h.isComment, if_true]
    rw [readFrom_step frames h.lt_size, hstep, past_of_le (Nat.le_refl i')]

include h hl ho in
/-- **Behind the comment the same is recognised.** -/
theorem readFrom_alike (hf : frames'.map Frame.bare = frames.map Frame.bare) (hi : k ≤ i)
    (hn : (readFrom s o frames i).notes = []) :
    (readFrom s o frames i).Alike (readFrom s' o' frames' (past k i)) := by
  fun_induction readFrom s o frames i generalizing o' frames' with
  | case1 o frames i hlt r =>
    rename_i ih
    have hstep := step_alike h hl ho hf (.front hi) (notes_of_readFrom hn)
    have hnext : k < r.next := Nat.lt_of_le_of_lt hi (lt_next_step o frames hlt)
    rw [readFrom_step frames' (h.lt_size_past.2 hlt), hstep.next.eq_past (Nat.ne_of_gt hnext)]
    exact ih hstep.outline hstep.frames (Nat.le_of_lt hnext) hn
  | case2 o frames i hlt =>
    obtain ⟨rfl, -⟩ := notes_of_closeAll hn
    rw [List.map_nil, List.map_eq_nil_iff] at hf
    rw [readFrom, if_neg (mt h.lt_size_past.1 hlt), hf]
    exact ho

/-- From `r` on, reading comes by whole steps to stand at the second one. -/
inductive Comes (s : Source) : Reading → Reading → Prop
  | refl (r : Reading) : Comes s r r
  | step {r r₁ : Reading} (hlt : r.next < s.size)
      (hcomes : Comes s (step s r.outline r.frames r.next) r₁) : Comes s r r₁

theorem le_of_comes {r r₁ : Reading} (hcomes : Comes s r r₁) : r.next ≤ r₁.next := by
  induction hcomes with
  | refl => exact Nat.le_refl _
  | step hlt _ ih => exact Nat.le_trans (Nat.le_of_lt (lt_next_step _ _ hlt)) ih

/-- Reading that has come no further has not been read on. -/
theorem eq_of_comes {r r₁ : Reading} (hcomes : Comes s r r₁) (hle : r₁.next ≤ r.next) : r₁ = r := by
  cases hcomes with
  | refl => rfl
  | step hlt hcomes =>
    have hnext := lt_next_step r.outline r.frames hlt
    have hle' := le_of_comes hcomes
    omega

theorem readFrom_comes {r r₁ : Reading} (hcomes : Comes s r r₁) :
    readFrom s r.outline r.frames r.next = readFrom s r₁.outline r₁.frames r₁.next := by
  induction hcomes with
  | refl => rfl
  | step hlt _ ih => rw [readFrom_step _ hlt, ih]

include h hl in
/-- **In front of the comment the same is recognised.** -/
theorem comes_alike {r r₁ r' : Reading} (hcomes : Comes s r r₁) (hr : r.Alike k r')
    (hk : r₁.next ≤ k) (hapart : r₁.next = k → MacrosApart s' k r₁.outline)
    (hn : (readFrom s r₁.outline r₁.frames r₁.next).notes = []) :
    ∃ r₁', r₁.Alike k r₁' ∧ readFrom s' r'.outline r'.frames r'.next =
      readFrom s' r₁'.outline r₁'.frames r₁'.next := by
  induction hcomes generalizing r' with
  | refl r => exact ⟨r', hr, rfl⟩
  | @step r r₁ hlt hcomes ih =>
    have hnext := lt_next_step r.outline r.frames hlt
    have hle := le_of_comes hcomes
    have hpast : r'.next = past k r.next := hr.next.eq_past (by omega)
    have hstep : (step s r.outline r.frames r.next).Alike k
        (step s' r'.outline r'.frames (past k r.next)) := by
      refine step_alike h hl hr.outline hr.frames (.behind (by omega) (by omega) fun heq => ?_) ?_
      · -- nothing more is read in front of the comment
        have hlast := eq_of_comes hcomes (by omega)
        rw [hlast] at hapart
        exact hapart heq
      · rw [← readFrom_comes hcomes] at hn
        exact notes_of_readFrom hn
    obtain ⟨r₁', hr₁, hread⟩ := ih hstep hk hapart hn
    refine ⟨r₁', hr₁, ?_⟩
    rw [hpast, readFrom_step _ (h.lt_size_past.2 hlt), hread]

/-- The comment stands where reading has come to by whole steps, or within a declaration that is
read next, for its shape alone. -/
inductive Reads (s s' : Source) (k : Nat) (r : Reading) : Prop
  | between (hnext : r.next = k) (hapart : MacrosApart s' k r.outline)
  | within {j : Nat} (hnext : r.next < k)
      (hover : k < (step s r.outline r.frames r.next).next)
      (hstarts : startsDeclaration s r.next = true) (hlead : LeadsTo s r.next r.outline r.next j)
      (hj : j < k) (hword : ∀ m, j ≤ m → m < k → s.spelling m ≠ "operator")

theorem start_alike (fileName : String) (size size' : Nat) (macros : Macros) :
    (start fileName size macros).Alike (start fileName size' macros) :=
  ⟨by simp [start, Draft.face], rfl, rfl, rfl⟩

include h hl in
/-- **The outline of a text is alike with one comment more**, if nothing is wrong with the text. -/
theorem ofSource_alike (fileName : String) (macros : Macros) {r : Reading}
    (hcomes : Comes s ⟨start fileName s.size macros, [], 0⟩ r) (hreads : Reads s s' k r)
    (hn : (ofSource fileName macros s).notes = []) :
    (ofSource fileName macros s).Alike (ofSource fileName macros s') := by
  have hstart : (Reading.mk (start fileName s.size macros) [] 0).Alike k
      ⟨start fileName s'.size macros, [], 0⟩ :=
    ⟨start_alike .., rfl, .inl (past_of_lt h.pos).symm⟩
  unfold ofSource at hn ⊢
  rw [readFrom_comes hcomes] at hn ⊢
  cases hreads with
  | between hnext hapart =>
    obtain ⟨r', hr, hread⟩ :=
      comes_alike h hl hcomes hstart (Nat.le_of_eq hnext) (fun _ => hapart) hn
    obtain ⟨o₁, ho₁, hread'⟩ := readFrom_abreast h hr.outline hr.next
    rw [hread, hread']
    exact readFrom_alike h hl ho₁ hr.frames (Nat.le_of_eq hnext.symm) hn
  | within hnext hover hstarts hlead hj hword =>
    have hlt : r.next < s.size := Nat.lt_trans hnext h.lt
    obtain ⟨r', hr, hread⟩ := comes_alike h hl hcomes hstart (Nat.le_of_lt hnext)
      (fun heq => absurd heq (Nat.ne_of_lt hnext)) hn
    rw [readFrom_step r.frames hlt] at hn ⊢
    -- one step reads over the comment
    have hstep := step_alike h hl hr.outline hr.frames (.within hnext hstarts hlead hj hword)
      (notes_of_readFrom hn)
    rw [hread, hr.next.eq_past (Nat.ne_of_lt hnext),
      readFrom_step r'.frames (h.lt_size_past.2 hlt), hstep.next.eq_past (Nat.ne_of_gt hover)]
    exact readFrom_alike h hl hstep.outline hstep.frames (Nat.le_of_lt hover) hn

end Outline

end DocIndex
