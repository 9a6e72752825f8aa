import DocIndex.Proofs.Ahead.Declaration
import DocIndex.Proofs.Scopes.Resolved

/-!
# Reading behind some lexemes

Step by step, a text is read as it is alone. What stands ahead is asked about in three places: by a
function without a name at the beginning of the text, by a `using` line that ends where it begins,
and by a qualifier that is followed back to the beginning (`Source.LooksAhead`).

* `Reading.Ahead` — the same has been recognised, behind the lexemes and the cursors ahead.
* `Outline.step_ahead` — one step.
* `Outline.readFrom_ahead` — **all steps to the end of the text.**
-/

namespace DocIndex

/-- Two readings have recognised the same, the second one behind `k` lexemes and the cursors
`front`. -/
structure Reading.Ahead (k : Nat) (front : List Face) (r r' : Reading) : Prop where
  outline : r.outline.Ahead k front r'.outline
  frames : r'.frames = r.frames.map (Frame.behind k front.length)
  next : r'.next = k + r.next

theorem Lead.macros_ownWords {s : Source} {start : Nat} (l : Lead) :
    (l.ownWords s start).outline.macros = l.outline.macros := by
  fun_induction Lead.ownWords s start l with
  | case1 l l' hnext ih =>
    obtain ⟨-, -, ⟨-, -, -, rfl⟩ | ⟨-, ⟨-, rfl⟩ | ⟨-, rfl⟩⟩⟩ := Lead.next?_cases hnext <;> exact ih
  | case2 l hnext => rfl

theorem Reading.macros_lead (s : Source) (r : Reading) :
    (r.lead s).outline.macros = r.outline.macros :=
  Lead.macros_ownWords _

namespace Outline

variable {k : Nat} {front : List Face} {s s' : Source} (h : s.Ahead k s') {o o' : Outline}
  (ho : o.Ahead k front o') {r r' : Reading}

open Source

/-! ## Closing scopes -/

theorem scopeOf_behind (frames : List Frame) :
    scopeOf (frames.map (Frame.behind k front.length)) = (scopeOf frames).behind front.length := by
  cases frames <;> rfl

include ho in
theorem reachTo_all_ahead (ids : List CursorId) (last last' : Nat) :
    (ids.foldl (fun o id => o.reachTo id last) o).Ahead k front
      ((ids.map (CursorId.behind front.length)).foldl (fun o id => o.reachTo id last') o') := by
  induction ids generalizing o o' with
  | nil => exact ho
  | cons id ids ih => exact ih (ho.reachTo ..)

include h ho in
/-- **A scope is closed alike.** -/
theorem close_ahead (around : Scope) (closing : Closing) {after : Nat} (hpos : 0 < after) :
    (close s around closing o after).1.Ahead k front
        (close s' (around.behind front.length) (closing.behind k front.length) o' (k + after)).1 ∧
      (close s' (around.behind front.length) (closing.behind k front.length) o' (k + after)).2 =
        k + (close s around closing o after).2 := by
  have hpred : k + after - 1 = k + (after - 1) := Nat.add_sub_assoc hpos k
  cases closing with
  | linkage id start => exact ⟨ho.reachTo .., rfl⟩
  | namespaces ids start => exact ⟨reachTo_all_ahead ho .., rfl⟩
  | record id start =>
    simp only [close, Closing.behind, h.declaratorsEnd_ahead hpos, Nat.add_min_add_left]
    exact ⟨((ho.note _ _).claim _ _ _).reachTo .., rfl⟩
  | typedefRecord id start outer =>
    have hclaim := (ho.claim (min after (after - 1)) (after - 1) id).reachTo id
      (.behind front.length id) (max (after - 1) start) (max (k + (after - 1)) (k + start))
    have hrest := readTypedefRest_ahead h hclaim around outer (Nat.succ_pos (after - 1))
    simp only [close, Closing.behind, hpred, Nat.add_min_add_left, Nat.add_assoc]
    exact ⟨hrest.outline, hrest.next⟩

theorem pos_next_close {around : Scope} {closing : Closing} {after : Nat} (hpos : 0 < after) :
    0 < (close s around closing o after).2 := by
  cases closing with
  | linkage | namespaces => exact hpos
  | record | typedefRecord => exact Nat.succ_pos _

include h ho in
/-- The scopes that are still open at the end are closed alike. -/
theorem closeAll_ahead (frames : List Frame) {i : Nat} (hpos : 0 < i) :
    (closeAll s frames o i).Ahead k front
      (closeAll s' (frames.map (Frame.behind k front.length)) o' (k + i)) := by
  induction frames generalizing o o' i with
  | nil => exact ho
  | cons f around ih =>
    obtain ⟨hclose, hnext⟩ := close_ahead h
      (ho.note [⟨i, .noClosingBrace⟩] [⟨k + i, .noClosingBrace⟩]) (scopeOf around) f.closing hpos
    simp only [List.map_cons, closeAll, scopeOf_behind]
    simp only [Frame.behind, hnext]
    exact ih hclose (pos_next_close hpos)

/-! ## Steps -/

include h in
theorem startsDeclaration_ahead (i : Nat) :
    startsDeclaration s' (k + i) = startsDeclaration s i := by
  rw [startsDeclaration, startsDeclaration, h.isComment_ahead, h.startsLine_ahead, h.is_ahead,
    h.is_ahead]

include h in
/-- A declaration is read in a step. -/
theorem stepDeclaration_ahead (hr : r.Ahead k front r')
    (hstarts : startsDeclaration s r.next = true) (hapart : (r.lead s).Apart k s s' r.next) :
    (step s r.outline r.frames r.next).Ahead k front
      (step s' r'.outline r'.frames r'.next) := by
  have hstarts' : startsDeclaration s' r'.next = true := by
    rw [hr.next, startsDeclaration_ahead h, hstarts]
  have hcode : s.isComment r.next = false := by
    simp only [startsDeclaration, Bool.and_eq_true, Bool.not_eq_true'] at hstarts
    exact hstarts.1.1.1
  have hlead : (r.lead s).Ahead k front (r'.lead s') := by
    rw [Reading.lead, Reading.lead, hr.next]
    exact Lead.ownWords_ahead h ⟨hr.outline, rfl, rfl⟩
  have hread : ((r.lead s).read s (scopeOf r.frames) r.next).Ahead k front
      ((r'.lead s').read s' ((scopeOf r.frames).behind front.length) (k + r.next)) :=
    Lead.read_ahead h hlead Lead.next?_ownWords hcode (r.le_lead s) hapart
  rw [step_lead hstarts, step_lead hstarts', hr.frames, scopeOf_behind, hr.next]
  refine ⟨hread.outline, ?_, hread.next⟩
  rw [hread.opened]
  cases ((r.lead s).read s (scopeOf r.frames) r.next).opened <;> rfl

include h in
/-- **One step recognises the same**, if a declaration that is read does not ask for what stands
ahead of the text. -/
theorem step_ahead (hr : r.Ahead k front r')
    (hapart : startsDeclaration s r.next = true → (r.lead s).Apart k s s' r.next) :
    (step s r.outline r.frames r.next).Ahead k front
      (step s' r'.outline r'.frames r'.next) := by
  have hclaim (id : CursorId) := hr.outline.claim r.next r.next id
  cases hstarts : startsDeclaration s r.next with
  | true => exact stepDeclaration_ahead h hr hstarts (hapart hstarts)
  | false =>
    simp only [startsDeclaration, Bool.and_eq_false_iff, Bool.not_eq_false'] at hstarts
    unfold step
    rw [hr.next, hr.frames]
    simp only [scopeOf_behind]
    rw [h.startsLine_ahead, h.isComment_ahead, h.is_ahead, h.is_ahead]
    -- a comment, a preprocessor line, a closing brace or a semicolon
    split
    · exact ⟨hclaim _, rfl, rfl⟩
    rename_i hcomment
    split
    · refine ⟨readDirective_ahead h hr.outline r.next, rfl, ?_⟩
      rw [h.lineEnd_ahead]
      rfl
    rename_i hline
    split
    · cases hf : r.frames with
      | nil => exact ⟨hr.outline.note _ _, rfl, rfl⟩
      | cons f around =>
        obtain ⟨hclose, hnext⟩ := close_ahead h (hclaim (scopeOf (f :: around)).owner)
          (scopeOf around) f.closing (Nat.succ_pos r.next)
        simp only [List.map_cons, scopeOf_behind]
        exact ⟨hclose, rfl, hnext⟩
    rename_i hbrace
    split
    · exact ⟨hclaim _, rfl, rfl⟩
    · rename_i hsemi
      simp_all

/-! ## What stands ahead -/

/-- What has been read stands in front of what is read next, or the same macros are known. -/
theorem nameless_step (hlt : r.next < s.size) (hname : Nameless k s s' r.outline.macros r.next) :
    Nameless k s s' (step s r.outline r.frames r.next).outline.macros
      (step s r.outline r.frames r.next).next := by
  have hnext := lt_next_step r.outline r.frames hlt
  cases hcomment : s.isComment r.next with
  | false => exact .of_code hcomment hnext
  | true =>
    have hmacros : (step s r.outline r.frames r.next).outline.macros = r.outline.macros := by
      unfold step
      simp only [hcomment, if_true]
      rfl
    rw [hmacros]
    exact hname.mono (Nat.le_of_lt hnext)

/-- A declaration whose scopes are not looked for ahead of the text does not ask for what stands
there, if that names no function. -/
theorem apart_lead (hlt : r.next < s.size) (hstarts : startsDeclaration s r.next = true)
    (hname : Nameless k s s' r.outline.macros r.next)
    (husing : s.is 0 "using" = true → (s.statementEnd 1).index ≠ 0)
    (hlook : r.outline.scopes ≠ [] → ∀ n ∈ r.named? s, ¬ s.LooksAhead n) :
    (r.lead s).Apart k s s' r.next := by
  refine ⟨fun j hj => ⟨?_, fun hscopes n hn => ?_⟩, husing⟩
  · rw [r.macros_lead s]
    exact hname.mono (Nat.le_trans (r.le_lead s) (Lead.le_of_plainAt? hj))
  · rw [(silent_lead s r).scopes] at hscopes
    exact hlook hscopes n (named?_eq_some.2 ⟨⟨hlt, hstarts⟩, j, hj, hn⟩)

/-! ## Readings -/

include h in
/-- **Up to where reading comes to, the same is recognised.** -/
theorem comes_ahead {r₁ : Reading} (hcomes : Comes s r r₁) (hr : r.Ahead k front r')
    (hname : Nameless k s s' r.outline.macros r.next)
    (husing : s.is 0 "using" = true → (s.statementEnd 1).index ≠ 0)
    (hlook : ∀ r₂, Comes s r r₂ → r₂.outline.scopes ≠ [] → ∀ n ∈ r₂.named? s, ¬ s.LooksAhead n) :
    ∃ r₁', r₁.Ahead k front r₁' ∧ Comes s' r' r₁' := by
  induction hcomes generalizing r' with
  | refl r => exact ⟨r', hr, .refl r'⟩
  | @step r r₁ hlt hcomes ih =>
    have hstep := step_ahead h hr fun hstarts =>
      apart_lead hlt hstarts hname husing (hlook r (.refl r))
    obtain ⟨r₁', hr₁, hcomes'⟩ := ih hstep (nameless_step hlt hname) fun r₂ hto =>
      hlook r₂ (.step hlt hto)
    refine ⟨r₁', hr₁, .step ?_ hcomes'⟩
    rw [hr.next]
    exact h.lt_size.2 hlt

include h in
/-- **To the end of the text the same is recognised.** -/
theorem readFrom_ahead (hr : r.Ahead k front r')
    (hname : Nameless k s s' r.outline.macros r.next)
    (husing : s.is 0 "using" = true → (s.statementEnd 1).index ≠ 0)
    (hlook : ∀ r₂, Comes s r r₂ → r₂.outline.scopes ≠ [] → ∀ n ∈ r₂.named? s, ¬ s.LooksAhead n) :
    (readFrom s r.outline r.frames r.next).Ahead k front
      (readFrom s' r'.outline r'.frames r'.next) := by
  obtain ⟨r₁, hcomes, hend, hread⟩ := exists_comes (s := s) r
  obtain ⟨r₁', hr₁, hcomes'⟩ := comes_ahead h hcomes hr hname husing hlook
  have hend' : ¬ r₁'.next < s'.size := by
    rw [hr₁.next, h.lt_size]
    exact Nat.not_lt_of_le hend
  rw [hread, readFrom_comes hcomes', readFrom, if_neg hend', hr₁.next, hr₁.frames]
  exact closeAll_ahead h hr₁.outline r₁.frames (Nat.lt_of_lt_of_le h.pos hend)

end Outline

end DocIndex
