import DocIndex.Proofs.Window.Heads
import DocIndex.Proofs.Window.Outline

/-!
# Statements within a window

Functions, variables, aliases, modules and preprocessor lines are recognised alike in both sources,
if they end within the window. A function or a variable may be qualified by what stands in front of
the window; so it is asked of it that it is not (`Source.QualifiedWithin`).

* `readPlain_moved`, `readSimple_moved` — what is read for its shape.
* `readModule_moved`, `readUsing_moved`, `readTypedefRest_moved` — statements.
* `readDirective_moved` — preprocessor lines.
-/

namespace DocIndex

/-- What qualifies the name of the declaration at `i` is looked for within the window. -/
def Source.QualifiedWithin (w : Window) (s : Source) (macros : Macros) (i : Nat) : Prop :=
  ∀ n ∈ (s.shape macros i).name, w.first ≤ s.qualifierReach (s.nameStart n)

namespace Outline

variable {w : Window} {s s' : Source} (h : s.Agrees w s') {scope : Scope} {o o' : Outline}
  (ho : o.Matches w o') {start start' i : Nat} {templated : Bool}

open Source

/-! ## Functions and variables -/

/-- Reads on behind the shape of a function or a variable. -/
def declarePlain (s : Source) (scope : Scope) (o : Outline) (start : Nat) (templated : Bool)
    (d : Shape) : Outline :=
  match d.name with
  | none => o.add .unexposedDecl "" start d.stop scope.parent
  | some nameAt =>
    let resolved := o.resolve scope.path (s.qualifierOf nameAt)
    let parent := resolved.getD scope.parent
    let record := o.recordOf scope resolved
    if d.isFunction then
      let name := d.operator.getD (s.spelling nameAt)
      o.add (functionKind d record templated name) (if d.isDestructor then "~" ++ name else name)
        start d.stop parent
    else
      o.add (if record.isSome && resolved.isNone && !d.isStatic then .fieldDecl else .varDecl)
        (s.spelling nameAt) start d.stop parent

theorem readPlain_eq :
    o.readPlain s scope start i templated =
      ((o.note (s.shape o.macros i).notes).declarePlain s scope start templated
        (s.shape o.macros i)).done ((s.shape o.macros i).stop + 1) := by
  simp only [readPlain, declarePlain]
  cases (s.shape o.macros i).name <;> rfl

include ho in
/-- A function or a variable is declared alike if it has the same name, the same shape, and is
qualified alike. -/
theorem declarePlain_matches {d d' : Shape} (hstart : w.Same start start')
    (hstop : w.Same d.stop d'.stop)
    (hshape : d' = { d with stop := d'.stop, name := d'.name, notes := d'.notes })
    (hname : d'.name.map s'.spelling = d.name.map s.spelling)
    (hqualifier : d'.name.map s'.qualifierOf = d.name.map s.qualifierOf) :
    (o.declarePlain s scope start templated d).Matches w
      (o'.declarePlain s' scope start' templated d') := by
  rw [hshape]
  generalize d'.name = name' at hname hqualifier
  generalize d'.stop = stop' at hstop
  unfold declarePlain
  cases hn : d.name with
  | none =>
    rw [hn, Option.map_none, Option.map_eq_none_iff] at hname
    subst hname
    exact ho.add _ _ _ hstart hstop
  | some n =>
    rw [hn, Option.map_some, Option.map_eq_some_iff] at hname hqualifier
    obtain ⟨n', rfl, hspelling⟩ := hname
    obtain ⟨_, hn', hqualifier⟩ := hqualifier
    cases hn'
    simp only [hspelling, hqualifier, ho.resolve, ho.recordOf]
    split
    · exact ho.add _ _ _ hstart hstop
    · exact ho.add _ _ _ hstart hstop

include h ho in
/-- **Functions and variables are recognised alike.** -/
theorem readPlain_moved (hi : w.Behind i) (hin : i ≤ s.size) (hstart : w.Same start start')
    (hs : w.Seen ((o.readPlain s scope start i templated).next + 1))
    (hqualified : s.QualifiedWithin w o.macros i) :
    (o.readPlain s scope start i templated).Matches w
      (o'.readPlain s' scope start' (w.moved i) templated) := by
  rw [readPlain_eq] at hs
  have hstop : w.Seen ((s.shape o.macros i).stop + 1) := w.seen_of_le hs (Nat.le_succ _)
  obtain ⟨hshape, hname⟩ := h.shape_moved hi hin hstop
  rw [readPlain_eq, readPlain_eq, ho.macros, hshape]
  refine Matches.done (declarePlain_matches (ho.note _ _) hstart (Window.same_moved _) rfl ?_ ?_)
    (Window.moved_succ (h.first_le_stop_shape hi.le)).symm
  all_goals
    simp only [Shape.map, Option.map_map]
    refine Option.map_congr fun n hn => ?_
    obtain ⟨hfirst, hlt⟩ := hname n hn
    have hseen := w.seen_of_le hstop (Nat.le_of_lt hlt)
  · exact h.spelling hfirst hseen
  · exact h.qualifierOf_moved hseen (hqualified n hn)

include h ho in
theorem readSimple_moved {kind : CursorKind} (hi : w.first ≤ i) (hin : i < s.size)
    (hstart : w.Same start start')
    (hs : w.Seen ((o.readSimple s scope kind start i).next + 1)) :
    (o.readSimple s scope kind start i).Matches w
      (o'.readSimple s' scope kind start' (w.moved i)) := by
  have hstop : w.Seen ((s.shape o.macros (i + 1)).stop + 1) := w.seen_of_le hs (Nat.le_succ _)
  obtain ⟨hshape, hname⟩ := h.shape_moved (Window.behind_succ hi) hin hstop
  have hspelling : ((s.shape o.macros (i + 1)).map w.moved).name.map s'.spelling =
      (s.shape o.macros (i + 1)).name.map s.spelling := by
    simp only [Shape.map, Option.map_map]
    refine Option.map_congr fun n hn => ?_
    obtain ⟨hfirst, hlt⟩ := hname n hn
    exact h.spelling hfirst (w.seen_of_le hstop (Nat.le_of_lt hlt))
  simp only [readSimple, ho.macros, ← Window.moved_succ hi, hshape, hspelling]
  exact Matches.done ((ho.note _ _).add _ _ _ hstart (Window.same_moved _))
    (Window.moved_succ (h.first_le_stop_shape (Nat.le_succ_of_le hi))).symm

/-! ## Modules, aliases and type definitions -/

include h in
theorem concatFrom_moved {n : Nat} (hi : w.first ≤ i) (hs : w.Seen (i + n)) :
    s'.concatFrom (w.moved i) n = s.concatFrom i n := by
  induction n generalizing i with
  | zero => rfl
  | succ n ih =>
    rw [concatFrom, concatFrom, h.spelling hi (w.seen_of_le hs (Nat.le_add_right i _)),
      ← Window.moved_succ hi, ih (Nat.le_succ_of_le hi) (w.seen_of_le hs (by omega))]

include h ho in
theorem readModule_moved (hi : w.first ≤ i) (hin : i < s.size) (hstart : w.Same start start')
    (hs : w.Seen ((o.readModule s scope start i).next + 1)) :
    (o.readModule s scope start i).Matches w (o'.readModule s' scope start' (w.moved i)) := by
  have hbehind : w.Behind (i + 1) := Window.behind_succ hi
  have hend : w.Seen ((s.statementEnd (i + 1)).index + 1) := w.seen_of_le hs (Nat.le_succ _)
  have hfirst := h.first_le_statementEnd hbehind
  have hle := le_succ_statementEnd (s := s) (i := i + 1) hin
  have hname : s'.concatFrom (w.moved (i + 1))
        (w.moved (s.statementEnd (i + 1)).index - w.moved (i + 1)) =
      s.concatFrom (i + 1) ((s.statementEnd (i + 1)).index - (i + 1)) := by
    rw [Window.moved_sub hfirst hbehind.le]
    exact concatFrom_moved h hbehind.le (w.seen_of_le hend (by omega))
  simp only [readModule, ← Window.moved_succ hi, h.statementEnd_moved hbehind hend, hname,
    h.spelling hi (w.seen_of_le hend (by omega))]
  refine Matches.done ?_ (Window.moved_succ hfirst).symm
  split
  · exact ((ho.note _ _).nameModule _).add _ _ _ hstart (Window.same_moved _)
  · exact (ho.note _ _).add _ _ _ hstart (Window.same_moved _)

include h ho in
theorem readUsing_moved (hi : w.Behind i) (hin : i < s.size) (hstart : w.Same start start')
    (hs : w.Seen ((o.readUsing s scope start i templated).next + 1)) :
    (o.readUsing s scope start i templated).Matches w
      (o'.readUsing s' scope start' (w.moved i) templated) := by
  have hbehind : w.Behind (i + 1) := Window.behind_succ hi.le
  replace hs : w.Seen ((s.statementEnd (i + 1)).index + 1 + 1) := hs
  have hend : w.Seen ((s.statementEnd (i + 1)).index + 1) := w.seen_of_le hs (Nat.le_succ _)
  have hle := le_succ_statementEnd (s := s) (i := i + 1) hin
  have hnext : w.Seen (i + 1) := w.seen_of_le hend hle
  have hlast : w.Behind (s.statementEnd (i + 1)).index :=
    hi.mono (le_statementEnd hin (Nat.lt_succ_self i))
  -- the `=` of an alias is looked for behind its name only
  have halias : (s'.isIdentifier (w.moved (i + 1)) &&
        s'.is (s'.skipDecorations o.macros (w.moved (i + 2))).index "=") =
      (s.isIdentifier (i + 1) && s.is (s.skipDecorations o.macros (i + 2)).index "=") := by
    rw [h.isIdentifier_moved hbehind.le hnext]
    cases hname : s.isIdentifier (i + 1) with
    | false => rfl
    | true =>
      have hlt := lt_size_of_isIdentifier hname
      have hsucc := statementEnd_succ hlt fun word hword =>
        h.spelling_ne_of_isIdentifier hname (isWordStart_statementMarks word hword)
      have hskip := skipDecorations_le_succ_statementEnd h o.macros hlt
      rw [← hsucc] at hskip
      have hge := le_skipDecorations (s := s) o.macros (i + 2)
      have hseen := w.seen_of_le hs (Nat.succ_le_succ hskip)
      rw [h.skipDecorations_moved (Nat.le_succ_of_le hbehind.le) hlt hseen,
        h.is_moved (Nat.le_trans (Nat.le_succ_of_le hbehind.le) hge)
          (w.seen_of_le hseen (Nat.le_succ _))]
  simp only [readUsing, ← Window.moved_add hi.le, h.statementEnd_moved hbehind hend,
    ← Window.moved_pred hlast, ho.macros, halias, h.is_moved hbehind.le hnext,
    h.spelling hbehind.le hnext,
    h.spelling hlast.le_pred (w.seen_of_le hend (Nat.le_succ_of_le (Nat.sub_le _ 1)))]
  refine Matches.done ?_ (Window.moved_succ hlast.le).symm
  split
  · exact (ho.note _ _).add _ _ _ hstart (Window.same_moved _)
  split
  · exact (ho.note _ _).add _ _ _ hstart (Window.same_moved _)
  · exact (ho.note _ _).add _ _ _ hstart (Window.same_moved _)

include h ho in
theorem readTypedefRest_moved (scope : Scope) (hi : w.Behind i) (hseen : w.Seen i)
    (hstart : w.Same start start')
    (hs : w.Seen ((o.readTypedefRest s scope start i).next + 1)) :
    (o.readTypedefRest s scope start i).Matches w
      (o'.readTypedefRest s' scope start' (w.moved i)) := by
  have hend : w.Seen ((s.statementEnd i).index + 1) := w.seen_of_le hs (Nat.le_succ _)
  have hfirst := h.first_le_statementEnd hi
  have hmax : w.Seen (max i (s.statementEnd i).index) := by
    rcases Nat.le_total i (s.statementEnd i).index with hle | hle
    · rw [Nat.max_eq_right hle]
      exact w.seen_of_le hend (Nat.le_succ _)
    · rwa [Nat.max_eq_left hle]
  have hname : (s'.declaredName? (w.moved i) (w.moved (s.statementEnd i).index)).map s'.spelling =
      (s.declaredName? i (s.statementEnd i).index).map s.spelling := by
    rw [h.declaredName?_moved hi.le hfirst hmax, Option.map_map]
    refine Option.map_congr fun n hn => ?_
    obtain ⟨hle, hlt, -⟩ := mem_declaredName? hn
    exact h.spelling (Nat.le_trans hi.le hle) (w.seen_of_le hend (by omega))
  simp only [readTypedefRest, h.statementEnd_moved hi hend, hname]
  exact Matches.done ((ho.note _ _).add _ _ _ hstart (Window.same_moved _))
    (Window.moved_succ hfirst).symm

/-! ## Preprocessor lines -/

include h ho in
/-- **A preprocessor line says the same.** -/
theorem readDirective_moved {hash : Nat} (hi : w.first ≤ hash) (hhash : s.is hash "#" = true)
    (hs : w.Seen (s.lineEnd hash + 2)) :
    (o.readDirective s hash).Matches w (o'.readDirective s' (w.moved hash)) := by
  have hlines := h.lines_of_hash hhash
  have hle := le_lineEnd (s := s) hash
  have hcode := s.lastCode_le hle
  have hlast : s'.lastCode (w.moved hash) (s'.lineEnd (w.moved hash)) =
      w.moved (s.lastCode hash (s.lineEnd hash)) := by
    rw [h.lineEnd_moved hlines hi (w.seen_of_le hs (by omega)),
      h.lastCode_moved hi hle (w.seen_of_le hs (by omega))]
  have hspelling (n : Nat) (hn : n ≤ 2) :
      s'.spelling (w.moved hash + n) = s.spelling (hash + n) := by
    rw [← Window.moved_add hi, h.spelling (Nat.le_add_right_of_le hi) (w.seen_of_le hs (by omega))]
  have hdeclare := ho.declare .preprocessingDirective (s.spelling (hash + 1)) 0
    (Window.same_moved hash) (Window.same_moved (s.lastCode hash (s.lineEnd hash)))
  have hid := ho.declare_id .preprocessingDirective (s.spelling (hash + 1)) hash (w.moved hash)
    (s.lastCode hash (s.lineEnd hash)) (w.moved (s.lastCode hash (s.lineEnd hash))) 0
  simp only [readDirective, hlast, hspelling 1 (by omega), hspelling 2 (by omega), hid]
  generalize s.lastCode hash (s.lineEnd hash) = last at *
  have hlt : w.moved hash + 1 < w.moved last ↔ hash + 1 < last := by
    rw [← Window.moved_succ hi, Window.moved_lt_moved (by omega) (by omega)]
  simp only [hlt]
  split
  · rename_i hdefine
    simp only [Bool.and_eq_true, decide_eq_true_eq] at hdefine
    have hparameters : (s'.is (w.moved (hash + 3)) "(" && s'.touchesNext (w.moved (hash + 2))) =
        (s.is (hash + 3) "(" && s.touchesNext (hash + 2)) := by
      rw [h.is_moved (by omega) (w.seen_of_le hs (by omega)),
        h.touches (by omega) (w.seen_of_le hs (by omega))]
    simp only [← Window.moved_add hi, hparameters]
    exact ((hdeclare.define hlines _ _).claim _ (Window.same_moved _) (Window.same_moved _)).add _
      _ _ (Window.same_moved _) (Window.same_moved _)
  split
  · exact (hdeclare.undefine hlines _).claim _ (Window.same_moved _) (Window.same_moved _)
  · exact hdeclare.claim _ (Window.same_moved _) (Window.same_moved _)

end Outline

end DocIndex
