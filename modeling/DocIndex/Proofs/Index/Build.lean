import DocIndex.Proofs.Index.Coherent

/-!
# Building an index from files

Files are taken in one after another. Whether that succeeds does not depend on the order: no path
may occur twice, and no two comments may document one thing.

* `exists_add_iff`, `exists_addAll_iff` — when one file, or a list of files, can be taken in.
* `add_frame`, `addAll_frame` — what an index holds behind that.
* `Coherent.tables_eq` — **indexes of the same files have the same slots and members.**
-/

namespace DocIndex

open Std (TreeMap)

namespace Index

variable {x y : Index} {path : Path} {content : FileComments} {ds : List DirectiveComment}

/-- The comments that files hold for declarations. -/
def entriesOf (files : List (Path × FileComments)) : List DirectiveComment :=
  files.flatMap fun e => e.2.directiveComments

/-! ## One file -/

theorem add_frame (h : x.add path content = .ok y) :
    x.files[path]? = none ∧ y.files = x.files.insert path content ∧
      y.references = x.references ∧ y.pending = x.pending := by
  unfold Index.add at h
  split at h
  · cases h
  · rename_i hnot
    obtain ⟨z, hi, h⟩ := Fallible.bind_eq_ok.1 h
    obtain ⟨hf, hr, hp⟩ := insertAll_frame hi
    cases h
    exact ⟨TreeMap.getElem?_eq_none hnot, by rw [hf], hr, hp⟩

theorem add_toList_perm (h : x.add path content = .ok y) :
    y.files.toList.Perm ((path, content) :: x.files.toList) := by
  obtain ⟨hnone, hf, -⟩ := add_frame h
  rw [hf]
  exact Maps.toList_insert_perm hnone

/-- A file can be taken in exactly if it is not there, and nothing that it documents is documented
elsewhere or twice. -/
theorem exists_add_iff (hx : x.Coherent) :
    (∃ y, x.add path content = .ok y) ↔
      x.files[path]? = none ∧
        ((content.directiveComments ++ x.entries).map DirectiveComment.slot).Nodup := by
  rw [← Holds.exists_insertAll_iff hx]
  constructor
  · rintro ⟨y, h⟩
    refine ⟨(add_frame h).1, ?_⟩
    unfold Index.add at h
    split at h
    · cases h
    · obtain ⟨z, hi, -⟩ := Fallible.bind_eq_ok.1 h
      exact ⟨z, hi⟩
  · rintro ⟨hnone, z, hz⟩
    have hnot : ¬x.files.contains path = true := by
      rw [TreeMap.contains_eq_isSome_getElem?, hnone]
      exact Bool.false_ne_true
    unfold Index.add
    rw [if_neg hnot, hz]
    exact ⟨_, rfl⟩

/-! ## A list of files -/

variable {files : List (Path × FileComments)}

theorem addAll_frame (h : x.addAll files = .ok y) :
    y.files.toList.Perm (files ++ x.files.toList) ∧ y.references = x.references ∧
      y.pending = x.pending := by
  unfold addAll at h
  induction files generalizing x with
  | nil =>
    cases h
    exact ⟨.refl _, rfl, rfl⟩
  | cons e files ih =>
    obtain ⟨z, ha, h⟩ := Fallible.foldlM_cons_eq_ok.1 h
    obtain ⟨-, -, hr, hp⟩ := add_frame ha
    obtain ⟨hf', hr', hp'⟩ := ih h
    refine ⟨?_, hr'.trans hr, hp'.trans hp⟩
    exact hf'.trans (((add_toList_perm ha).append_left files).trans List.perm_middle)

/-- The paths of a list of files, none of which names the same file as another one. -/
def DistinctPaths (files : List (Path × FileComments)) : Prop :=
  files.Pairwise fun a b => ¬compare a.1 b.1 = .eq

theorem distinctPaths_toList (x : Index) : DistinctPaths x.files.toList :=
  x.files.distinct_keys_toList

theorem DistinctPaths.perm {files files' : List (Path × FileComments)} (h : DistinctPaths files)
    (hp : files.Perm files') : DistinctPaths files' :=
  List.Pairwise.perm h hp fun hne he => hne (Std.OrientedCmp.eq_symm he)

theorem DistinctPaths.nodup (h : DistinctPaths files) : files.Nodup := by
  refine List.Pairwise.imp (fun {a b} hne => ?_) h
  rintro rfl
  exact hne Std.ReflCmp.compare_self

/-- **A list of files can be taken in exactly if no path occurs twice and no two comments document
one thing**, the files that are there included. -/
theorem exists_addAll_iff (hx : x.Coherent) :
    (∃ y, x.addAll files = .ok y) ↔
      DistinctPaths (files ++ x.files.toList) ∧
        ((entriesOf (files ++ x.files.toList)).map DirectiveComment.slot).Nodup := by
  induction files generalizing x with
  | nil => exact ⟨fun _ => ⟨distinctPaths_toList x, hx.distinct⟩, fun _ => ⟨x, rfl⟩⟩
  | cons e files ih =>
    obtain ⟨path, content⟩ := e
    have hmiddle : ((path, content) :: files ++ x.files.toList).Perm
        (files ++ (path, content) :: x.files.toList) := List.perm_middle.symm
    constructor
    · rintro ⟨y, h⟩
      obtain ⟨z, ha, h⟩ := Fallible.foldlM_cons_eq_ok.1 h
      obtain ⟨hpaths, hslots⟩ := (ih (hx.add ha)).1 ⟨y, h⟩
      have hperm := ((add_toList_perm ha).append_left files).trans hmiddle.symm
      exact ⟨hpaths.perm hperm, ((perm_entries hperm).map _).nodup_iff.1 hslots⟩
    · rintro ⟨hpaths, hslots⟩
      have hnone : x.files[path]? = none := by
        rw [List.cons_append, DistinctPaths, List.pairwise_cons] at hpaths
        exact Maps.getElem?_eq_none_iff.2 fun e he => hpaths.1 e (List.mem_append_right _ he)
      have hslots' : ((content.directiveComments ++ x.entries).map
          DirectiveComment.slot).Nodup := by
        refine hslots.sublist (List.Sublist.map _ ?_)
        rw [entriesOf, List.cons_append, List.flatMap_cons, List.flatMap_append]
        exact (List.Sublist.refl _).append (List.sublist_append_right _ _)
      obtain ⟨z, hz⟩ := (exists_add_iff hx).2 ⟨hnone, hslots'⟩
      have hperm := ((add_toList_perm hz).append_left files).trans hmiddle.symm
      obtain ⟨y, hy⟩ := (ih (hx.add hz)).2
        ⟨hpaths.perm hperm.symm, ((perm_entries hperm).map _).nodup_iff.2 hslots⟩
      exact ⟨y, Fallible.foldlM_cons_eq_ok.2 ⟨z, hz, hy⟩⟩

/-! ## The same files, the same answers -/

/-- Indexes that hold the same comments find the same ones. -/
theorem Holds.find?_eq {cs : List DirectiveComment} (hx : x.Holds ds) (hy : y.Holds cs)
    (h : ∀ d, d ∈ ds ↔ d ∈ cs) (context : DocContext) (signature : String) :
    x.find? context signature = y.find? context signature := by
  refine Option.ext fun c => ?_
  rw [hx.find, hy.find, h]

/-- **Indexes of the same files have the same slots and the same members.** -/
theorem Coherent.tables_eq (hx : x.Coherent) (hy : y.Coherent)
    (h : ∀ e, e ∈ x.files.toList ↔ e ∈ y.files.toList) :
    Maps.table x.buckets = Maps.table y.buckets ∧ Maps.table x.scopes = Maps.table y.scopes := by
  have hentries : ∀ d, d ∈ x.entries ↔ d ∈ y.entries := fun d => by
    simp only [entries, List.mem_flatMap, h]
  have hfind := Holds.find?_eq hx hy hentries
  refine ⟨Maps.table_eq hx.buckets_filled hy.buckets_filled hfind,
    Maps.table_eq hx.scopes_filled hy.scopes_filled fun scope m => ?_⟩
  exact ((hx.mirror scope m).trans (hfind _ _)).trans (hy.mirror scope m).symm

end Index

end DocIndex
