import DocIndex.Proofs.Comment.Lasting
import DocIndex.Proofs.Index.Cache

/-!
# Saved indexes are restored

An index of which every file can be kept (`Index.Lasting`) is saved wherever a file can be written,
and is loaded as an index that holds the same and answers the same. Whatever is done to an index,
it stays of that kind, as long as only such files are taken in.

* `Lasting.apply`, `lasting_run` — one operation, and any number of them.
* `Lasting.exists_save` — such an index can be saved.
* `query_eq` — indexes with the same tables answer alike.
* `restored_of_saved` — **what is saved is restored.**
-/

namespace DocIndex

open Std (TreeMap TreeSet)

namespace Index

variable {x y : Index} {path : Path} {content : FileComments}

/-! ## What can be kept -/

/-- What each of the files holds can be written down, and comes back as it was. -/
def Lasting (x : Index) : Prop :=
  ∀ e ∈ x.files.toList, e.2.Lasting

theorem lasting_empty : empty.Lasting :=
  nofun

theorem Lasting.congr (hx : x.Lasting) (h : y.files = x.files) : y.Lasting := by
  unfold Lasting at hx ⊢
  rw [h]
  exact hx

theorem Lasting.add (hx : x.Lasting) (hc : content.Lasting) (h : x.add path content = .ok y) :
    y.Lasting := by
  intro e he
  rcases List.mem_cons.1 ((add_toList_perm h).mem_iff.1 he) with rfl | he
  · exact hc
  · exact hx e he

theorem Lasting.remove (hx : x.Lasting) : (x.remove path).1.Lasting := by
  intro e he
  exact hx e (mem_remove.1 he).2

/-! ## What is read from a snapshot -/

theorem lasting_foldl_putFile {entries : List (Path × FileComments)}
    {files : TreeMap Path FileComments} (hf : ∀ e ∈ files.toList, e.2.Lasting)
    (he : ∀ e ∈ entries, e.2.Lasting) :
    ∀ e ∈ (entries.foldl putFile files).toList, e.2.Lasting := by
  induction entries generalizing files with
  | nil => exact hf
  | cons e entries ih =>
    obtain ⟨he, hrest⟩ := List.forall_mem_cons.1 he
    refine ih (fun a ha => ?_) hrest
    rcases Maps.mem_of_mem_insert ha with rfl | ha
    · exact he
    · exact hf a ha

theorem lasting_filesOfJson? {j : Json} {files : TreeMap Path FileComments}
    (h : filesOfJson? j = some files) : ∀ e ∈ files.toList, e.2.Lasting := by
  obtain ⟨entries, hentries, rfl⟩ := Option.map_eq_some_iff.1 h
  refine lasting_foldl_putFile nofun fun e he => ?_
  obtain ⟨e', he', rfl⟩ := List.mem_map.1 he
  unfold Json.map? at hentries
  split at hentries
  · obtain ⟨m, -, hm⟩ := Fallible.exists_of_mapM hentries he'
    obtain ⟨content, hc, rfl⟩ := Option.map_eq_some_iff.1 hm
    exact FileComments.lasting_of_ofJson? hc
  · cases hentries

theorem lasting_ofStored {j : Json} {s : Stored} (hs : Stored.ofJson? j = some s)
    (h : ofStored s = .ok y) : y.Lasting := by
  have hfiles : ∀ e ∈ s.files.toList, e.2.Lasting := by
    obtain ⟨fields, -, hs⟩ := Option.bind_eq_some_iff.1 hs
    split at hs
    · obtain ⟨version, -, hs⟩ := Option.bind_eq_some_iff.1 hs
      obtain ⟨files, hfiles, hs⟩ := Option.bind_eq_some_iff.1 hs
      obtain ⟨references, -, hs⟩ := Option.bind_eq_some_iff.1 hs
      obtain ⟨pending, -, hs⟩ := Option.bind_eq_some_iff.1 hs
      cases hs
      exact lasting_filesOfJson? hfiles
    · cases hs
  obtain ⟨z, hz, h⟩ := Fallible.bind_eq_ok.1 h
  cases h
  intro e he
  have hmem := (addAll_frame hz).1.mem_iff.1 he
  have hnil : empty.files.toList = [] := rfl
  rw [hnil, List.append_nil] at hmem
  exact hfiles e hmem

/-- **Whatever bytes a snapshot is read from, the index that it spells can be kept.** -/
theorem lasting_ofSnapshot {bytes : List UInt8} (h : ofSnapshot bytes = .ok (some y)) :
    y.Lasting := by
  unfold ofSnapshot at h
  split at h
  · cases h
  · rename_i s hs
    split at h
    · obtain ⟨j, -, hj⟩ := Option.bind_eq_some_iff.1 hs
      obtain ⟨z, hz, h⟩ := Fallible.map_eq_ok.1 h
      cases h
      exact lasting_ofStored hj hz
    · cases h

end Index

/-! ## Any number of steps -/

/-- A file that the operation takes in can be kept. -/
def Operation.Lasting : Operation → Prop
  | add _ content => content.Lasting
  | _ => True

namespace Index

/-- **One operation leads to an index that can be kept.** -/
theorem Lasting.apply {x : Index} (hx : x.Lasting) {operation : Operation}
    (ho : operation.Lasting) : (operation.apply x).Lasting := by
  cases operation with
  | add path content =>
    rcases x.apply_add path content with h | h
    · rw [h]
      exact hx
    · exact hx.add ho h
  | remove path => exact hx.remove
  | record document path => exact hx.congr rfl
  | lookup options document context signature =>
    exact hx.congr (x.lookup_frame options document context signature).1
  | forget document => exact hx.congr rfl
  | adopt documents other => exact hx.congr (x.adopt_frame documents other).1
  | defer documents => exact hx.congr rfl
  | release => exact hx.congr rfl
  | restore bytes =>
    rcases x.apply_restore bytes with h | h
    · rw [h]
      exact hx
    · exact lasting_ofSnapshot h

/-- Every index that is reached by taking in such files can be kept. -/
theorem lasting_run {operations : List Operation} (h : ∀ o ∈ operations, o.Lasting) :
    (Operation.run operations).Lasting :=
  Operation.run_induction lasting_empty fun _ o ho hx => hx.apply (h o ho)

/-! ## Saving -/

variable {x y : Index} {d : Disk} {path : Path}

theorem Lasting.storable (hx : x.Lasting) : x.Storable :=
  fun e he => (hx e he).storable

theorem Lasting.fits (hx : x.Lasting) : x.Fits :=
  fun e he => (hx e he).fits

theorem Lasting.exists_snapshot (hx : x.Lasting) : ∃ text, x.snapshot = .ok text := by
  have hfiles : ∃ j, filesJson? x.files = some j := by
    unfold filesJson?
    obtain ⟨members, hm⟩ := Fallible.exists_mapM (f := fun (e : Path × FileComments) =>
      e.2.toJson?.map fun j => (e.1.text, j)) fun e he => by
        obtain ⟨j, hj⟩ := (hx e he).exists_toJson?
        exact ⟨(e.1.text, j), by rw [hj, Option.map_some]⟩
    exact ⟨.object members, by rw [hm, Option.map_some]⟩
  obtain ⟨j, hj⟩ := hfiles
  unfold snapshot toJson?
  rw [hj]
  exact ⟨_, rfl⟩

/-- An index that can be kept can be saved. -/
theorem Lasting.exists_save (hx : x.Lasting) (hd : d.Writable path) (now : Timestamp) :
    ∃ d', x.save d path now = .ok d' := by
  obtain ⟨text, ht⟩ := hx.exists_snapshot
  obtain ⟨d', hw⟩ := hd.write text.toUTF8.toList now
  exact ⟨d', Fallible.bind_eq_ok.2 ⟨text, ht, Fallible.mapError_eq_ok.2 hw⟩⟩

/-! ## Answering alike -/

/-- Indexes with the same tables answer alike. -/
theorem query_eq (h : Maps.table y.buckets = Maps.table x.buckets) (options : QueryOptions)
    (context : DocContext) (signature : String) :
    y.query options context signature = x.query options context signature := by
  have hlist : (y.buckets.getD context ∅).toList = (x.buckets.getD context ∅).toList := by
    have hpart (z : Index) : (z.buckets.getD context ∅).toList =
        (z.buckets[context]?.map TreeMap.toList).getD [] := by
      rw [TreeMap.getD_eq_getD_getElem?]
      cases z.buckets[context]? <;> rfl
    rw [hpart, hpart, Maps.toList_of_table_eq h context]
  have hfind : y.find? context signature = x.find? context signature := by
    have hentry (z : Index) :
        z.find? context signature = (z.buckets.getD context ∅)[signature]? := by
      rw [TreeMap.getD_eq_getD_getElem?, Maps.getElem?_getD_empty]
      rfl
    rw [hentry, hentry]
    exact (TreeMap.equiv_iff_toList_eq.2 hlist).getElem?_eq
  unfold query suggest similarEntries
  rw [hfind, hlist]

/-- An index that holds what another one does has its tables, too. -/
theorem Restores.tables_eq (h : x.Restores y) (hx : x.Coherent) (hy : y.Coherent) :
    Maps.table y.buckets = Maps.table x.buckets ∧ Maps.table y.scopes = Maps.table x.scopes :=
  hy.tables_eq hx fun e => by rw [h.files]

/-- **What is saved is restored.** If only files that can be kept were taken in, the index can be
saved wherever a file can be written. What is loaded then has the same files, references, pending
documents, slots and members, and answers every query alike. A directive that was read is read
again from its name. -/
theorem restored_of_saved {operations : List Operation} (ho : ∀ o ∈ operations, o.Lasting)
    (hd : d.Writable path) (now : Timestamp) :
    let x := Operation.run operations
    ∃ d' y, x.save d path now = .ok d' ∧ load d' path = .ok (some y) ∧
      (y.files.toList = x.files.toList ∧
        referenceTable y.references = referenceTable x.references ∧
          y.pending.toList = x.pending.toList) ∧
      (Maps.table y.buckets = Maps.table x.buckets ∧ Maps.table y.scopes = Maps.table x.scopes) ∧
      (∀ options context signature,
        y.query options context signature = x.query options context signature) ∧
      (∀ scope, (y.members? scope).map TreeMap.toList = (x.members? scope).map TreeMap.toList) ∧
      ∀ s, Directive.parse (Directive.parse s).name = Directive.parse s := by
  intro x
  have hx : x.Lasting := lasting_run ho
  have hc : x.Coherent := coherent_run operations
  obtain ⟨d', hsave⟩ := hx.exists_save hd now
  obtain ⟨y, hload, hy⟩ := (load_of_save hc hx.storable hsave).1 hx.fits
  obtain ⟨hbuckets, hscopes⟩ := hy.tables_eq hc (coherent_load hload)
  exact ⟨d', y, hsave, hload, ⟨hy.files, hy.references, hy.pending⟩, ⟨hbuckets, hscopes⟩,
    query_eq hbuckets, Maps.toList_of_table_eq hscopes, Directive.parse_name_parse⟩

/-- A header with a comment of its own directive. -/
def customHeader : FileComments where
  moduleName := ""
  directiveComments :=
    [⟨⟨Directive.parse " cpp:concept ", "n", ""⟩, "Small", ⟨⟨"n/a.h"⟩, 3, ["/// doc"], none⟩⟩]
  floatingComments := []
  diagnostics := []
  modified := ⟨5, 999999999⟩

/-- A header, and a document that rests on it under another spelling of its path. -/
theorem restored_of_saved_header :
    let x := Operation.run [.add ⟨"n/a.h"⟩ customHeader, .record "guide" ⟨"n//a.h"⟩]
    ∃ d' y, x.save ⟨.directory [], []⟩ ⟨"cache.json"⟩ ⟨9, 0⟩ = .ok d' ∧
      load d' ⟨"cache.json"⟩ = .ok (some y) ∧ y.files.toList = x.files.toList := by
  have ho : ∀ o ∈ [Operation.add ⟨"n/a.h"⟩ customHeader, .record "guide" ⟨"n//a.h"⟩],
      o.Lasting := by
    intro o h
    rcases List.mem_pair.1 h with rfl | rfl
    · refine ⟨fun d hd => ?_, by decide, ⟨by decide, by decide⟩, by decide⟩
      obtain rfl := List.mem_singleton.1 hd
      exact .inl ⟨" cpp:concept ", rfl⟩
    · trivial
  have hd : Disk.Writable ⟨.directory [], []⟩ ⟨"cache.json"⟩ := ⟨[], ⟨0, 0⟩, _, rfl⟩
  obtain ⟨d', y, hsave, hload, hy, -⟩ := restored_of_saved ho hd ⟨9, 0⟩
  exact ⟨d', y, hsave, hload, hy.1⟩

end Index

end DocIndex
