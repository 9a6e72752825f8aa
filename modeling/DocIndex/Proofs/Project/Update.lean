import DocIndex.Project.Update
import DocIndex.Proofs.Comment.Scanned
import DocIndex.Proofs.Index.Build
import DocIndex.Proofs.Index.Rebuild

/-!
# What an update does

An update first drops the stale files, then takes in what is missing. An index `Agrees` with a disk
if every indexed file that would be kept scans to what the index holds; on such an index, an update
is as good as building the index anew.

* `mem_dropStale` — what is left of the files behind the first part.
* `addScans_spec` — the second part takes in the scans of missing files, up to one that fails.
* `refreshed_of_ok`, `refreshed_of_error` — both parts, as the result of the update tells them.
* `update_ok_iff` — **whether an update succeeds does not depend on the index.**
* `mem_files_of_update` — **what is indexed behind an update that succeeds.**
-/

namespace DocIndex

open Std (TreeMap TreeSet)

/-- What a file of a project scans to. -/
def Config.scanAt (c : Config) (root : Path) (d : Disk) (path : Path) : Except Error FileComments :=
  (d.scan path (c.argsAt root path) c.scan).result

namespace Index

variable {x y : Index} {d : Disk} {path : Path} {content : FileComments}

/-! ## Dropping files -/

/-- The files that are left when some are dropped. -/
def discardAll (x : Index) (paths : List Path) : Index :=
  paths.foldl discard x

theorem mem_discardAll {paths : List Path} {e : Path × FileComments} :
    e ∈ (x.discardAll paths).files.toList ↔
      (∀ p ∈ paths, ¬compare p e.1 = .eq) ∧ e ∈ x.files.toList := by
  unfold discardAll
  induction paths generalizing x with
  | nil => simp
  | cons p paths ih =>
    have hfiles : e ∈ (x.discard p).files.toList ↔ ¬compare p e.1 = .eq ∧ e ∈ x.files.toList :=
      mem_remove
    rw [List.foldl_cons, ih, hfiles, List.forall_mem_cons, and_assoc, and_left_comm]

theorem Coherent.discardAll (hx : x.Coherent) (paths : List Path) :
    (x.discardAll paths).Coherent := by
  unfold Index.discardAll
  induction paths generalizing x with
  | nil => exact hx
  | cons p paths ih => exact ih (hx.remove.congr rfl rfl rfl)

/-- The index without its stale files. -/
def dropStale (x : Index) (d : Disk) (watched : List Path) : Index :=
  x.discardAll (x.stalePaths d (setOf watched))

/-- The file at a path is watched, and has the time that the index knows. -/
def Kept (d : Disk) (watched : List Path) (e : Path × FileComments) : Prop :=
  (∃ p ∈ watched, compare p e.1 = .eq) ∧ d.modified? e.1 = some e.2.modified

theorem mem_stalePaths {watched : List Path} :
    path ∈ x.stalePaths d (setOf watched) ↔
      ∃ f, (path, f) ∈ x.files.toList ∧ ¬Kept d watched (path, f) := by
  simp only [stalePaths, List.mem_map, List.mem_filter, Bool.not_eq_eq_eq_not, Bool.not_true,
    Bool.and_eq_false_iff, Kept, isCurrent]
  constructor
  · rintro ⟨⟨p, f⟩, ⟨hm, h⟩, rfl⟩
    refine ⟨f, hm, ?_⟩
    rw [← Maps.contains_setOf]
    rintro ⟨h₁, h₂⟩
    simp [h₁, h₂] at h
  · rintro ⟨f, hm, h⟩
    refine ⟨(path, f), ⟨hm, ?_⟩, rfl⟩
    rw [← Maps.contains_setOf] at h
    cases hc : (setOf watched).contains path with
    | false => exact .inl rfl
    | true =>
      refine .inr (beq_eq_false_iff_ne.2 fun he => h ⟨hc, he⟩)

/-- **What is left are the files that are watched and have the time that the index knows.** -/
theorem mem_dropStale {watched : List Path} {e : Path × FileComments} :
    e ∈ (x.dropStale d watched).files.toList ↔ Kept d watched e ∧ e ∈ x.files.toList := by
  rw [dropStale, mem_discardAll]
  constructor
  · rintro ⟨hall, hm⟩
    refine ⟨?_, hm⟩
    by_contra hk
    exact hall e.1 (mem_stalePaths.2 ⟨e.2, hm, hk⟩) Std.ReflCmp.compare_self
  · rintro ⟨hk, hm⟩
    refine ⟨fun p hp he => ?_, hm⟩
    obtain ⟨f, hf, hn⟩ := mem_stalePaths.1 hp
    -- there is one file at a path, however it is spelled
    exact hn (Maps.eq_of_mem_of_compare hf hm he ▸ hk)

/-! ## Taking in scans -/

variable {c : Config} {root : Path} {watched : List Path}

/-- The entry is of the file at the path, and is what that file scans to. -/
structure ScansTo (c : Config) (root : Path) (d : Disk) (path : Path) (e : Path × FileComments) :
    Prop where
  path_eq : e.1 = path
  scan_eq : c.scanAt root d path = .ok e.2

/-- The scans of some files. -/
def scansOf (c : Config) (root : Path) (d : Disk) (paths : List Path) : List (Path × FileScan) :=
  paths.map fun p => (p, d.scan p (c.argsAt root p) c.scan)

theorem mem_scanned {paths : List Path} {files : List (Path × FileComments)}
    (h : List.Forall₂ (ScansTo c root d) paths files) {e : Path × FileComments} :
    e ∈ files ↔ e.1 ∈ paths ∧ c.scanAt root d e.1 = .ok e.2 := by
  induction h with
  | nil => simp
  | @cons p e' paths files he _ ih =>
    obtain ⟨path', content'⟩ := e'
    obtain ⟨rfl, hs⟩ := he
    rw [List.mem_cons, List.mem_cons, ih]
    constructor
    · rintro (rfl | ⟨hm, hs⟩)
      · exact ⟨.inl rfl, hs⟩
      · exact ⟨.inr hm, hs⟩
    · rintro ⟨heq | hm, hs'⟩
      · rw [heq, hs] at hs'
        exact .inl (Prod.ext heq (Except.ok.inj hs').symm)
      · exact .inr ⟨hm, hs'⟩

/-- Every file that is watched has a scan, and then all of them do. -/
theorem exists_scanned {paths : List Path}
    (h : ∀ p ∈ paths, ∃ f, c.scanAt root d p = .ok f) :
    ∃ files, List.Forall₂ (ScansTo c root d) paths files := by
  induction paths with
  | nil => exact ⟨[], .nil⟩
  | cons p paths ih =>
    obtain ⟨f, hf⟩ := h p List.mem_cons_self
    obtain ⟨files, hfiles⟩ := ih fun p hp => h p (List.mem_cons_of_mem _ hp)
    exact ⟨(p, f) :: files, .cons ⟨rfl, hf⟩ hfiles⟩

theorem addScans_cons_ok {p : Path} {paths : List Path} {f : FileComments} {z : Index}
    (hs : c.scanAt root d p = .ok f) (ha : y.add p f = .ok z) :
    y.addScans (scansOf c root d (p :: paths)) = z.addScans (scansOf c root d paths) := by
  have hs' : (d.scan p (c.argsAt root p) c.scan).result.bind (y.add p) = .ok z := by
    rw [show (d.scan p (c.argsAt root p) c.scan).result = .ok f from hs]
    exact ha
  rw [scansOf, List.map_cons, addScans, hs']
  rfl

/-- Whether it succeeds or not, files are taken in as they are scanned, up to the first that
fails. -/
theorem addScans_spec (y : Index) (c : Config) (root : Path) (d : Disk) (paths : List Path) :
    ∃ done files, done <+: paths ∧ List.Forall₂ (ScansTo c root d) done files ∧
      y.addAll files = .ok (y.addScans (scansOf c root d paths)).1 ∧
        ((y.addScans (scansOf c root d paths)).2 = none → done = paths) := by
  induction paths generalizing y with
  | nil => exact ⟨[], [], List.prefix_rfl, .nil, rfl, fun _ => rfl⟩
  | cons p paths ih =>
    cases hr : (c.scanAt root d p).bind (y.add p) with
    | error e =>
      have hr' : (d.scan p (c.argsAt root p) c.scan).result.bind (y.add p) = .error e := hr
      refine ⟨[], [], List.nil_prefix, .nil, ?_, fun h => ?_⟩
      · rw [scansOf, List.map_cons, addScans, hr']
        rfl
      · rw [scansOf, List.map_cons, addScans, hr'] at h
        cases h
    | ok z =>
      obtain ⟨f, hs, ha⟩ := Fallible.bind_eq_ok.1 hr
      obtain ⟨done, files, hp, hf, hz, hnone⟩ := ih z
      rw [addScans_cons_ok hs ha]
      refine ⟨p :: done, (p, f) :: files, List.cons_prefix_cons.2 ⟨rfl, hp⟩,
        .cons ⟨rfl, hs⟩ hf, Fallible.foldlM_cons_eq_ok.2 ⟨z, ha, hz⟩, fun h => ?_⟩
      rw [hnone h]

/-- It succeeds where all files can be scanned and taken in. -/
theorem addScans_of_addAll {paths : List Path} {files : List (Path × FileComments)} {z : Index}
    (hf : List.Forall₂ (ScansTo c root d) paths files) (hz : y.addAll files = .ok z) :
    y.addScans (scansOf c root d paths) = (z, none) := by
  induction hf generalizing y with
  | nil =>
    cases hz
    rfl
  | @cons p e paths files he _ ih =>
    obtain ⟨path, f⟩ := e
    obtain ⟨rfl, hs⟩ := he
    obtain ⟨y', ha, hz⟩ := Fallible.foldlM_cons_eq_ok.1 hz
    rw [addScans_cons_ok hs ha]
    exact ih hz

/-! ## Updates -/

/-- The index behind the two parts of an update, and why the second one failed. -/
def refreshed (x : Index) (c : Config) (root : Path) (d : Disk) (watched : List Path) :
    Index × Option Error :=
  (x.dropStale d watched).addScans
    (scansOf c root d ((x.dropStale d watched).missingPaths watched))

/-- An update whose second part fails keeps what it has. -/
theorem update_of_refreshed_error {e : Error} (h : x.refreshed c root d watched = (y, some e)) :
    (x.update c root d watched).index = y ∧ (x.update c root d watched).result = .error e := by
  unfold refreshed dropStale discardAll scansOf at h
  unfold update
  dsimp only
  rw [h]
  exact ⟨rfl, rfl⟩

/-- An update whose second part succeeds names what was held back. -/
theorem update_of_refreshed_ok (h : x.refreshed c root d watched = (y, none)) :
    (x.update c root d watched).index = y.releasePending.1 ∧
      (x.update c root d watched).result = .ok y.pending := by
  unfold refreshed dropStale discardAll scansOf at h
  unfold update
  dsimp only
  rw [h]
  exact ⟨rfl, rfl⟩

/-- Both parts of an update that succeeds. -/
theorem refreshed_of_ok {documents : Documents}
    (h : (x.update c root d watched).result = .ok documents) :
    ∃ z, x.refreshed c root d watched = (z, none) ∧
      (x.update c root d watched).index = z.releasePending.1 ∧ documents = z.pending := by
  cases hr : x.refreshed c root d watched with
  | mk z reason =>
    cases reason with
    | some e =>
      rw [(update_of_refreshed_error hr).2] at h
      cases h
    | none =>
      obtain ⟨hindex, hresult⟩ := update_of_refreshed_ok hr
      exact ⟨z, rfl, hindex, Except.ok.inj (h.symm.trans hresult)⟩

/-- Both parts of an update that fails. -/
theorem refreshed_of_error {e : Error} (h : (x.update c root d watched).result = .error e) :
    x.refreshed c root d watched = ((x.update c root d watched).index, some e) := by
  cases hr : x.refreshed c root d watched with
  | mk z reason =>
    cases reason with
    | some e' =>
      obtain ⟨hindex, hresult⟩ := update_of_refreshed_error hr
      obtain rfl := Except.error.inj (h.symm.trans hresult)
      rw [hindex]
    | none =>
      rw [(update_of_refreshed_ok hr).2] at h
      cases h

/-- The end of an update releases what is held back, and changes nothing else. -/
theorem update_frame (x : Index) (c : Config) (root : Path) (d : Disk) (watched : List Path) :
    let y := (x.update c root d watched).index
    let z := (x.refreshed c root d watched).1
    y.files = z.files ∧ y.buckets = z.buckets ∧ y.scopes = z.scopes ∧
      y.references = z.references := by
  cases hr : x.refreshed c root d watched with
  | mk z reason =>
    cases reason with
    | some e =>
      rw [(update_of_refreshed_error hr).1]
      exact ⟨rfl, rfl, rfl, rfl⟩
    | none =>
      rw [(update_of_refreshed_ok hr).1]
      exact ⟨rfl, rfl, rfl, rfl⟩

/-- Files are scanned and taken in, be it all of them or not. -/
theorem refreshed_spec (x : Index) (c : Config) (root : Path) (d : Disk) (watched : List Path) :
    ∃ done files, done <+: (x.dropStale d watched).missingPaths watched ∧
      List.Forall₂ (ScansTo c root d) done files ∧
        (x.dropStale d watched).addAll files = .ok (x.refreshed c root d watched).1 ∧
          ((x.refreshed c root d watched).2 = none →
            done = (x.dropStale d watched).missingPaths watched) :=
  addScans_spec _ c root d _

theorem coherent_update (hx : x.Coherent) : (x.update c root d watched).index.Coherent := by
  obtain ⟨done, files, -, -, hz, -⟩ := refreshed_spec x c root d watched
  obtain ⟨hfiles, hbuckets, hscopes, -⟩ := update_frame x c root d watched
  exact ((hx.discardAll _).addAll hz).congr hfiles hbuckets hscopes

/-- Whether it succeeds or not, the files behind an update are those that were there, unless they
were stale, and scans of watched files. -/
theorem mem_files_update {e : Path × FileComments}
    (he : e ∈ (x.update c root d watched).index.files.toList) :
    (Kept d watched e ∧ e ∈ x.files.toList) ∨
      (e.1 ∈ watched ∧ c.scanAt root d e.1 = .ok e.2) := by
  obtain ⟨done, files, hfront, hfiles, hz, -⟩ := refreshed_spec x c root d watched
  have hmem : e ∈ (x.refreshed c root d watched).1.files.toList := by
    rwa [(update_frame x c root d watched).1] at he
  rw [(addAll_frame hz).1.mem_iff, List.mem_append, mem_dropStale] at hmem
  rcases hmem with hmem | hmem
  · obtain ⟨hdone, hs⟩ := (mem_scanned hfiles).1 hmem
    exact .inr ⟨(List.mem_filter.1 (hfront.subset hdone)).1, hs⟩
  · exact .inl hmem

/-! ## Updating is as good as building -/

/-- Every indexed file that is watched and has the time known to the index scans to what the index
holds, and is spelled as it is watched. -/
structure Agrees (x : Index) (c : Config) (root : Path) (d : Disk) (watched : List Path) : Prop where
  coherent : x.Coherent
  scan_eq : ∀ e ∈ x.files.toList, Kept d watched e → c.scanAt root d e.1 = .ok e.2
  spelled : ∀ e ∈ x.files.toList, ∀ p ∈ watched, compare p e.1 = .eq → p = e.1

theorem agrees_empty : empty.Agrees c root d watched :=
  ⟨coherent_empty, nofun, nofun⟩

/-- No file is watched twice. -/
def Distinct (watched : List Path) : Prop :=
  watched.Pairwise fun p q => ¬compare p q = .eq

theorem map_fst_scanned {paths : List Path} {files : List (Path × FileComments)}
    (h : List.Forall₂ (ScansTo c root d) paths files) : files.map Prod.fst = paths := by
  induction h with
  | nil => rfl
  | cons he _ ih => rw [List.map_cons, he.path_eq, ih]

theorem Distinct.files (hw : Distinct watched) {files : List (Path × FileComments)}
    (h : List.Forall₂ (ScansTo c root d) watched files) : DistinctPaths files := by
  rw [← map_fst_scanned h] at hw
  exact List.pairwise_map.1 hw

theorem mem_missingPaths {p : Path} :
    p ∈ y.missingPaths watched ↔ p ∈ watched ∧ y.files[p]? = none := by
  rw [missingPaths, List.mem_filter, Option.isNone_iff_eq_none, file?]

namespace Agrees

/-- A file that is left is watched, and scans to what the index holds. -/
theorem scan_of_left (hx : x.Agrees c root d watched) {e : Path × FileComments}
    (he : e ∈ (x.dropStale d watched).files.toList) :
    e.1 ∈ watched ∧ c.scanAt root d e.1 = .ok e.2 := by
  obtain ⟨hkept, he⟩ := mem_dropStale.1 he
  have hscan := hx.scan_eq e he hkept
  obtain ⟨⟨p, hp, hpe⟩, -⟩ := hkept
  exact ⟨hx.spelled e he p hp hpe ▸ hp, hscan⟩

/-- A watched file is missing, or it is left, spelled as it is watched. -/
theorem missing_or_left (hx : x.Agrees c root d watched) {p : Path} (hp : p ∈ watched) :
    p ∈ (x.dropStale d watched).missingPaths watched ∨
      ∃ f, (p, f) ∈ (x.dropStale d watched).files.toList := by
  cases hf : (x.dropStale d watched).files[p]? with
  | none => exact .inl (mem_missingPaths.2 ⟨hp, hf⟩)
  | some f =>
    obtain ⟨p', hpp', hmem⟩ :=
      TreeMap.getElem?_eq_some_iff_exists_compare_eq_eq_and_mem_toList.1 hf
    have hpath : p = p' := hx.spelled _ (mem_dropStale.1 hmem).2 p hp hpp'
    exact .inr ⟨f, hpath ▸ hmem⟩

variable {scanned missing : List (Path × FileComments)}

/-- The files that are left and the scans of those that are missing are the scans of all. -/
theorem perm (hx : x.Agrees c root d watched) (hw : Distinct watched)
    (hs : List.Forall₂ (ScansTo c root d) watched scanned)
    (hm : List.Forall₂ (ScansTo c root d) ((x.dropStale d watched).missingPaths watched) missing) :
    scanned.Perm (missing ++ (x.dropStale d watched).files.toList) := by
  have hnodup : (missing ++ (x.dropStale d watched).files.toList).Nodup := by
    have hdistinct : Distinct ((x.dropStale d watched).missingPaths watched) :=
      List.Pairwise.filter _ hw
    refine List.nodup_append.2 ⟨(hdistinct.files hm).nodup, Maps.nodup_toList _, ?_⟩
    rintro e he e' he' rfl
    have hnone := (mem_missingPaths.1 ((mem_scanned hm).1 he).1).2
    exact Maps.getElem?_eq_none_iff.1 hnone e he' Std.ReflCmp.compare_self
  refine (List.perm_ext_iff_of_nodup (hw.files hs).nodup hnodup).2 fun e => ?_
  rw [mem_scanned hs, List.mem_append, mem_scanned hm]
  constructor
  · rintro ⟨hp, hscan⟩
    rcases hx.missing_or_left hp with hmissing | ⟨f, hf⟩
    · exact .inl ⟨hmissing, hscan⟩
    · have hf' := (hx.scan_of_left hf).2
      rw [hscan] at hf'
      cases hf'
      exact .inr hf
  · rintro (⟨hmissing, hscan⟩ | hleft)
    · exact ⟨(mem_missingPaths.1 hmissing).1, hscan⟩
    · exact hx.scan_of_left hleft

/-- Where all that is missing can be scanned, all that is watched can be. -/
theorem exists_scanned (hx : x.Agrees c root d watched)
    (hm : List.Forall₂ (ScansTo c root d) ((x.dropStale d watched).missingPaths watched) missing) :
    ∃ scanned, List.Forall₂ (ScansTo c root d) watched scanned := by
  refine Index.exists_scanned fun p hp => ?_
  rcases hx.missing_or_left hp with hmissing | ⟨f, hf⟩
  · rw [← map_fst_scanned hm] at hmissing
    obtain ⟨e, he, rfl⟩ := List.mem_map.1 hmissing
    exact ⟨e.2, ((mem_scanned hm).1 he).2⟩
  · exact ⟨f, (hx.scan_of_left hf).2⟩

/-- Both parts of an update that succeeds. -/
theorem of_update_ok (hx : x.Agrees c root d watched) (hw : Distinct watched)
    {documents : Documents} (h : (x.update c root d watched).result = .ok documents) :
    ∃ scanned, List.Forall₂ (ScansTo c root d) watched scanned ∧
      ((entriesOf scanned).map DirectiveComment.slot).Nodup ∧
        (x.update c root d watched).index.files.toList.Perm scanned := by
  obtain ⟨done, missing, -, hm, hz, hdone⟩ := refreshed_spec x c root d watched
  obtain ⟨z, hr, hindex, -⟩ := refreshed_of_ok h
  rw [hr] at hz hdone
  rw [hdone rfl] at hm
  obtain ⟨scanned, hs⟩ := hx.exists_scanned hm
  have hperm := hx.perm hw hs hm
  have hslots := ((exists_addAll_iff (hx.coherent.discardAll _)).1 ⟨z, hz⟩).2
  refine ⟨scanned, hs, ((perm_entries hperm).map _).nodup_iff.2 hslots, ?_⟩
  rw [hindex]
  exact (addAll_frame hz).1.trans hperm.symm

/-- **Whether an update succeeds does not depend on the index**: every watched file must be
readable, and no two comments of these files may document one thing. -/
theorem update_ok_iff (hx : x.Agrees c root d watched) (hw : Distinct watched) :
    (∃ documents, (x.update c root d watched).result = .ok documents) ↔
      ∃ scanned, List.Forall₂ (ScansTo c root d) watched scanned ∧
        ((entriesOf scanned).map DirectiveComment.slot).Nodup := by
  constructor
  · rintro ⟨documents, h⟩
    obtain ⟨scanned, hs, hslots, -⟩ := hx.of_update_ok hw h
    exact ⟨scanned, hs, hslots⟩
  · rintro ⟨scanned, hs, hslots⟩
    obtain ⟨missing, hm⟩ : ∃ missing, List.Forall₂ (ScansTo c root d)
        ((x.dropStale d watched).missingPaths watched) missing := by
      refine Index.exists_scanned fun p hp => ?_
      have hp' := (mem_missingPaths.1 hp).1
      rw [← map_fst_scanned hs] at hp'
      obtain ⟨e, he, rfl⟩ := List.mem_map.1 hp'
      exact ⟨e.2, ((mem_scanned hs).1 he).2⟩
    have hperm := hx.perm hw hs hm
    have hleft := hx.coherent.discardAll (x.stalePaths d (setOf watched))
    obtain ⟨z, hz⟩ := (exists_addAll_iff hleft).2
      ⟨(hw.files hs).perm hperm, ((perm_entries hperm).map _).nodup_iff.1 hslots⟩
    exact ⟨_, (update_of_refreshed_ok (addScans_of_addAll hm hz)).2⟩

/-- **The files behind an update that succeeds are the watched ones**, each with what it scans
to. -/
theorem mem_files_of_update (hx : x.Agrees c root d watched) (hw : Distinct watched)
    {documents : Documents} (h : (x.update c root d watched).result = .ok documents)
    {e : Path × FileComments} :
    e ∈ (x.update c root d watched).index.files.toList ↔
      e.1 ∈ watched ∧ c.scanAt root d e.1 = .ok e.2 := by
  obtain ⟨scanned, hs, -, hfiles⟩ := hx.of_update_ok hw h
  rw [hfiles.mem_iff, mem_scanned hs]

end Agrees

end Index

end DocIndex
