import DocIndex.Proofs.Index.Cache
import DocIndex.Proofs.Index.Documents
import DocIndex.Proofs.Project.Update

/-!
# Which documents an update names

An update names the documents that rested on removed files. One that fails holds them back, and the
next one that succeeds names them, too. A `Ledger` is an index together with the updates that failed
since the last one that succeeded; it goes with the index through the cache.

* `Attempt.Due` — what an update would name by itself.
* `mem_result_iff`, `mem_pending_iff` — what one update names, or holds back.
* `sound_run` — **what an index holds back is what the failed updates owe** (`Index.Balanced`).
* `invalidation_exact` — **no document is lost, and none is named without cause.**
-/

namespace DocIndex

open Std (TreeMap TreeSet)

/-- An update of an index: what the disk is like, and which files are watched. -/
structure Attempt where
  index : Index
  disk : Disk
  watched : List Path

/-- The document rests on an indexed file that the update removes, because it is no longer watched,
is gone or has another time. -/
def Attempt.Due (a : Attempt) (document : String) : Prop :=
  ∃ e ∈ a.index.files.toList, ¬Index.Kept a.disk a.watched e ∧ a.index.Rests document e.1

namespace Index

variable {x y : Index} {c : Config} {root : Path} {d : Disk} {watched : List Path}
  {document : String} {path : Path}

/-! ## One update -/

theorem mem_pending_discard :
    document ∈ (x.discard path).pending ↔
      document ∈ x.pending ∨ (∃ content, x.file? path = some content) ∧ x.Rests document path := by
  have hpending : (x.discard path).pending = joinSets x.pending (x.remove path).2 := by
    rw [← (references_remove x path).2]
    rfl
  rw [hpending, Maps.mem_joinSets]
  unfold remove
  cases x.file? path with
  | none => simp
  | some content =>
    have hdocuments : document ∈ x.documentsOn path ↔ x.Rests document path := mem_documentsOn
    simp [hdocuments]

theorem file?_discard {path' : Path} :
    (∃ content, (x.discard path).file? path' = some content) ↔
      ¬compare path path' = .eq ∧ ∃ content, x.file? path' = some content := by
  have hfile (y : Index) : (∃ content, y.file? path' = some content) ↔
      ∃ e ∈ y.files.toList, compare path' e.1 = .eq := by
    constructor
    · rintro ⟨content, h⟩
      obtain ⟨p, he, hm⟩ :=
        TreeMap.getElem?_eq_some_iff_exists_compare_eq_eq_and_mem_toList.1 h
      exact ⟨_, hm, he⟩
    · rintro ⟨e, he, h⟩
      exact ⟨_, Maps.getElem?_of_mem he h⟩
  have hmem (e : Path × FileComments) : e ∈ (x.discard path).files.toList ↔
      ¬compare path e.1 = .eq ∧ e ∈ x.files.toList := mem_remove
  rw [hfile, hfile]
  simp only [hmem]
  constructor
  · rintro ⟨e, ⟨hne, he⟩, h⟩
    exact ⟨fun h' => hne (Std.TransCmp.eq_trans h' h), e, he, h⟩
  · rintro ⟨hne, e, he, h⟩
    exact ⟨e, ⟨fun h' => hne (Std.TransCmp.eq_trans h' (Std.OrientedCmp.eq_symm h)), he⟩, h⟩

/-- Dropping files holds back the documents that rest on them. -/
theorem mem_pending_discardAll {paths : List Path} :
    document ∈ (x.discardAll paths).pending ↔
      document ∈ x.pending ∨
        ∃ p ∈ paths, (∃ content, x.file? p = some content) ∧ x.Rests document p := by
  unfold discardAll
  induction paths generalizing x with
  | nil => simp
  | cons p paths ih =>
    have hrests (q : Path) : (x.discard p).Rests document q ↔ x.Rests document q := by
      have hreferences : (x.discard p).references = x.references := (references_remove x p).1
      exact ⟨fun h => h.congr hreferences.symm, fun h => h.congr hreferences⟩
    rw [List.foldl_cons, ih, mem_pending_discard]
    simp only [file?_discard, hrests, List.mem_cons, exists_eq_or_imp]
    constructor
    · rintro ((h | h) | ⟨q, hq, ⟨-, hf⟩, hr⟩)
      · exact .inl h
      · exact .inr (.inl h)
      · exact .inr (.inr ⟨q, hq, hf, hr⟩)
    · rintro (h | h | ⟨q, hq, hf, hr⟩)
      · exact .inl (.inl h)
      · exact .inl (.inr h)
      · -- a path that is dropped once more was dropped with its documents
        by_cases he : compare p q = .eq
        · refine .inl (.inr ⟨?_, (rests_congr he).2 hr⟩)
          obtain ⟨content, hc⟩ := hf
          exact ⟨content, (TreeMap.getElem?_congr he).trans hc⟩
        · exact .inr ⟨q, hq, ⟨he, hf⟩, hr⟩

theorem mem_pending_dropStale :
    document ∈ (x.dropStale d watched).pending ↔
      document ∈ x.pending ∨ Attempt.Due ⟨x, d, watched⟩ document := by
  rw [dropStale, mem_pending_discardAll]
  refine or_congr_right ⟨?_, ?_⟩
  · rintro ⟨p, hp, -, hr⟩
    obtain ⟨f, hf, hn⟩ := mem_stalePaths.1 hp
    exact ⟨(p, f), hf, hn, hr⟩
  · rintro ⟨e, he, hn, hr⟩
    exact ⟨e.1, mem_stalePaths.2 ⟨e.2, he, hn⟩,
      ⟨e.2, Maps.getElem?_of_mem he Std.ReflCmp.compare_self⟩, hr⟩

theorem references_discardAll (x : Index) (paths : List Path) :
    (x.discardAll paths).references = x.references := by
  unfold discardAll
  induction paths generalizing x with
  | nil => rfl
  | cons p paths ih => exact (ih (x.discard p)).trans (references_remove x p).1

theorem refreshed_frame (x : Index) (c : Config) (root : Path) (d : Disk) (watched : List Path) :
    (x.refreshed c root d watched).1.references = x.references ∧
      (x.refreshed c root d watched).1.pending = (x.dropStale d watched).pending := by
  obtain ⟨done, files, -, -, hz, -⟩ := refreshed_spec x c root d watched
  obtain ⟨-, hr, hp⟩ := addAll_frame hz
  exact ⟨hr.trans (references_discardAll x _), hp⟩

/-- An update does not change what documents rest on. -/
theorem references_update (x : Index) (c : Config) (root : Path) (d : Disk)
    (watched : List Path) : (x.update c root d watched).index.references = x.references := by
  rw [(update_frame x c root d watched).2.2.2]
  exact (refreshed_frame x c root d watched).1

/-- **What an update that succeeds names**: what was held back, and what it is due itself. Nothing
is held back any more. -/
theorem mem_result_iff {documents : Documents}
    (h : (x.update c root d watched).result = .ok documents) :
    (∀ document, document ∈ documents ↔
      document ∈ x.pending ∨ Attempt.Due ⟨x, d, watched⟩ document) ∧
      (x.update c root d watched).index.pending = ∅ := by
  obtain ⟨z, hr, hindex, rfl⟩ := refreshed_of_ok h
  have hframe := (refreshed_frame x c root d watched).2
  rw [hr] at hframe
  refine ⟨fun document => ?_, by rw [hindex]; rfl⟩
  rw [← mem_pending_dropStale, ← hframe]

/-- **What an update that fails holds back.** -/
theorem mem_pending_iff {e : Error} (h : (x.update c root d watched).result = .error e) :
    document ∈ (x.update c root d watched).index.pending ↔
      document ∈ x.pending ∨ Attempt.Due ⟨x, d, watched⟩ document := by
  have hframe := (refreshed_frame x c root d watched).2
  rw [refreshed_of_error h] at hframe
  rw [hframe, mem_pending_dropStale]

/-- Behind an update that succeeds, every indexed file is kept and every watched file is there. -/
theorem current_of_update {documents : Documents}
    (h : (x.update c root d watched).result = .ok documents) :
    (∀ e ∈ (x.update c root d watched).index.files.toList, Kept d watched e) ∧
      ∀ p ∈ watched, (x.update c root d watched).index.file? p ≠ none := by
  constructor
  · intro e he
    rcases mem_files_update he with ⟨hk, -⟩ | ⟨hw, hs⟩
    · exact hk
    · exact ⟨⟨e.1, hw, Std.ReflCmp.compare_self⟩, (Disk.scan_ok hs).1⟩
  · intro p hp
    obtain ⟨done, files, -, hf, hz, hdone⟩ := refreshed_spec x c root d watched
    obtain ⟨z, hr, hindex, -⟩ := refreshed_of_ok h
    rw [hr] at hz hdone
    rw [hdone rfl] at hf
    have hfiles := (addAll_frame hz).1
    rw [hindex]
    -- the file was left, or it was missing and is taken in
    obtain ⟨e, he, hpe⟩ : ∃ e ∈ z.files.toList, compare p e.1 = .eq := by
      cases hleft : (x.dropStale d watched).files[p]? with
      | none =>
        have hmissing := mem_missingPaths.2 ⟨hp, hleft⟩
        rw [← map_fst_scanned hf] at hmissing
        obtain ⟨e, he, rfl⟩ := List.mem_map.1 hmissing
        exact ⟨e, hfiles.mem_iff.2 (List.mem_append_left _ he), Std.ReflCmp.compare_self⟩
      | some content =>
        obtain ⟨p', hpe, he⟩ :=
          TreeMap.getElem?_eq_some_iff_exists_compare_eq_eq_and_mem_toList.1 hleft
        exact ⟨_, hfiles.mem_iff.2 (List.mem_append_right _ he), hpe⟩
    have hsome : z.releasePending.1.file? p = some e.2 := Maps.getElem?_of_mem he hpe
    rw [hsome]
    exact Option.some_ne_none _

/-- A file that is kept is there behind the update, be it a success or not. -/
theorem mem_files_of_kept {e : Path × FileComments} (he : e ∈ x.files.toList)
    (hk : Kept d watched e) : e ∈ (x.update c root d watched).index.files.toList := by
  obtain ⟨done, files, -, -, hz, -⟩ := refreshed_spec x c root d watched
  have hmem : e ∈ (x.refreshed c root d watched).1.files.toList :=
    (addAll_frame hz).1.mem_iff.2 (List.mem_append_right _ (mem_dropStale.2 ⟨hk, he⟩))
  rwa [(update_frame x c root d watched).1]

/-- **An update that is made again at once names nothing.** -/
theorem update_again {documents : Documents}
    (h : (x.update c root d watched).result = .ok documents) :
    ((x.update c root d watched).index.update c root d watched).result = .ok ∅ := by
  obtain ⟨hkept, hthere⟩ := current_of_update h
  have hpending := (mem_result_iff h).2
  generalize (x.update c root d watched).index = y at *
  have hstale : y.stalePaths d (setOf watched) = [] := by
    refine List.eq_nil_iff_forall_not_mem.2 fun p hp => ?_
    obtain ⟨f, hf, hn⟩ := mem_stalePaths.1 hp
    exact hn (hkept _ hf)
  have hdrop : y.dropStale d watched = y := by
    rw [dropStale, hstale]
    rfl
  have hmissing : y.missingPaths watched = [] := by
    refine List.filter_eq_nil_iff.2 fun p hp => ?_
    rw [Option.isNone_iff_eq_none]
    exact hthere p hp
  have hrefreshed : y.refreshed c root d watched = (y, none) := by
    rw [refreshed, hdrop, hmissing]
    rfl
  rw [(update_of_refreshed_ok hrefreshed).2, hpending]

end Index

/-! ## Any number of steps -/

/-- An index in the cache, with the updates that had failed. -/
structure Saved where
  disk : Disk
  path : Path
  index : Index
  failed : List Attempt

/-- An index, the updates that failed since the last one that succeeded, and what was saved last. -/
structure Ledger where
  index : Index
  failed : List Attempt
  saved : Option Saved

/-- Something that is done to an index. -/
inductive Event
  | update (c : Config) (root : Path) (d : Disk) (watched : List Path)
  | lookup (options : QueryOptions) (document : String) (context : DocContext) (signature : String)
  | record (document : String) (path : Path)
  | forget (document : String)
  | adopt (documents : List String) (other : Index)
  | save (d : Disk) (path : Path) (now : Timestamp)
  /-- The index becomes the one that was saved last. -/
  | load

namespace Event

/-- What an event leads to. One that cannot be carried out changes nothing. -/
def apply (l : Ledger) : Event → Ledger
  | update c root d watched =>
    let u := l.index.update c root d watched
    match u.result with
    | .ok _ => { l with index := u.index, failed := [] }
    | .error _ => { l with index := u.index, failed := ⟨l.index, d, watched⟩ :: l.failed }
  | lookup options document context signature =>
    { l with index := (l.index.lookup options document context signature).1 }
  | record document path => { l with index := l.index.record document path }
  | forget document => { l with index := l.index.forget document }
  | adopt documents other => { l with index := l.index.adoptReferences documents other }
  | save d path now =>
    match l.index.save d path now with
    | .ok d' => { l with saved := some ⟨d', path, l.index, l.failed⟩ }
    | .error _ => l
  | load =>
    match l.saved with
    | none => l
    | some s =>
      match Index.load s.disk s.path with
      | .ok (some y) => { l with index := y, failed := s.failed }
      | _ => l

/-- What events lead to, one after another. -/
def run (l : Ledger) (events : List Event) : Ledger :=
  events.foldl apply l

/-- The ledger of an empty index. -/
def start : Ledger :=
  ⟨.empty, [], none⟩

end Event

/-- The disks of updates have normal times. -/
def Event.Timely : Event → Prop
  | .update _ _ d watched => ∀ p ∈ watched, ∀ t, d.modified? p = some t → t.Normal
  | _ => True

namespace Index

/-- Every indexed file was scanned: its comments are its own, and its time is normal. -/
structure Genuine (x : Index) : Prop where
  coherent : x.Coherent
  filed : ∀ e ∈ x.files.toList, ∀ d ∈ e.2.directiveComments, d.FiledAt e.1
  normal : ∀ e ∈ x.files.toList, e.2.modified.Normal

variable {x y : Index} {c : Config} {root : Path} {d : Disk} {watched : List Path}

theorem genuine_empty : empty.Genuine :=
  ⟨coherent_empty, nofun, nofun⟩

theorem Genuine.congr (h : x.Genuine) (hy : y.Coherent) (hf : y.files.toList = x.files.toList) :
    y.Genuine :=
  ⟨hy, hf ▸ h.filed, hf ▸ h.normal⟩

theorem Genuine.storable (h : x.Genuine) : x.Storable :=
  fun e he => ⟨fun d hd => (h.filed e he d hd).canonical, h.normal e he⟩

theorem Genuine.update (h : x.Genuine)
    (ht : ∀ p ∈ watched, ∀ t, d.modified? p = some t → t.Normal) :
    (x.update c root d watched).index.Genuine := by
  refine ⟨coherent_update h.coherent, fun e he => ?_, fun e he => ?_⟩
  · rcases mem_files_update he with ⟨-, he⟩ | ⟨-, hs⟩
    · exact h.filed e he
    · exact (Disk.scan_ok hs).2
  · rcases mem_files_update he with ⟨-, he⟩ | ⟨hw, hs⟩
    · exact h.normal e he
    · exact ht e.1 hw _ (Disk.scan_ok hs).1

/-- The index holds back what some updates owe. -/
def Balanced (x : Index) (failed : List Attempt) : Prop :=
  ∀ document, document ∈ x.pending ↔ ∃ a ∈ failed, a.Due document

theorem Balanced.congr {failed : List Attempt} (h : x.Balanced failed)
    (hp : y.pending.toList = x.pending.toList) : y.Balanced failed := by
  intro document
  rw [← h document, Maps.mem_set_iff, Maps.mem_set_iff, hp]

/-- An update that fails joins those that failed before. -/
theorem Balanced.fail {failed : List Attempt} (h : x.Balanced failed) {e : Error}
    (he : (x.update c root d watched).result = .error e) :
    (x.update c root d watched).index.Balanced (⟨x, d, watched⟩ :: failed) := by
  intro document
  rw [mem_pending_iff he, h document, or_comm]
  simp only [List.mem_cons, exists_eq_or_imp]

/-- Behind an update that succeeds, nothing is owed. -/
theorem balanced_of_pending (h : x.pending = ∅) : x.Balanced [] := by
  intro document
  rw [h]
  simp

theorem Restores.rests_iff (h : x.Restores y) {document : String} {path : Path} :
    y.Rests document path ↔ x.Rests document path := by
  have half {x y : Index} (h : referenceTable y.references = referenceTable x.references)
      (hr : x.Rests document path) : y.Rests document path := by
    obtain ⟨paths, hp, hm⟩ := hr
    have hmem : (document, paths.toList) ∈ referenceTable y.references := by
      rw [h]
      exact List.mem_map.2 ⟨_, TreeMap.mem_toList_iff_getElem?_eq_some.2 hp, rfl⟩
    obtain ⟨⟨document', paths'⟩, hm', he⟩ := List.mem_map.1 hmem
    obtain ⟨rfl, hlist⟩ := Prod.mk.inj he
    refine ⟨paths', TreeMap.mem_toList_iff_getElem?_eq_some.1 hm', ?_⟩
    rw [Maps.mem_set_iff] at hm ⊢
    exact hlist ▸ hm
  exact ⟨half h.references.symm, half h.references⟩

end Index

/-- What was saved comes back, and the updates that had failed with it. -/
structure Saved.Sound (s : Saved) : Prop where
  genuine : s.index.Genuine
  balanced : s.index.Balanced s.failed
  restores : ∀ y, Index.load s.disk s.path = .ok (some y) → s.index.Restores y

/-- The index was scanned and holds back what the failed updates owe, and so was what is saved. -/
structure Ledger.Sound (l : Ledger) : Prop where
  genuine : l.index.Genuine
  balanced : l.index.Balanced l.failed
  saved : ∀ s, l.saved = some s → s.Sound

namespace Event

variable {l : Ledger}

theorem sound_start : start.Sound :=
  ⟨Index.genuine_empty, Index.balanced_of_pending rfl, nofun⟩

/-- **Every event keeps the ledger sound.** -/
theorem sound_apply (hl : l.Sound) (event : Event) (ht : event.Timely) :
    (event.apply l).Sound := by
  cases event with
  | update c root d watched =>
    have hgenuine : (l.index.update c root d watched).index.Genuine := hl.genuine.update ht
    unfold apply
    dsimp only
    split
    · rename_i documents hr
      exact ⟨hgenuine, Index.balanced_of_pending (Index.mem_result_iff hr).2, hl.saved⟩
    · rename_i e hr
      exact ⟨hgenuine, hl.balanced.fail hr, hl.saved⟩
  | lookup options document context signature =>
    obtain ⟨hf, -, -, hp⟩ := l.index.lookup_frame options document context signature
    exact ⟨hl.genuine.congr (hl.genuine.coherent.lookup _ _ _ _) (congrArg TreeMap.toList hf),
      hl.balanced.congr (congrArg TreeSet.toList hp), hl.saved⟩
  | record document path =>
    exact ⟨hl.genuine.congr (hl.genuine.coherent.congr rfl rfl rfl) rfl, hl.balanced, hl.saved⟩
  | forget document =>
    exact ⟨hl.genuine.congr (hl.genuine.coherent.congr rfl rfl rfl) rfl, hl.balanced, hl.saved⟩
  | adopt documents other =>
    obtain ⟨hf, hb, hs, hp⟩ := l.index.adopt_frame documents other
    exact ⟨hl.genuine.congr (hl.genuine.coherent.congr hf hb hs) (congrArg TreeMap.toList hf),
      hl.balanced.congr (congrArg TreeSet.toList hp), hl.saved⟩
  | save d path now =>
    unfold apply
    dsimp only
    split
    · rename_i d' hsave
      refine ⟨hl.genuine, hl.balanced, fun s hs => ?_⟩
      cases hs
      refine ⟨hl.genuine, hl.balanced, fun y hy => ?_⟩
      obtain ⟨hfits, hlong⟩ :=
        Index.load_of_save hl.genuine.coherent hl.genuine.storable hsave
      by_cases hf : l.index.Fits
      · obtain ⟨y', hy', hrestores⟩ := hfits hf
        rw [hy'] at hy
        cases hy
        exact hrestores
      · rw [hlong hf] at hy
        cases hy
    · exact hl
  | load =>
    unfold apply
    dsimp only
    split
    · exact hl
    · rename_i s hs
      have hsound := hl.saved s hs
      split
      · rename_i y hy
        have hrestores := hsound.restores y hy
        exact ⟨hsound.genuine.congr (Index.coherent_load hy) hrestores.files,
          hsound.balanced.congr hrestores.pending, hl.saved⟩
      · exact hl

/-- **Every ledger that is reached is sound.** -/
theorem sound_run (hl : l.Sound) {events : List Event} (ht : ∀ e ∈ events, e.Timely) :
    (run l events).Sound :=
  List.foldlRecOn events apply hl fun _ hl e he => sound_apply hl e (ht e he)

/-! ## What is not lost on the way -/

/-- Each of the events finds a ledger of which `P` holds. -/
def Throughout (P : Ledger → Event → Prop) : Ledger → List Event → Prop
  | _, [] => True
  | l, event :: events => P l event ∧ Throughout P (event.apply l) events

/-- What each event keeps where `P` holds, all of them keep where `P` holds throughout. -/
theorem run_of_throughout {P : Ledger → Event → Prop} {Q : Ledger → Prop} {events : List Event}
    (hstep : ∀ l, ∀ e ∈ events, Q l → P l e → Q (e.apply l)) (hl : Q l)
    (h : Throughout P l events) : Q (run l events) := by
  unfold run
  induction events generalizing l with
  | nil => exact hl
  | cons e events ih =>
    have hrest : ∀ l, ∀ e' ∈ events, Q l → P l e' → Q (e'.apply l) :=
      fun l e' he => hstep l e' (List.mem_cons_of_mem _ he)
    exact ih hrest (hstep l e List.mem_cons_self hl h.1) h.2

/-- An update that failed still counts: there was no success since, and it goes with a saved
index. -/
def Defers (a : Attempt) (l : Ledger) : Event → Prop
  | update c root d watched => ∃ e, (l.index.update c root d watched).result = .error e
  | load => ∀ s, l.saved = some s → a ∈ s.failed
  | _ => True

theorem mem_failed_apply {a : Attempt} (ha : a ∈ l.failed) {event : Event}
    (h : Defers a l event) : a ∈ (event.apply l).failed := by
  cases event with
  | update c root d watched =>
    obtain ⟨e, he⟩ := h
    unfold apply
    dsimp only
    rw [he]
    exact List.mem_cons_of_mem _ ha
  | load =>
    unfold apply
    dsimp only
    split
    · exact ha
    · rename_i s hs
      split
      · exact h s hs
      · exact ha
  | save d path now =>
    unfold apply
    dsimp only
    split
    · exact ha
    · exact ha
  | _ => exact ha

theorem mem_failed_run {a : Attempt} (ha : a ∈ l.failed) {events : List Event}
    (h : Throughout (Defers a) l events) : a ∈ (run l events).failed := by
  have hstep : ∀ l, ∀ event ∈ events, a ∈ l.failed → Defers a l event →
      a ∈ (event.apply l).failed :=
    fun _ _ _ ha hevent => mem_failed_apply ha hevent
  exact run_of_throughout (Q := fun l => a ∈ l.failed) hstep ha h

/-- The file is indexed, and the document rests on it. -/
structure Remembers (x : Index) (document : String) (e : Path × FileComments) : Prop where
  indexed : e ∈ x.files.toList
  rests : x.Rests document e.1

/-- The event neither finds the file changed nor makes the document forget it. -/
def Spares (document : String) (e : Path × FileComments) (l : Ledger) : Event → Prop
  | update _ _ d watched => Index.Kept d watched e
  | forget document' => document' ≠ document
  | load => ∀ s, l.saved = some s → Remembers s.index document e
  | _ => True

/-- What a document rests on is remembered until it is forgotten or found changed. -/
theorem remembers_apply (hl : l.Sound) {document : String} {e : Path × FileComments}
    (h : Remembers l.index document e) {event : Event} (hevent : Spares document e l event) :
    Remembers (event.apply l).index document e := by
  cases event with
  | update c root d watched =>
    have hremembers : Remembers (l.index.update c root d watched).index document e :=
      ⟨Index.mem_files_of_kept h.indexed hevent,
        h.rests.congr (Index.references_update _ _ _ _ _)⟩
    unfold apply
    dsimp only
    split <;> exact hremembers
  | lookup options document' context signature =>
    refine ⟨?_, h.rests.lookup options document' context signature⟩
    rw [apply, (l.index.lookup_frame options document' context signature).1]
    exact h.indexed
  | record document' path => exact ⟨h.indexed, h.rests.refer document' _⟩
  | forget document' => exact ⟨h.indexed, h.rests.forget hevent⟩
  | adopt documents other =>
    refine ⟨?_, h.rests.adopt documents other⟩
    rw [apply, (l.index.adopt_frame documents other).1]
    exact h.indexed
  | save d path now =>
    unfold apply
    dsimp only
    split <;> exact h
  | load =>
    unfold apply
    dsimp only
    split
    · exact h
    · rename_i s hs
      split
      · rename_i y hy
        obtain ⟨hindexed, hrests⟩ := hevent s hs
        have hrestores := (hl.saved s hs).restores y hy
        exact ⟨hrestores.files ▸ hindexed, hrestores.rests_iff.2 hrests⟩
      · exact h

theorem remembers_run (hl : l.Sound) {document : String} {e : Path × FileComments}
    (h : Remembers l.index document e) {events : List Event} (ht : ∀ e ∈ events, e.Timely)
    (hevents : Throughout (Spares document e) l events) :
    Remembers (run l events).index document e := by
  have hstep : ∀ l, ∀ event ∈ events, l.Sound ∧ Remembers l.index document e →
      Spares document e l event →
        (event.apply l).Sound ∧ Remembers (event.apply l).index document e :=
    fun _ event hevent ⟨hl, h⟩ hspares =>
      ⟨sound_apply hl event (ht event hevent), remembers_apply hl h hspares⟩
  exact (run_of_throughout hstep ⟨hl, h⟩ hevents).2

/-- A comment that is found belongs to an indexed file, on which the document rests from then on. -/
theorem remembers_of_lookup (hl : l.Sound) {options : QueryOptions} {document : String}
    {context : DocContext} {signature : String} {c : Comment}
    (h : (l.index.lookup options document context signature).2 = .found c) :
    ∃ content, Remembers ((lookup options document context signature).apply l).index document
      (c.file, content) := by
  have hfind : l.index.find? context signature = some c := by
    rw [Index.answer_lookup] at h
    unfold Index.query at h
    split at h
    · cases h
      assumption
    · cases h
  have hentry := (hl.genuine.coherent.find context signature c).1 hfind
  obtain ⟨⟨path, content⟩, he, hd⟩ := List.mem_flatMap.1 hentry
  have hfile : c.file = path := (hl.genuine.filed _ he _ hd).file_eq
  refine ⟨content, ?_, Index.rests_of_lookup hfind⟩
  rw [apply, (l.index.lookup_frame options document context signature).1, hfile]
  exact he

/-- **No document is lost, and none is named without cause.** At every point, an index holds back
exactly what the updates that failed since the last success owe. An update that succeeds names
exactly that and what it is due itself; behind it nothing is held back, and made again it names
nothing. A document for which a comment was found is named by the first update that succeeds from
the one on that finds the file of that comment changed, whatever else happens in between. -/
theorem invalidation_exact (events : List Event) (ht : ∀ e ∈ events, e.Timely) :
    let l := run start events
    (∀ document, document ∈ l.index.pending ↔ ∃ a ∈ l.failed, a.Due document) ∧
    (∀ c root d watched documents, (l.index.update c root d watched).result = .ok documents →
      (∀ document, document ∈ documents ↔
        ∃ a ∈ ⟨l.index, d, watched⟩ :: l.failed, a.Due document) ∧
      (l.index.update c root d watched).index.pending = ∅ ∧
      ((l.index.update c root d watched).index.update c root d watched).result = .ok ∅) ∧
    (∀ c root d watched e, (l.index.update c root d watched).result = .error e →
      ∀ document, document ∈ (l.index.update c root d watched).index.pending ↔
        ∃ a ∈ ⟨l.index, d, watched⟩ :: l.failed, a.Due document) ∧
    ∀ options document context signature comment,
      (l.index.lookup options document context signature).2 = .found comment →
      ∃ content, (comment.file, content) ∈ l.index.files.toList ∧
        ∀ spared d watched, (∀ e ∈ spared, e.Timely) →
          Throughout (Spares document (comment.file, content))
            ((lookup options document context signature).apply l) spared →
          ¬Index.Kept d watched (comment.file, content) →
          let l₁ := run ((lookup options document context signature).apply l) spared
          (∀ c root documents, (l₁.index.update c root d watched).result = .ok documents →
            document ∈ documents) ∧
          ∀ c root deferred, (∀ e ∈ deferred, e.Timely) →
            (∀ p ∈ watched, ∀ t, d.modified? p = some t → t.Normal) →
            Throughout (Defers ⟨l₁.index, d, watched⟩) l₁ (update c root d watched :: deferred) →
            ∀ c' root' d' watched' documents,
              ((run l₁ (update c root d watched :: deferred)).index.update c' root' d'
                watched').result = .ok documents →
              document ∈ documents := by
  intro l
  have named {l : Ledger} (hl : l.Sound) {c : Config} {root : Path} {d : Disk}
      {watched : List Path} {documents : Documents}
      (h : (l.index.update c root d watched).result = .ok documents) (document : String) :
      document ∈ documents ↔ ∃ a ∈ ⟨l.index, d, watched⟩ :: l.failed, a.Due document := by
    rw [(Index.mem_result_iff h).1, hl.balanced document, or_comm]
    simp only [List.mem_cons, exists_eq_or_imp]
  have hl : l.Sound := sound_run sound_start ht
  refine ⟨hl.balanced, fun c root d watched documents h => ?_, fun c root d watched e h => ?_, ?_⟩
  · exact ⟨named hl h, (Index.mem_result_iff h).2, Index.update_again h⟩
  · exact hl.balanced.fail h
  · intro options document context signature comment hfound
    obtain ⟨content, hremembers⟩ := remembers_of_lookup hl hfound
    refine ⟨content, ?_, fun spared d watched hspared hspares hchanged => ?_⟩
    · have hindexed := hremembers.indexed
      rwa [apply, (l.index.lookup_frame options document context signature).1] at hindexed
    have hl₀ := sound_apply hl (.lookup options document context signature) trivial
    have hl₁ := sound_run hl₀ hspared
    have hremembers₁ := remembers_run hl₀ hremembers hspared hspares
    intro l₁
    have hdue : Attempt.Due ⟨l₁.index, d, watched⟩ document :=
      ⟨_, hremembers₁.indexed, hchanged, hremembers₁.rests⟩
    constructor
    · intro c root documents h
      exact (named hl₁ h document).2 ⟨_, List.mem_cons_self, hdue⟩
    · intro c root deferred hdeferred htime hdefers c' root' d' watched' documents h
      obtain ⟨⟨e, he⟩, hdefers⟩ := hdefers
      have hl₂ := sound_apply hl₁ (.update c root d watched) htime
      have hfailed : (⟨l₁.index, d, watched⟩ : Attempt) ∈
          ((update c root d watched).apply l₁).failed := by
        unfold apply
        dsimp only
        rw [he]
        exact List.mem_cons_self
      have hstill := mem_failed_run hfailed hdefers
      exact (named (sound_run hl₂ hdeferred) h document).2
        ⟨_, List.mem_cons_of_mem _ hstill, hdue⟩

/-- An update of a header, behind which a document is said to rest on it. -/
def headerEvents : List Event :=
  [.update .default ⟨"/"⟩ ⟨.directory [("a.h", .file [] ⟨1, 0⟩)], []⟩ [⟨"/a.h"⟩],
    .record "guide" ⟨"/a.h"⟩]

/-- Whether a document is held back for a header depends on the updates that failed. -/
theorem invalidation_exact_header :
    "guide" ∈ (run start headerEvents).index.pending ↔
      ∃ a ∈ (run start headerEvents).failed, a.Due "guide" := by
  refine (invalidation_exact headerEvents ?_).1 "guide"
  intro e he
  simp only [headerEvents, List.mem_cons, List.not_mem_nil, or_false] at he
  rcases he with rfl | rfl
  · intro p hp t ht
    rw [List.mem_singleton.1 hp] at ht
    cases ht
    exact ⟨by decide, by decide⟩
  · trivial

end Event

end DocIndex
