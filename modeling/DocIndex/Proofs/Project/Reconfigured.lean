import DocIndex.Proofs.Project.Commands
import DocIndex.Proofs.Project.History

/-!
# When a changed configuration takes effect

Whether a cached file is scanned again is decided by its time alone. So a change to the arguments or
to the options of scans takes effect with the files that are scanned again, and with no others.

* `Index.mem_update_iff` — what is indexed behind an update, whatever the index held before.
* `inForce` — the configuration that a file is indexed with when a session is started with another
  one.
* `content_of_reopened` — **what such a session indexes.**
* `stale_content` — a header that keeps what it was scanned to, though it would scan to something
  else.
-/

namespace DocIndex

open Std (TreeMap)

/-- The configurations differ in nothing but the arguments and the options of scans. -/
def Config.OnlyScansDiffer (c c' : Config) : Prop :=
  c' = { c with defaultArgs := c'.defaultArgs, fileArgs := c'.fileArgs, scan := c'.scan }

/-- The configuration without a cache. -/
def Config.uncached (c : Config) : Config :=
  { c with cache := ⟨""⟩ }

theorem Config.OnlyScansDiffer.cacheFile?_eq {c c' : Config} (h : c.OnlyScansDiffer c')
    (root : Path) : c'.cacheFile? root = c.cacheFile? root := by
  rw [h]
  rfl

namespace Index

variable {x : Index} {c : Config} {root : Path} {d : Disk} {watched : List Path}
  {documents : Documents}

/-- **What is indexed behind an update that succeeds**, whatever the index held: the files that are
kept, and scans of those for which none is kept. -/
theorem mem_update_iff (h : (x.update c root d watched).result = .ok documents)
    {e : Path × FileComments} :
    e ∈ (x.update c root d watched).index.files.toList ↔
      (Kept d watched e ∧ e ∈ x.files.toList) ∨
        (e.1 ∈ watched ∧ c.scanAt root d e.1 = .ok e.2 ∧
          ∀ k ∈ x.files.toList, Kept d watched k → ¬compare e.1 k.1 = .eq) := by
  obtain ⟨done, files, -, hfiles, hz, hdone⟩ := refreshed_spec x c root d watched
  obtain ⟨z, hr, hindex, -⟩ := refreshed_of_ok h
  rw [hr] at hz hdone
  rw [hdone rfl] at hfiles
  rw [hindex]
  change e ∈ z.files.toList ↔ _
  -- a path is missing if no file is left at it
  have hmissing : (x.dropStale d watched).files[e.1]? = none ↔
      ∀ k ∈ x.files.toList, Kept d watched k → ¬compare e.1 k.1 = .eq := by
    simp only [Maps.getElem?_eq_none_iff, mem_dropStale, and_imp]
    exact forall_congr' fun k => forall_comm
  rw [(addAll_frame hz).1.mem_iff, List.mem_append, mem_scanned hfiles, mem_dropStale,
    mem_missingPaths, or_comm, hmissing, and_assoc, and_comm (b := c.scanAt root d e.1 = _)]

/-- An update that keeps every watched file has nothing to scan, and succeeds. -/
theorem exists_update_of_kept
    (h : ∀ p ∈ watched, ∃ e ∈ x.files.toList, compare p e.1 = .eq ∧ Kept d watched e) :
    ∃ documents, (x.update c root d watched).result = .ok documents := by
  have hmissing : (x.dropStale d watched).missingPaths watched = [] := by
    refine List.eq_nil_iff_forall_not_mem.2 fun p hp => ?_
    obtain ⟨hp, hnone⟩ := mem_missingPaths.1 hp
    obtain ⟨e, he, hpe, hkept⟩ := h p hp
    exact Maps.getElem?_eq_none_iff.1 hnone e (mem_dropStale.2 ⟨hkept, he⟩) hpe
  have hrefreshed : x.refreshed c root d watched = (x.dropStale d watched, none) := by
    rw [refreshed, hmissing]
    rfl
  exact ⟨_, (update_of_refreshed_ok hrefreshed).2⟩

/-- Behind an update that succeeds, every watched file has a scan. -/
theorem Agrees.exists_scan (hx : x.Agrees c root d watched) (hw : Distinct watched)
    (h : (x.update c root d watched).result = .ok documents) {p : Path} (hp : p ∈ watched) :
    ∃ f, c.scanAt root d p = .ok f := by
  obtain ⟨scanned, hscanned, -, -⟩ := hx.of_update_ok hw h
  rw [← map_fst_scanned hscanned] at hp
  obtain ⟨e, he, rfl⟩ := List.mem_map.1 hp
  exact ⟨e.2, ((mem_scanned hscanned).1 he).2⟩

end Index

namespace Workplace

variable {c c' : Config} {root path : Path} {calls : List Call} {d e d' : Disk} {s : Session}
  {now : Timestamp} {documents documents' : Documents}

/-! ## What a session starts from -/

/-- The index that a session starts from is the one that was saved in its cache. -/
theorem start_of_close (hcache : c.cacheFile? root = some path) (hroot : s.root = root)
    (hconfig : s.config = c) (hcoherent : s.index.Coherent) (hstorable : s.index.Storable)
    (hfits : s.index.Fits) (hclose : s.close d now = .ok e) (hread : d'.read path = e.read path)
    (hsame : c'.cacheFile? root = c.cacheFile? root) :
    (Session.start d' root c').index.files.toList = s.index.files.toList := by
  rw [Session.close, hroot, hconfig, hcache] at hclose
  obtain ⟨y, hload, hrestores⟩ := (Index.load_of_save hcoherent hstorable hclose).1 hfits
  have hcached : c'.cached? d' root = some y := by
    rw [Config.cached?, hsame, hcache, Option.bind_some, Index.load, hread, ← Index.load, hload]
  change ((c'.cached? d' root).getD .empty).files.toList = _
  rw [hcached]
  exact hrestores.files

/-- Without a cache, a session starts from nothing, and every file is scanned. -/
theorem scan_of_uncached (hw : Index.Distinct (c.watched d root))
    (h : ((Session.start d root c.uncached).refresh d).2.result = .ok documents)
    {f : Path × FileComments}
    (hf : f ∈ ((Session.start d root c.uncached).refresh d).1.index.files.toList) :
    c.scanAt root d f.1 = .ok f.2 := by
  have hstart : Session.start d root c.uncached = ⟨root, c.uncached, .empty⟩ := rfl
  rw [hstart] at h hf
  exact ((Index.agrees_empty.mem_files_of_update hw h).1 hf).2

/-! ## What another configuration leads to -/

/-- A session with the configuration `c` is refreshed on the disk `d` and closed, and another one
with `c'` is started behind it, on the disk `d'`. Files may have been changed in between, but not
the cache. Line numbers fit into 32 bits. -/
structure Reopened (c c' : Config) (root : Path) (calls : List Call) (d : Disk) (s : Session)
    (d' : Disk) : Prop where
  differ : c.OnlyScansDiffer c'
  reached : Reached c root calls ⟨d, some s⟩
  regular : Regular (⟨d', c'.watched d' root⟩ :: ⟨d, c.watched d root⟩ :: calls)
  refreshed : ∃ documents, (s.refresh d).2.result = .ok documents
  fits : (s.refresh d).1.index.Fits
  closed : ∃ path now e, c.cacheFile? root = some path ∧
    (s.refresh d).1.close d now = .ok e ∧ d'.read path = e.read path

/-- A file is spared if the session with `c` watched it on the disk `d`, and it has the same time on
the disk `d'`. -/
def Spared (c : Config) (root : Path) (d d' : Disk) (p : Path) : Prop :=
  p ∈ c.watched d root ∧ d'.modified? p = d.modified? p

instance (c : Config) (root : Path) (d d' : Disk) (p : Path) : Decidable (Spared c root d d' p) :=
  inferInstanceAs (Decidable (_ ∧ _))

/-- The configuration that a file is indexed with: the old one, as long as the file is spared. -/
def inForce (c c' : Config) (root : Path) (d d' : Disk) (p : Path) : Config :=
  if Spared c root d d' p then c else c'

namespace Reopened

/-- What the first session left are the scans of all files that it watched. -/
theorem mem_left_iff (h : Reopened c c' root calls d s d') {k : Path × FileComments} :
    k ∈ (s.refresh d).1.index.files.toList ↔
      k.1 ∈ c.watched d root ∧ c.scanAt root d k.1 = .ok k.2 := by
  obtain ⟨rfl, rfl, htracks⟩ := (sound_of_reached h.reached h.regular.tail.tail).session s rfl
  obtain ⟨documents, hrefresh⟩ := h.refreshed
  exact (htracks.agrees h.regular.tail).mem_files_of_update
    (h.regular.tail.distinct List.mem_cons_self) hrefresh

/-- And it left one for each of them. -/
theorem exists_left (h : Reopened c c' root calls d s d') {p : Path}
    (hp : p ∈ c.watched d root) : ∃ k, c.scanAt root d p = .ok k := by
  obtain ⟨rfl, rfl, htracks⟩ := (sound_of_reached h.reached h.regular.tail.tail).session s rfl
  obtain ⟨documents, hrefresh⟩ := h.refreshed
  exact (htracks.agrees h.regular.tail).exists_scan
    (h.regular.tail.distinct List.mem_cons_self) hrefresh hp

/-- The second session starts from what the first one left. -/
theorem start_eq (h : Reopened c c' root calls d s d') :
    (Session.start d' root c').index.files.toList = (s.refresh d).1.index.files.toList := by
  obtain ⟨rfl, rfl, htracks⟩ := (sound_of_reached h.reached h.regular.tail.tail).session s rfl
  obtain ⟨path, now, e, hcache, hclose, hread⟩ := h.closed
  have hleft : Tracks s.config s.root (⟨d, s.config.watched d s.root⟩ :: calls)
      (s.refresh d).1.index := htracks.update
  exact start_of_close (s := (s.refresh d).1) hcache rfl rfl hleft.coherent
    (hleft.storable h.regular.tail) h.fits hclose hread (h.differ.cacheFile?_eq s.root)

theorem spelled (h : Reopened c c' root calls d s d') {p q : Path}
    (hp : p ∈ c'.watched d' root) (hq : q ∈ c.watched d root) (he : compare p q = .eq) : p = q :=
  h.regular.spelled _ List.mem_cons_self _ (List.mem_cons_of_mem _ List.mem_cons_self) p hp q hq he

/-- A file that is spared scans to what it scanned to. -/
theorem scan_of_spared (h : Reopened c c' root calls d s d') {p : Path}
    (hp : p ∈ c'.watched d' root) (hspared : Spared c root d d' p) {k : FileComments}
    (hk : c.scanAt root d p = .ok k) : c.scanAt root d' p = .ok k := by
  obtain ⟨hold, hsame⟩ := hspared
  have hmodified := (Disk.scan_ok hk).1
  have hbytes := h.regular.stamped _ (List.mem_cons_of_mem _ List.mem_cons_self) _
    List.mem_cons_self p hold hp _ hmodified (hsame.trans hmodified)
  rw [Config.scanAt, Disk.scan_congr hbytes hsame]
  exact hk

/-- The second session keeps what the first one left of a file exactly if the file is spared. -/
theorem kept_iff (h : Reopened c c' root calls d s d') {k : Path × FileComments}
    (hk : k ∈ (s.refresh d).1.index.files.toList) :
    Index.Kept d' (c'.watched d' root) k ↔ k.1 ∈ c'.watched d' root ∧ Spared c root d d' k.1 := by
  obtain ⟨hold, hscan⟩ := h.mem_left_iff.1 hk
  have hmodified := (Disk.scan_ok hscan).1
  constructor
  · rintro ⟨⟨p, hp, hpk⟩, htime⟩
    exact ⟨h.spelled hp hold hpk ▸ hp, hold, htime.trans hmodified.symm⟩
  · rintro ⟨hp, -, hsame⟩
    exact ⟨⟨k.1, hp, Std.ReflCmp.compare_self⟩, hsame.trans hmodified⟩

/-- What the second session indexes. -/
theorem mem_files_iff (h : Reopened c c' root calls d s d')
    (hrefresh' : ((Session.start d' root c').refresh d').2.result = .ok documents')
    {f : Path × FileComments} :
    f ∈ ((Session.start d' root c').refresh d').1.index.files.toList ↔
      f.1 ∈ c'.watched d' root ∧
        (inForce c c' root d d' f.1).scanAt root d' f.1 = .ok f.2 := by
  have hlisted := Index.mem_update_iff hrefresh' (e := f)
  rw [h.start_eq] at hlisted
  refine hlisted.trans ?_
  change Index.Kept d' (c'.watched d' root) f ∧ _ ∨ f.1 ∈ c'.watched d' root ∧
    c'.scanAt root d' f.1 = .ok f.2 ∧ _ ↔ _
  unfold inForce
  by_cases hspared : Spared c root d d' f.1
  · rw [if_pos hspared]
    obtain ⟨k, hk⟩ := h.exists_left hspared.1
    have hleft : (f.1, k) ∈ (s.refresh d).1.index.files.toList :=
      h.mem_left_iff.2 ⟨hspared.1, hk⟩
    constructor
    · rintro (⟨hkept, hf⟩ | ⟨hp, -, hnone⟩)
      · have hp := ((h.kept_iff hf).1 hkept).1
        exact ⟨hp, h.scan_of_spared hp hspared (h.mem_left_iff.1 hf).2⟩
      · -- it is kept, so that it was not scanned again
        exact absurd Std.ReflCmp.compare_self
          (hnone (f.1, k) hleft ((h.kept_iff hleft).2 ⟨hp, hspared⟩))
    · rintro ⟨hp, hscan⟩
      rw [h.scan_of_spared hp hspared hk] at hscan
      have hf : f ∈ (s.refresh d).1.index.files.toList := by
        rw [← Prod.mk.eta (p := f), ← Except.ok.inj hscan]
        exact hleft
      exact Or.inl ⟨(h.kept_iff hf).2 ⟨hp, hspared⟩, hf⟩
  · rw [if_neg hspared]
    constructor
    · rintro (⟨hkept, hf⟩ | ⟨hp, hscan, -⟩)
      · exact absurd ((h.kept_iff hf).1 hkept).2 hspared
      · exact ⟨hp, hscan⟩
    · rintro ⟨hp, hscan⟩
      refine Or.inr ⟨hp, hscan, fun k hk hkept he => hspared ?_⟩
      rw [h.spelled hp (h.mem_left_iff.1 hk).1 he]
      exact ((h.kept_iff hk).1 hkept).2

/-- Where all files are spared, the second session can be refreshed. -/
theorem exists_refresh (h : Reopened c c' root calls d s d')
    (hspared : ∀ p ∈ c'.watched d' root, Spared c root d d' p) :
    ∃ documents, ((Session.start d' root c').refresh d').2.result = .ok documents := by
  refine Index.exists_update_of_kept fun p hp => ?_
  rw [h.start_eq]
  obtain ⟨k, hk⟩ := h.exists_left (hspared p hp).1
  have hleft : (p, k) ∈ (s.refresh d).1.index.files.toList :=
    h.mem_left_iff.2 ⟨(hspared p hp).1, hk⟩
  exact ⟨(p, k), hleft, Std.ReflCmp.compare_self, (h.kept_iff hleft).2 ⟨hp, hspared p hp⟩⟩

end Reopened

/-- **A changed configuration takes effect with the files that are scanned again.** Behind a session
with the configuration `c`, one with `c'` is started and refreshed. The indexed files are then the
watched ones: those that are spared hold what they scan to with `c`, whatever `c'` says, and the
others what they scan to with `c'`. So all of them hold what they scan to with `c'` exactly if this
is what the spared ones scan to with `c`, too. Without a cache, all of them do. -/
theorem content_of_reopened (h : Reopened c c' root calls d s d')
    (hrefresh' : ((Session.start d' root c').refresh d').2.result = .ok documents') :
    let files := ((Session.start d' root c').refresh d').1.index.files.toList
    (∀ f, f ∈ files ↔ f.1 ∈ c'.watched d' root ∧
        (inForce c c' root d d' f.1).scanAt root d' f.1 = .ok f.2) ∧
      ((∀ f ∈ files, c'.scanAt root d' f.1 = .ok f.2) ↔
        ∀ p ∈ c'.watched d' root, Spared c root d d' p →
          c'.scanAt root d' p = c.scanAt root d' p) ∧
      ∀ documents'',
        ((Session.start d' root c'.uncached).refresh d').2.result = .ok documents'' →
        ∀ f ∈ ((Session.start d' root c'.uncached).refresh d').1.index.files.toList,
          c'.scanAt root d' f.1 = .ok f.2 := by
  intro files
  have hfiles : ∀ f, f ∈ files ↔ f.1 ∈ c'.watched d' root ∧
      (inForce c c' root d d' f.1).scanAt root d' f.1 = .ok f.2 :=
    fun f => h.mem_files_iff hrefresh'
  refine ⟨hfiles, ⟨fun hall p hp hspared => ?_, fun hsame f hf => ?_⟩, ?_⟩
  · -- a file that is spared has a scan, since the first session could be refreshed
    obtain ⟨k, hk⟩ := h.exists_left hspared.1
    have hk' := h.scan_of_spared hp hspared hk
    have hmem : (p, k) ∈ files := by
      rw [hfiles, inForce, if_pos hspared]
      exact ⟨hp, hk'⟩
    rw [hk']
    exact hall _ hmem
  · obtain ⟨hp, hscan⟩ := (hfiles f).1 hf
    by_cases hspared : Spared c root d d' f.1
    · rw [inForce, if_pos hspared] at hscan
      rw [hsame f.1 hp hspared]
      exact hscan
    · rw [inForce, if_neg hspared] at hscan
      exact hscan
  · intro documents'' hrefresh'' f hf
    exact scan_of_uncached (h.regular.distinct List.mem_cons_self) hrefresh'' hf

/-! ### A macro that becomes known -/

/-- A header that declares something by a macro. -/
def macroHeader : Disk :=
  diskOf [("f.h", .file "/// Declares Foo.
DECLARE(Foo);
".toUTF8.toList ⟨1000, 0⟩)]

/-- The configuration that knows the macro. -/
def knowsMacro : Config :=
  { Config.default with defaultArgs := ["-DDECLARE(x)="] }

/-- The first session on the header. -/
def macroSession : Session :=
  .start macroHeader ⟨"/"⟩ .default

/-- The disk behind it. -/
def macroDisk : Disk :=
  diskAfterClose macroHeader (macroSession.refresh macroHeader).1 ⟨2000, 0⟩

theorem close_macroSession :
    (macroSession.refresh macroHeader).1.close macroHeader ⟨2000, 0⟩ = .ok macroDisk := by
  obtain ⟨e, hclose⟩ : ∃ e,
      (macroSession.refresh macroHeader).1.close macroHeader ⟨2000, 0⟩ = .ok e :=
    Fallible.exists_ok (by decide +kernel)
  rw [macroDisk, diskAfterClose, hclose]
  rfl

theorem refresh_macroSession :
    ∃ documents, (macroSession.refresh macroHeader).2.result = .ok documents :=
  Fallible.exists_ok (by decide +kernel)

/-- The header is what it was, and the cache is no source. -/
theorem macroDisk_alike :
    knowsMacro.watched macroDisk ⟨"/"⟩ = [⟨"/f.h"⟩] ∧
      Config.default.watched macroHeader ⟨"/"⟩ = [⟨"/f.h"⟩] ∧
      macroDisk.modified? ⟨"/f.h"⟩ = some ⟨1000, 0⟩ ∧
      macroHeader.modified? ⟨"/f.h"⟩ = some ⟨1000, 0⟩ ∧
      macroDisk.read ⟨"/f.h"⟩ = macroHeader.read ⟨"/f.h"⟩ := by
  decide +kernel

theorem regular_declare :
    Regular [⟨macroDisk, knowsMacro.watched macroDisk ⟨"/"⟩⟩,
      ⟨macroHeader, Config.default.watched macroHeader ⟨"/"⟩⟩] := by
  obtain ⟨hwatched', hwatched, htime', htime, hread⟩ := macroDisk_alike
  rw [hwatched, hwatched']
  refine ⟨?_, ?_, ?_, ?_⟩ <;>
    simp only [List.forall_mem_cons, List.not_mem_nil, false_implies, implies_true, and_true,
      htime, htime', hread]
  · exact ⟨List.nodup_singleton _, List.nodup_singleton _⟩
  · rw [and_self]
    rintro t ⟨⟩
    exact ⟨by decide, by decide⟩

theorem reopened_declare :
    Reopened .default knowsMacro ⟨"/"⟩ [] macroHeader macroSession macroDisk where
  differ := rfl
  reached := .start (.initial fun path hp => ⟨.notFound, by
    have hcache : Config.default.cacheFile? ⟨"/"⟩ = some ⟨"/.doccomb-cache.json"⟩ := by decide
    rw [hcache] at hp
    cases hp
    rfl⟩)
  regular := regular_declare
  refreshed := refresh_macroSession
  fits := by decide +kernel
  closed := ⟨⟨"/.doccomb-cache.json"⟩, ⟨2000, 0⟩, macroDisk, by decide, close_macroSession, rfl⟩

theorem spared_declare :
    ∀ p ∈ knowsMacro.watched macroDisk ⟨"/"⟩,
      Spared .default ⟨"/"⟩ macroHeader macroDisk p := by
  obtain ⟨hwatched', hwatched, htime', htime, -⟩ := macroDisk_alike
  intro p hp
  rw [hwatched', List.mem_singleton] at hp
  rw [hp, Spared, hwatched, htime', htime]
  exact ⟨List.mem_singleton_self _, rfl⟩

/-- The header holds what is scanned with `knowsMacro` exactly if it did before. -/
theorem content_of_reopened_declare :
    (∀ f ∈ ((Session.start macroDisk ⟨"/"⟩ knowsMacro).refresh macroDisk).1.index.files.toList,
        knowsMacro.scanAt ⟨"/"⟩ macroDisk f.1 = .ok f.2) ↔
      ∀ p ∈ knowsMacro.watched macroDisk ⟨"/"⟩,
        Spared .default ⟨"/"⟩ macroHeader macroDisk p →
          knowsMacro.scanAt ⟨"/"⟩ macroDisk p = Config.default.scanAt ⟨"/"⟩ macroDisk p := by
  obtain ⟨documents, hrefresh⟩ := reopened_declare.exists_refresh spared_declare
  exact (content_of_reopened reopened_declare hrefresh).2.1

/-- **A change that does not take effect.** The header is indexed with the comment for `DECLARE(Foo)`
by a session that takes this for a declaration, and keeps it behind one that knows `DECLARE` for a
macro, though it scans to no comment then. -/
theorem stale_content :
    ¬∀ (c c' : Config) (root : Path) (d d' : Disk) (now : Timestamp),
      c.OnlyScansDiffer c' → (c.cacheFile? root).isSome = true →
      (∃ documents, ((Session.start d root c).refresh d).2.result = .ok documents) →
      ((Session.start d root c).refresh d).1.close d now = .ok d' →
      (∃ documents, ((Session.start d' root c').refresh d').2.result = .ok documents) →
      ∀ f ∈ ((Session.start d' root c').refresh d').1.index.files.toList,
        c'.scanAt root d' f.1 = .ok f.2 := by
  intro hclaim
  have hrefresh' := reopened_declare.exists_refresh spared_declare
  have hall := hclaim .default knowsMacro ⟨"/"⟩ macroHeader macroDisk ⟨2000, 0⟩ rfl (by decide)
    refresh_macroSession close_macroSession hrefresh'
  obtain ⟨hwatched', hwatched, htime', htime, hread⟩ := macroDisk_alike
  -- the header is kept with its comment
  have hheader : (⟨"/f.h"⟩ : Path) ∈ knowsMacro.watched macroDisk ⟨"/"⟩ := by
    rw [hwatched']
    exact List.mem_singleton_self _
  have hspared := spared_declare _ hheader
  obtain ⟨k, hk⟩ := reopened_declare.exists_left hspared.1
  obtain ⟨documents, hrefresh'⟩ := hrefresh'
  have hkept := (reopened_declare.mem_files_iff hrefresh' (f := (⟨"/f.h"⟩, k))).2 ⟨hheader, by
    rw [inForce, if_pos hspared]
    exact reopened_declare.scan_of_spared hheader hspared hk⟩
  have hnew := hall _ hkept
  rw [Config.scanAt, Disk.scan_congr hread (htime'.trans htime.symm)] at hnew
  -- the scans are told apart by the number of their comments
  have hcounts : (Config.default.scanAt ⟨"/"⟩ macroHeader ⟨"/f.h"⟩).toOption.map
      (·.directiveComments.length) ≠
        (knowsMacro.scanAt ⟨"/"⟩ macroHeader ⟨"/f.h"⟩).toOption.map
          (·.directiveComments.length) := by decide +kernel
  exact hcounts (by rw [hk, Config.scanAt, hnew])

end Workplace

end DocIndex
