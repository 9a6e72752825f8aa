import DocIndex.Project.Session
import DocIndex.Proofs.Index.Cache
import DocIndex.Proofs.Project.Update

/-!
# Sessions over the history of a project

Sessions on a project are opened, refreshed and closed, while its files are changed between these
steps. `Reached` says which states this leads to, and which updates were made on the way. Whatever
happened, the index holds nothing but scans that one of these updates made (`Tracks`), and so does
the cache.

* `Tracks.agrees` — such an index agrees with every disk whose files keep their bytes as long as
  they keep their times.
* `sound_of_reached` — **every index that is reached tracks the updates.**
* `refresh_as_rebuild` — **refreshing is as good as building the index anew.**
-/

namespace DocIndex

open Std (TreeMap)

/-- A disk, and the session that is open on it, if there is one. -/
structure Workplace where
  disk : Disk
  session : Option Session

/-- An update: what the disk is like, and which files are watched. -/
structure Call where
  disk : Disk
  watched : List Path

namespace Workplace

variable {c : Config} {root : Path}

/-- The cache file, if there is one, is as it was, or cannot be read. -/
def CacheUntouched (c : Config) (root : Path) (d d' : Disk) : Prop :=
  ∀ path, c.cacheFile? root = some path →
    d'.read path = d.read path ∨ ∃ fault, d'.read path = .error fault

/-- The disk behind the end of a session; a cache that cannot be written leaves it as it is. -/
def diskAfterClose (d : Disk) (s : Session) (now : Timestamp) : Disk :=
  (s.close d now).toOption.getD d

/-- What sessions on a project and changes to its files lead to, and the updates made on the way,
the last one in front. No one else writes the cache. -/
inductive Reached (c : Config) (root : Path) : List Call → Workplace → Prop
  | initial {d : Disk} (h : ∀ path, c.cacheFile? root = some path →
      ∃ fault, d.read path = .error fault) : Reached c root [] ⟨d, none⟩
  | edit {calls : List Call} {w : Workplace} {d : Disk} (hw : Reached c root calls w)
      (h : CacheUntouched c root w.disk d) : Reached c root calls { w with disk := d }
  | start {calls : List Call} {w : Workplace} (hw : Reached c root calls w) :
      Reached c root calls { w with session := some (.start w.disk root c) }
  | refresh {calls : List Call} {w : Workplace} {s : Session} (hw : Reached c root calls w)
      (hs : w.session = some s) :
      Reached c root (⟨w.disk, s.config.watched w.disk s.root⟩ :: calls)
        { w with session := some (s.refresh w.disk).1 }
  | refreshWith {calls : List Call} {w : Workplace} {s : Session} {watched : List Path}
      (hw : Reached c root calls w) (hs : w.session = some s) :
      Reached c root (⟨w.disk, watched⟩ :: calls)
        { w with session := some (s.refreshWith w.disk watched).1 }
  | lookup {calls : List Call} {w : Workplace} {s : Session} {document : String}
      {context : DocContext} {signature : String} (hw : Reached c root calls w)
      (hs : w.session = some s) :
      Reached c root calls { w with session := some (s.lookup document context signature).1 }
  | forget {calls : List Call} {w : Workplace} {s : Session} {document : String}
      (hw : Reached c root calls w) (hs : w.session = some s) :
      Reached c root calls { w with session := some (s.forget document) }
  | close {calls : List Call} {w : Workplace} {s : Session} {now : Timestamp}
      (hw : Reached c root calls w) (hs : w.session = some s) :
      Reached c root calls { disk := diskAfterClose w.disk s now, session := none }

/-- Paths are always spelled the same way, no file is watched twice, and a file that has the same
time at two updates has the same bytes. -/
structure Regular (calls : List Call) : Prop where
  spelled : ∀ k ∈ calls, ∀ k' ∈ calls, ∀ p ∈ k.watched, ∀ p' ∈ k'.watched,
    compare p p' = .eq → p = p'
  nodup : ∀ k ∈ calls, k.watched.Nodup
  stamped : ∀ k ∈ calls, ∀ k' ∈ calls, ∀ p ∈ k.watched, p ∈ k'.watched → ∀ t,
    k.disk.modified? p = some t → k'.disk.modified? p = some t → k'.disk.read p = k.disk.read p
  normal : ∀ k ∈ calls, ∀ p ∈ k.watched, ∀ t, k.disk.modified? p = some t → t.Normal

theorem Regular.tail {k : Call} {calls : List Call} (h : Regular (k :: calls)) : Regular calls where
  spelled k₁ h₁ k₂ h₂ := h.spelled k₁ (List.mem_cons_of_mem _ h₁) k₂ (List.mem_cons_of_mem _ h₂)
  nodup k₁ h₁ := h.nodup k₁ (List.mem_cons_of_mem _ h₁)
  stamped k₁ h₁ k₂ h₂ := h.stamped k₁ (List.mem_cons_of_mem _ h₁) k₂ (List.mem_cons_of_mem _ h₂)
  normal k₁ h₁ := h.normal k₁ (List.mem_cons_of_mem _ h₁)

theorem Regular.distinct {k : Call} {calls : List Call} (h : Regular calls) (hk : k ∈ calls) :
    Index.Distinct k.watched :=
  (h.nodup k hk).imp_of_mem fun hp hq hne he => hne (h.spelled k hk k hk _ hp _ hq he)

/-- Every file that is indexed was watched by one of the updates, and is what that one scanned. -/
structure Tracks (c : Config) (root : Path) (calls : List Call) (x : Index) : Prop where
  coherent : x.Coherent
  scanned : ∀ e ∈ x.files.toList, ∃ k ∈ calls, e.1 ∈ k.watched ∧
    c.scanAt root k.disk e.1 = .ok e.2

namespace Tracks

variable {calls : List Call} {k : Call} {x y : Index}

theorem empty : Tracks c root calls .empty :=
  ⟨Index.coherent_empty, nofun⟩

theorem mono (h : Tracks c root calls x) : Tracks c root (k :: calls) x where
  coherent := h.coherent
  scanned e he := by
    obtain ⟨k', hk', hs⟩ := h.scanned e he
    exact ⟨k', List.mem_cons_of_mem _ hk', hs⟩

theorem congr (h : Tracks c root calls x) (hy : y.Coherent)
    (hf : y.files.toList = x.files.toList) : Tracks c root calls y where
  coherent := hy
  scanned e he := h.scanned e (hf ▸ he)

/-- **The index agrees with every disk on which files keep their bytes as long as their times.** -/
theorem agrees (h : Tracks c root calls x) (hr : Regular (k :: calls)) :
    x.Agrees c root k.disk k.watched where
  coherent := h.coherent
  spelled e he p hp hpe := by
    obtain ⟨k', hk', hw, -⟩ := h.scanned e he
    exact hr.spelled k List.mem_cons_self k' (List.mem_cons_of_mem _ hk') p hp _ hw hpe
  scan_eq e he hkept := by
    obtain ⟨k', hk', hw, hs⟩ := h.scanned e he
    have hk' := List.mem_cons_of_mem k hk'
    obtain ⟨⟨p, hp, hpe⟩, hmodified⟩ := hkept
    have hwatched : e.1 ∈ k.watched :=
      hr.spelled k List.mem_cons_self k' hk' p hp _ hw hpe ▸ hp
    have hmodified' := (Disk.scan_ok hs).1
    have hread := hr.stamped k' hk' k List.mem_cons_self _ hw hwatched _ hmodified' hmodified
    rw [Config.scanAt, Disk.scan_congr hread (hmodified.trans hmodified'.symm)]
    exact hs

/-- An update keeps track of itself. -/
theorem update (h : Tracks c root calls x) :
    Tracks c root (k :: calls) (x.update c root k.disk k.watched).index where
  coherent := Index.coherent_update h.coherent
  scanned e he := by
    rcases Index.mem_files_update he with ⟨-, he⟩ | ⟨hw, hs⟩
    · exact h.mono.scanned e he
    · exact ⟨k, List.mem_cons_self, hw, hs⟩

theorem storable (h : Tracks c root calls x) (hr : Regular calls) : x.Storable := by
  intro e he
  obtain ⟨k, hk, hw, hs⟩ := h.scanned e he
  obtain ⟨hmodified, hfiled⟩ := Disk.scan_ok hs
  exact ⟨fun d hd => (hfiled d hd).canonical, hr.normal k hk _ hw _ hmodified⟩

end Tracks

/-- The cached index, if one can be loaded, tracks the updates. -/
def CacheTracks (c : Config) (root : Path) (calls : List Call) (d : Disk) : Prop :=
  ∀ path, c.cacheFile? root = some path → ∀ y, Index.load d path = .ok (some y) →
    Tracks c root calls y

namespace CacheTracks

variable {calls : List Call} {k : Call} {d d' : Disk}

theorem mono (h : CacheTracks c root calls d) : CacheTracks c root (k :: calls) d :=
  fun path hp y hy => (h path hp y hy).mono

theorem of_unreadable (h : ∀ path, c.cacheFile? root = some path →
    ∃ fault, d.read path = .error fault) : CacheTracks c root calls d := by
  intro path hp y hy
  obtain ⟨fault, hf⟩ := h path hp
  rw [Index.load, hf] at hy
  cases fault <;> cases hy

theorem edit (h : CacheTracks c root calls d) (hd : CacheUntouched c root d d') :
    CacheTracks c root calls d' := by
  intro path hp y hy
  rcases hd path hp with hread | ⟨fault, hf⟩
  · rw [Index.load, hread] at hy
    exact h path hp y hy
  · rw [Index.load, hf] at hy
    cases fault <;> cases hy

/-- A session that starts from the cache tracks the updates. -/
theorem start (h : CacheTracks c root calls d) :
    Tracks c root calls (Session.start d root c).index := by
  have hindex : (Session.start d root c).index = (c.cached? d root).getD .empty := rfl
  rw [hindex]
  cases hc : c.cached? d root with
  | none => exact .empty
  | some y =>
    obtain ⟨path, hp, hy⟩ := Option.bind_eq_some_iff.1 hc
    cases hl : Index.load d path with
    | error e =>
      rw [hl] at hy
      cases hy
    | ok found =>
      rw [hl] at hy
      exact h path hp y (hl.trans (congrArg Except.ok hy))

/-- So does the cache that a session leaves behind. -/
theorem close (h : CacheTracks c root calls d) (hr : Regular calls) {s : Session}
    (hroot : s.root = root) (hconfig : s.config = c) (hs : Tracks c root calls s.index)
    (now : Timestamp) : CacheTracks c root calls (diskAfterClose d s now) := by
  intro path hp y hy
  unfold diskAfterClose Session.close at hy
  rw [hroot, hconfig, hp] at hy
  dsimp only at hy
  cases hsave : s.index.save d path now with
  | error e =>
    rw [hsave] at hy
    exact h path hp y hy
  | ok d' =>
    rw [hsave] at hy
    have hy : Index.load d' path = .ok (some y) := hy
    obtain ⟨hfits, hlong⟩ := Index.load_of_save hs.coherent (hs.storable hr) hsave
    by_cases hf : s.index.Fits
    · obtain ⟨y', hy', hrestores⟩ := hfits hf
      rw [hy'] at hy
      cases hy
      exact hs.congr (Index.coherent_load hy') hrestores.files
    · rw [hlong hf] at hy
      cases hy

end CacheTracks

/-! ## Whatever happens -/

/-- The session, if one is open, is of the project, and its index tracks the updates; so does the
cache. -/
structure Sound (c : Config) (root : Path) (calls : List Call) (w : Workplace) : Prop where
  session : ∀ s, w.session = some s →
    s.root = root ∧ s.config = c ∧ Tracks c root calls s.index
  cache : CacheTracks c root calls w.disk

/-- **Every index that is reached tracks the updates**, and so does every cache. -/
theorem sound_of_reached {calls : List Call} {w : Workplace} (h : Reached c root calls w)
    (hr : Regular calls) : Sound c root calls w := by
  induction h with
  | initial h => exact ⟨nofun, .of_unreadable h⟩
  | edit hw h ih => exact ⟨(ih hr).session, (ih hr).cache.edit h⟩
  | start hw ih =>
    refine ⟨fun s hs => ?_, (ih hr).cache⟩
    cases hs
    exact ⟨rfl, rfl, (ih hr).cache.start⟩
  | refresh hw hs ih =>
    obtain ⟨hroot, hconfig, htracks⟩ := (ih hr.tail).session _ hs
    refine ⟨fun s' hs' => ?_, (ih hr.tail).cache.mono⟩
    cases hs'
    refine ⟨hroot, hconfig, ?_⟩
    subst hroot hconfig
    exact htracks.update
  | refreshWith hw hs ih =>
    obtain ⟨hroot, hconfig, htracks⟩ := (ih hr.tail).session _ hs
    refine ⟨fun s' hs' => ?_, (ih hr.tail).cache.mono⟩
    cases hs'
    refine ⟨hroot, hconfig, ?_⟩
    subst hroot hconfig
    exact htracks.update
  | lookup hw hs ih =>
    obtain ⟨hroot, hconfig, htracks⟩ := (ih hr).session _ hs
    refine ⟨fun s' hs' => ?_, (ih hr).cache⟩
    cases hs'
    refine ⟨hroot, hconfig, htracks.congr (htracks.coherent.lookup _ _ _ _) ?_⟩
    exact congrArg TreeMap.toList (Index.lookup_frame _ _ _ _ _).1
  | forget hw hs ih =>
    obtain ⟨hroot, hconfig, htracks⟩ := (ih hr).session _ hs
    refine ⟨fun s' hs' => ?_, (ih hr).cache⟩
    cases hs'
    exact ⟨hroot, hconfig, htracks.congr (htracks.coherent.congr rfl rfl rfl) rfl⟩
  | close hw hs ih =>
    obtain ⟨hroot, hconfig, htracks⟩ := (ih hr).session _ hs
    exact ⟨nofun, (ih hr).cache.close hr hroot hconfig htracks _⟩

/-- **Refreshing a session is as good as building its index anew**, whatever happened before. An
update succeeds exactly if it would on an empty index. Behind one that does, the indexed files are
the watched ones, each with what it scans to on the disk as it is; and the slots and members are
those of the index that the same update builds from nothing. -/
theorem refresh_as_rebuild {calls : List Call} {w : Workplace} {s : Session} {watched : List Path}
    (h : Reached c root calls w) (hs : w.session = some s)
    (hr : Regular (⟨w.disk, watched⟩ :: calls)) :
    let refreshed := s.refreshWith w.disk watched
    let x := refreshed.1.index
    let rebuilt := Index.empty.update c root w.disk watched
    s.refresh w.disk = s.refreshWith w.disk (c.watched w.disk root) ∧
      ((∃ documents, refreshed.2.result = .ok documents) ↔
        ∃ documents, rebuilt.result = .ok documents) ∧
        ∀ documents, refreshed.2.result = .ok documents →
          (∀ path, path ∈ watched ↔ ∃ content, (path, content) ∈ x.files.toList) ∧
            (∀ e ∈ x.files.toList, c.scanAt root w.disk e.1 = .ok e.2) ∧
              x.files.toList = rebuilt.index.files.toList ∧
                Maps.table x.buckets = Maps.table rebuilt.index.buckets ∧
                  Maps.table x.scopes = Maps.table rebuilt.index.scopes := by
  intro refreshed x rebuilt
  obtain ⟨rfl, rfl, htracks⟩ := (sound_of_reached h hr.tail).session s hs
  have hw : Index.Distinct watched := hr.distinct List.mem_cons_self
  have hx : s.index.Agrees s.config s.root w.disk watched := htracks.agrees hr
  have hempty : Index.empty.Agrees s.config s.root w.disk watched := Index.agrees_empty
  have hok : (∃ documents, refreshed.2.result = .ok documents) ↔
      ∃ documents, rebuilt.result = .ok documents :=
    (hx.update_ok_iff hw).trans (hempty.update_ok_iff hw).symm
  refine ⟨rfl, hok, fun documents hd => ?_⟩
  obtain ⟨scanned, hscanned, -, hfiles⟩ := hx.of_update_ok hw hd
  obtain ⟨documents', hd'⟩ := hok.1 ⟨documents, hd⟩
  have hmem : ∀ e, e ∈ x.files.toList ↔ e ∈ rebuilt.index.files.toList := fun e =>
    (hx.mem_files_of_update hw hd).trans (hempty.mem_files_of_update hw hd').symm
  have htables := (Index.coherent_update htracks.coherent).tables_eq
    (Index.coherent_update Index.coherent_empty) hmem
  refine ⟨fun path => ?_, fun e he => ((hx.mem_files_of_update hw hd).1 he).2,
    Maps.eq_of_mem_iff TreeMap.ordered_keys_toList TreeMap.ordered_keys_toList hmem, htables⟩
  rw [← Index.map_fst_scanned hscanned, List.mem_map]
  constructor
  · rintro ⟨e, he, rfl⟩
    exact ⟨e.2, hfiles.mem_iff.2 he⟩
  · rintro ⟨content, he⟩
    exact ⟨(path, content), hfiles.mem_iff.1 he, rfl⟩

/-- A disk with one header in its root. -/
def headerDisk (bytes : List UInt8) (seconds : Int) : Disk :=
  { root := .directory [("a.h", .file bytes ⟨seconds, 0⟩)], current := [] }

/-- A header that is rewritten between two updates of a session. -/
theorem refresh_as_rebuild_header :
    let s := ((Session.start (headerDisk [] 1) ⟨"/"⟩ .default).refreshWith (headerDisk [] 1)
      [⟨"/a.h"⟩]).1
    (∃ documents, (s.refreshWith (headerDisk [0x0A] 2) [⟨"/a.h"⟩]).2.result = .ok documents) ↔
      ∃ documents, (Index.empty.update .default ⟨"/"⟩ (headerDisk [0x0A] 2)
        [⟨"/a.h"⟩]).result = .ok documents := by
  intro s
  have hread (bytes : List UInt8) (seconds : Int) (path : Path)
      (hp : Config.default.cacheFile? ⟨"/"⟩ = some path) :
      (headerDisk bytes seconds).read path = .error .notFound := by
    have hcache : Config.default.cacheFile? ⟨"/"⟩ = some ⟨"/.doccomb-cache.json"⟩ := by decide
    rw [hcache] at hp
    cases hp
    rfl
  have hreached : Reached .default ⟨"/"⟩ [⟨headerDisk [] 1, [⟨"/a.h"⟩]⟩]
      ⟨headerDisk [0x0A] 2, some s⟩ :=
    have hstart := Reached.start (.initial fun path hp => ⟨_, hread [] 1 path hp⟩)
    (Reached.refreshWith hstart rfl).edit fun path hp => .inr ⟨_, hread [0x0A] 2 path hp⟩
  have htime (bytes : List UInt8) (seconds : Int) :
      (headerDisk bytes seconds).modified? ⟨"/a.h"⟩ = some ⟨seconds, 0⟩ := rfl
  have hregular : Regular [⟨headerDisk [0x0A] 2, [⟨"/a.h"⟩]⟩, ⟨headerDisk [] 1, [⟨"/a.h"⟩]⟩] := by
    refine ⟨?_, ?_, ?_, ?_⟩ <;>
      simp only [List.forall_mem_cons, List.not_mem_nil, false_implies, implies_true, and_true,
        htime]
    · exact ⟨List.nodup_singleton _, List.nodup_singleton _⟩
    · simp
    · constructor
      · rintro t ⟨⟩
        exact ⟨by decide, by decide⟩
      · rintro t ⟨⟩
        exact ⟨by decide, by decide⟩
  exact (refresh_as_rebuild hreached rfl hregular).2.1

end Workplace

end DocIndex
