import DocIndex.Proofs.Index.Conflicts
import DocIndex.Proofs.Project.Update

/-!
# Files that are watched twice

An update takes the watched files as a set where it looks for stale files, and as a list where it
scans what is missing. So a path that is watched twice makes no difference as long as its file is
indexed behind the first part. A file that is missing is scanned as often as it is watched, and is
in the way of its own second scan.

* `firsts` — watched files without repetitions.
* `stalePaths_firsts`, `missingPaths_firsts` — what both parts of an update make of these.
* `addScans_ne_alreadyIndexed` — files that are watched once are not in their own way.
* `addScans_repeated` — one that is watched twice is.
* `update_repeated` — **what an update makes of repetitions, for every index and disk.**
-/

namespace DocIndex

open Std (TreeMap TreeSet)

namespace Index

variable {x y z : Index} {c : Config} {root : Path} {d : Disk} {p q : Path}
  {watched paths before after : List Path} {keep : Path → Bool}

/-! ## Without repetitions -/

/-- The paths of a list, each where it comes first. -/
def firsts : List Path → List Path
  | [] => []
  | p :: paths => p :: (firsts paths).filter fun q => compare p q != .eq

theorem exists_mem_firsts_iff :
    (∃ p ∈ firsts paths, compare p q = .eq) ↔ ∃ p ∈ paths, compare p q = .eq := by
  induction paths with
  | nil => rfl
  | cons p paths ih =>
    rw [firsts, List.exists_mem_cons_iff, List.exists_mem_cons_iff, ← ih]
    by_cases hq : compare p q = .eq
    · exact ⟨fun _ => .inl hq, fun _ => .inl hq⟩
    · refine or_congr_right ⟨?_, ?_⟩
      · rintro ⟨p', hp', he⟩
        exact ⟨p', List.mem_of_mem_filter hp', he⟩
      · -- what is the same as `q` is not the same as `p`
        rintro ⟨p', hp', he⟩
        refine ⟨p', List.mem_filter.2 ⟨hp', ?_⟩, he⟩
        rw [bne_iff_ne]
        exact fun hp => hq (Std.TransCmp.eq_trans hp he)

theorem distinct_firsts (paths : List Path) : Distinct (firsts paths) := by
  induction paths with
  | nil => exact .nil
  | cons p paths ih =>
    refine .cons (fun q hq => ?_) (ih.filter _)
    exact bne_iff_ne.1 (List.mem_filter.1 hq).2

theorem Distinct.firsts_eq (h : Distinct paths) : firsts paths = paths := by
  induction paths with
  | nil => rfl
  | cons p paths ih =>
    obtain ⟨hp, hpaths⟩ := List.pairwise_cons.1 h
    rw [firsts, ih hpaths, List.filter_eq_self.2 fun q hq => bne_iff_ne.2 (hp q hq)]

/-- A choice of paths that does not go by how they are spelled can be made before or behind. -/
theorem firsts_filter (hkeep : ∀ p q, compare p q = .eq → keep p = keep q) :
    firsts (paths.filter keep) = (firsts paths).filter keep := by
  induction paths with
  | nil => rfl
  | cons p paths ih =>
    cases hp : keep p with
    | true =>
      rw [List.filter_cons_of_pos hp, firsts, firsts, List.filter_cons_of_pos hp, ih,
        List.filter_comm]
    | false =>
      have hp' : ¬keep p = true := by rw [hp]; exact Bool.false_ne_true
      rw [List.filter_cons_of_neg hp', firsts, List.filter_cons_of_neg hp', ih, List.filter_comm]
      -- none of those that are kept is the same as `p`, which is not
      refine (List.filter_eq_self.2 fun q hq => bne_iff_ne.2 fun he => ?_).symm
      exact hp' ((hkeep p q he).trans (List.mem_filter.1 hq).2)

theorem firsts_append (before after : List Path) :
    firsts before <+: firsts (before ++ after) := by
  induction before with
  | nil => exact List.nil_prefix
  | cons p before ih => exact List.cons_prefix_cons.2 ⟨rfl, ih.filter _⟩

/-- Where paths are repeated, one of them is the first that was there before. -/
theorem exists_repeated (h : ¬Distinct paths) :
    ∃ before p after, paths = before ++ p :: after ∧ Distinct before ∧
      ∃ q ∈ before, compare q p = .eq := by
  -- by the last path: those in front of it are repeated already, or it repeats one of them
  induction paths using List.reverseRecOn with
  | nil => exact absurd List.Pairwise.nil h
  | append_singleton paths p ih =>
    by_cases hpaths : Distinct paths
    · refine ⟨paths, p, [], rfl, hpaths, ?_⟩
      by_contra hno
      push Not at hno
      refine h (List.pairwise_append.2 ⟨hpaths, List.pairwise_singleton _ _, fun q hq p' hp' => ?_⟩)
      rw [List.mem_singleton.1 hp']
      exact hno q hq
    · obtain ⟨before, p', after, rfl, hrest⟩ := ih hpaths
      exact ⟨before, p', after ++ [p], by simp, hrest⟩

/-! ## Both parts of an update -/

theorem stalePaths_firsts (x : Index) (d : Disk) (watched : List Path) :
    x.stalePaths d (setOf (firsts watched)) = x.stalePaths d (setOf watched) := by
  have hset (p : Path) : (setOf (firsts watched)).contains p = (setOf watched).contains p := by
    rw [Bool.eq_iff_iff, Maps.contains_setOf, Maps.contains_setOf]
    exact exists_mem_firsts_iff
  simp only [stalePaths, hset]

theorem dropStale_firsts (x : Index) (d : Disk) (watched : List Path) :
    x.dropStale d (firsts watched) = x.dropStale d watched := by
  rw [dropStale, stalePaths_firsts, dropStale]

theorem missingPaths_firsts (y : Index) (watched : List Path) :
    y.missingPaths (firsts watched) = firsts (y.missingPaths watched) := by
  refine (firsts_filter fun p q he => ?_).symm
  rw [file?, file?, TreeMap.getElem?_congr he]

/-- Whether files that are repeated are missing is all that matters. -/
theorem update_eq_of_distinct (h : Distinct ((x.dropStale d watched).missingPaths watched)) :
    x.update c root d watched = x.update c root d (firsts watched) := by
  have hmissing : (x.dropStale d watched).missingPaths (firsts watched) =
      (x.dropStale d watched).missingPaths watched := by
    rw [missingPaths_firsts, h.firsts_eq]
  unfold dropStale discardAll at hmissing
  unfold update
  dsimp only
  rw [stalePaths_firsts, hmissing]

/-! ## Taking in scans -/

theorem scanAt_ne_alreadyIndexed : c.scanAt root d p ≠ .error (.alreadyIndexed q) := by
  unfold Config.scanAt Disk.scan
  cases d.read p with
  | error fault => exact nofun
  | ok bytes =>
    dsimp only
    cases ((parseBytes p bytes (c.argsAt root p)).scan _ c.scan).result with
    | error cause => exact nofun
    | ok content => exact nofun

theorem addScans_cons_error {e : Error} (h : (c.scanAt root d p).bind (y.add p) = .error e) :
    y.addScans (scansOf c root d (p :: paths)) = (y, some e) := by
  have h' : (d.scan p (c.argsAt root p) c.scan).result.bind (y.add p) = .error e := h
  rw [scansOf, List.map_cons, addScans, h']

/-- **Files that are watched once and missing are not in their own way.** -/
theorem addScans_ne_alreadyIndexed (hpaths : Distinct paths)
    (hnone : ∀ p ∈ paths, y.files[p]? = none) :
    (y.addScans (scansOf c root d paths)).2 ≠ some (.alreadyIndexed q) := by
  induction paths generalizing y with
  | nil => exact nofun
  | cons p paths ih =>
    obtain ⟨hp, hpaths⟩ := List.pairwise_cons.1 hpaths
    cases hr : (c.scanAt root d p).bind (y.add p) with
    | error e =>
      rw [addScans_cons_error hr, ne_eq, Option.some.injEq]
      rintro rfl
      cases hs : c.scanAt root d p with
      | error e =>
        rw [hs] at hr
        cases hr
        exact scanAt_ne_alreadyIndexed hs
      | ok content =>
        rw [hs] at hr
        have hcontains := (add_eq_alreadyIndexed_iff.1 hr).1
        rw [TreeMap.contains_eq_isSome_getElem?, hnone p List.mem_cons_self] at hcontains
        cases hcontains
    | ok z =>
      obtain ⟨content, hs, ha⟩ := Fallible.bind_eq_ok.1 hr
      rw [addScans_cons_ok hs ha]
      -- the files behind are other ones, and so they are missing still
      refine ih hpaths fun p' hp' => ?_
      rw [(add_frame ha).2.1, TreeMap.getElem?_insert, if_neg (hp p' hp')]
      exact hnone p' (List.mem_cons_of_mem _ hp')

theorem addScans_append (y : Index) (scans scans' : List (Path × FileScan)) :
    y.addScans (scans ++ scans') =
      match y.addScans scans with
      | (z, none) => z.addScans scans'
      | (z, some e) => (z, some e) := by
  induction scans generalizing y with
  | nil => rfl
  | cons scan scans ih =>
    rw [List.cons_append, addScans, addScans]
    cases scan.2.result.bind (y.add scan.1) with
    | ok z => exact ih z
    | error e => rfl

/-- What was taken in is indexed, and was scanned. -/
theorem of_addScans_eq_none (h : y.addScans (scansOf c root d paths) = (z, none)) (hp : p ∈ paths) :
    ∃ content, z.files[p]? = some content ∧ c.scanAt root d p = .ok content := by
  obtain ⟨done, files, -, hfiles, hadd, hdone⟩ := addScans_spec y c root d paths
  rw [h] at hadd hdone
  rw [hdone rfl] at hfiles
  rw [← map_fst_scanned hfiles] at hp
  obtain ⟨e, he, rfl⟩ := List.mem_map.1 hp
  refine ⟨e.2, ?_, ((mem_scanned hfiles).1 he).2⟩
  refine Maps.getElem?_of_mem ?_ Std.ReflCmp.compare_self
  exact (addAll_frame hadd).1.mem_iff.2 (List.mem_append_left _ he)

/-- **A file that was taken in is in the way of its second scan.** -/
theorem addScans_repeated (h : y.addScans (scansOf c root d before) = (z, none)) (hq : q ∈ before)
    (hqp : compare q p = .eq) :
    ∃ e, y.addScans (scansOf c root d (before ++ p :: after)) = (z, some e) ∧
      (c.scanAt root d p).bind (fun _ => .error (.alreadyIndexed p)) =
        (.error e : Except Error Documents) := by
  obtain ⟨content, hcontent, -⟩ := of_addScans_eq_none h hq
  have hcontains : z.files.contains p = true := by
    rw [TreeMap.contains_eq_isSome_getElem?, ← TreeMap.getElem?_congr hqp, hcontent]
    rfl
  have hsplit : y.addScans (scansOf c root d (before ++ p :: after)) =
      z.addScans (scansOf c root d (p :: after)) := by
    rw [scansOf, List.map_append, addScans_append]
    rw [scansOf] at h
    rw [h]
    rfl
  rw [hsplit]
  cases hs : c.scanAt root d p with
  | error e =>
    refine ⟨e, addScans_cons_error ?_, rfl⟩
    rw [hs]
    rfl
  | ok content =>
    refine ⟨.alreadyIndexed p, addScans_cons_error ?_, rfl⟩
    -- whatever the second scan holds, its comments are not looked at
    rw [hs]
    exact add_eq_alreadyIndexed_iff.2 ⟨hcontains, rfl⟩

/-- Where taking in some files fails, it fails with more files behind them, too. -/
theorem addScans_of_prefix {e : Error} (h : y.addScans (scansOf c root d before) = (z, some e))
    (hahead : before <+: paths) : y.addScans (scansOf c root d paths) = (z, some e) := by
  obtain ⟨after, rfl⟩ := hahead
  rw [scansOf, List.map_append, addScans_append]
  rw [scansOf] at h
  rw [h]

/-! ## Updates -/

theorem refreshed_firsts (x : Index) (c : Config) (root : Path) (d : Disk) (watched : List Path) :
    x.refreshed c root d (firsts watched) = (x.dropStale d watched).addScans
      (scansOf c root d (firsts ((x.dropStale d watched).missingPaths watched))) := by
  rw [refreshed, dropStale_firsts, missingPaths_firsts]

/-- Without repetitions, no file is in its own way. -/
theorem update_firsts_ne_alreadyIndexed (x : Index) (c : Config) (root : Path) (d : Disk)
    (watched : List Path) (p : Path) :
    (x.update c root d (firsts watched)).result ≠ .error (.alreadyIndexed p) := by
  intro h
  have hreason : (x.refreshed c root d (firsts watched)).2 = some (.alreadyIndexed p) := by
    rw [refreshed_of_error h]
  rw [refreshed_firsts] at hreason
  refine addScans_ne_alreadyIndexed (distinct_firsts _) (fun q hq => ?_) hreason
  rw [← missingPaths_firsts] at hq
  exact (mem_missingPaths.1 hq).2

/-- **What an update makes of watched files that are repeated.** Without repetitions it never finds
that a file is indexed already. With them, it does the same as without, if no file that is repeated
is missing behind the first part of the update, in which stale files are dropped. Otherwise it
fails: in front of the first path that is missing and repeated, for the same cause and with the same
index as without repetitions, or else there, where the file is indexed already, with all files in
front taken in. (Another spelling of a path can fail to be read.) -/
theorem update_repeated (x : Index) (c : Config) (root : Path) (d : Disk) (watched : List Path) :
    let y := x.dropStale d watched
    let repeated := x.update c root d watched
    let once := x.update c root d (firsts watched)
    (∀ p, once.result ≠ .error (.alreadyIndexed p)) ∧
      (Distinct (y.missingPaths watched) → repeated = once) ∧
        (¬Distinct (y.missingPaths watched) → ∃ before p after,
          y.missingPaths watched = before ++ p :: after ∧ Distinct before ∧
            (∃ q ∈ before, compare q p = .eq) ∧
              match y.addScans (scansOf c root d before) with
              | (z, some e) => repeated.index = z ∧ repeated.result = .error e ∧
                  once.index = z ∧ once.result = .error e
              | (z, none) => repeated.index = z ∧
                  repeated.result = (c.scanAt root d p).bind (fun _ => .error (.alreadyIndexed p)) ∧
                    (p ∈ before → repeated.result = .error (.alreadyIndexed p))) := by
  intro y repeated once
  refine ⟨update_firsts_ne_alreadyIndexed x c root d watched, update_eq_of_distinct, fun h => ?_⟩
  obtain ⟨before, p, after, hmissing, hbefore, q, hq, hqp⟩ := exists_repeated h
  refine ⟨before, p, after, hmissing, hbefore, ⟨q, hq, hqp⟩, ?_⟩
  have hrefreshed : x.refreshed c root d watched =
      y.addScans (scansOf c root d (before ++ p :: after)) := by
    rw [refreshed, hmissing]
  cases hfront : y.addScans (scansOf c root d before) with
  | mk z reason =>
    cases reason with
    | some e =>
      have hrepeated := addScans_of_prefix hfront (List.prefix_append before (p :: after))
      have honce : x.refreshed c root d (firsts watched) = (z, some e) := by
        rw [refreshed_firsts, hmissing]
        refine addScans_of_prefix hfront ?_
        have hahead := firsts_append before (p :: after)
        rwa [hbefore.firsts_eq] at hahead
      obtain ⟨hi, hr⟩ := update_of_refreshed_error (hrefreshed.trans hrepeated)
      obtain ⟨hi', hr'⟩ := update_of_refreshed_error honce
      exact ⟨hi, hr, hi', hr'⟩
    | none =>
      obtain ⟨e, hrepeated, hcause⟩ := addScans_repeated hfront hq hqp
      obtain ⟨hi, hr⟩ := update_of_refreshed_error (hrefreshed.trans hrepeated)
      refine ⟨hi, hr.trans hcause.symm, fun hp => ?_⟩
      obtain ⟨content, -, hs⟩ := of_addScans_eq_none hfront hp
      rw [hs] at hcause
      exact hr.trans hcause.symm

/-- A header that is watched twice fails an update which succeeds if it is watched once. -/
theorem update_watched_twice :
    let d : Disk := { root := .directory [("a.h", .file [] ⟨1, 0⟩)], current := [] }
    let watched : List Path := [⟨"/a.h"⟩, ⟨"/a.h"⟩]
    (empty.update .default ⟨"/"⟩ d watched).result = .error (.alreadyIndexed ⟨"/a.h"⟩) ∧
      ∃ documents, (empty.update .default ⟨"/"⟩ d (firsts watched)).result = .ok documents := by
  intro d watched
  have htwice : (empty.refreshed .default ⟨"/"⟩ d watched).2 = some (.alreadyIndexed ⟨"/a.h"⟩) := by
    decide +kernel
  have honce : (empty.refreshed .default ⟨"/"⟩ d (firsts watched)).2 = none := by decide +kernel
  exact ⟨(update_of_refreshed_error (Prod.ext rfl htwice)).2, _,
    (update_of_refreshed_ok (Prod.ext rfl honce)).2⟩

end Index

end DocIndex
