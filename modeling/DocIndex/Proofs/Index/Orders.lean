import DocIndex.Proofs.Index.Conflicts
import Mathlib.Data.List.Permutation
import Mathlib.Data.List.Perm.Subperm

/-!
# Files in any order

Files are taken in one after another, up to the first that is turned down. Whether one is turned
down does not depend on the order, and neither does what the index holds once all are in. Where one
is, the order decides which of the clashes among the files is told, and which files are in by then.

* `addUpTo` — the additions, and why they ended.
* `Clash` — two files with one path, or two comments for one thing; it knows of no order.
* `clash_of_addUpTo` — what is told is a clash.
* `Sole.told` — of a clash that is the only one, the order decides which side is there first.
* `addUpTo_in_any_order` — **all of this together, for every index that can be reached.**
-/

namespace DocIndex

open Std (TreeMap)

namespace Index

variable {x y : Index} {files files' before after : List (Path × FileComments)}
  {e : Path × FileComments} {error : Error} {d d' : DirectiveComment}

/-! ## One file after another -/

/-- Takes in files one after another, up to the first that is turned down. The second part tells why
it was. -/
def addUpTo (x : Index) (files : List (Path × FileComments)) : Index × Option Error :=
  x.addScans (files.map fun e => (e.1, { result := .ok e.2, logs := [] }))

theorem addUpTo_cons_ok (h : x.add e.1 e.2 = .ok y) :
    x.addUpTo (e :: files) = y.addUpTo files := by
  unfold addUpTo
  rw [List.map_cons, addScans]
  simp only [Except.bind, h]

theorem addUpTo_cons_error (h : x.add e.1 e.2 = .error error) :
    x.addUpTo (e :: files) = (x, some error) := by
  unfold addUpTo
  rw [List.map_cons, addScans]
  simp only [Except.bind, h]

/-- They end without a cause exactly if all files are taken in. -/
theorem addUpTo_eq_none_iff : x.addUpTo files = (y, none) ↔ x.addAll files = .ok y := by
  induction files generalizing x with
  | nil =>
    constructor
    · intro h
      cases h
      rfl
    · intro h
      cases h
      rfl
  | cons e files ih =>
    have hstep : x.addAll (e :: files) = .ok y ↔
        ∃ z, x.add e.1 e.2 = .ok z ∧ z.addAll files = .ok y := Fallible.foldlM_cons_eq_ok
    rw [hstep]
    cases h : x.add e.1 e.2 with
    | ok z =>
      rw [addUpTo_cons_ok h, ih]
      simp
    | error error =>
      rw [addUpTo_cons_error h]
      simp

/-- Where they end with a cause, the files in front are in, and one is turned down for it. -/
theorem exists_of_addUpTo_eq_some (h : x.addUpTo files = (y, some error)) :
    ∃ before e after, files = before ++ e :: after ∧ x.addAll before = .ok y ∧
      y.add e.1 e.2 = .error error := by
  induction files generalizing x with
  | nil => cases h
  | cons e files ih =>
    cases ha : x.add e.1 e.2 with
    | ok z =>
      rw [addUpTo_cons_ok ha] at h
      obtain ⟨before, e', after, rfl, hbefore, he'⟩ := ih h
      exact ⟨e :: before, e', after, rfl, Fallible.foldlM_cons_eq_ok.2 ⟨z, ha, hbefore⟩, he'⟩
    | error error' =>
      rw [addUpTo_cons_error ha] at h
      cases h
      exact ⟨[], e, files, rfl, rfl, ha⟩

theorem addUpTo_none_iff : (x.addUpTo files).2 = none ↔ ∃ y, x.addAll files = .ok y := by
  constructor
  · intro h
    exact ⟨(x.addUpTo files).1, addUpTo_eq_none_iff.1 (Prod.ext rfl h)⟩
  · rintro ⟨y, h⟩
    rw [addUpTo_eq_none_iff.2 h]

/-! ## All of them -/

/-- Two indexes hold the same files, the same comments by what they document and by scope, and as
many of them. -/
structure HoldsAlike (y y' : Index) : Prop where
  files : y.files.toList = y'.files.toList
  slots : Maps.table y.buckets = Maps.table y'.buckets
  members : Maps.table y.scopes = Maps.table y'.scopes
  size : y.size = y'.size

/-- **Files that can be taken in can be taken in in any order.** -/
theorem exists_addAll_perm (hx : x.Coherent) (h : files.Perm files') :
    (∃ y, x.addAll files = .ok y) ↔ ∃ y, x.addAll files' = .ok y := by
  have hall := h.append_right x.files.toList
  rw [exists_addAll_iff hx, exists_addAll_iff hx]
  exact and_congr ⟨fun hp => hp.perm hall, fun hp => hp.perm hall.symm⟩
    ((perm_entries hall).map _).nodup_iff

/-- **Once all are in, the order has left no trace.** -/
theorem Coherent.holdsAlike {y' : Index} (hx : x.Coherent) (h : files.Perm files')
    (hy : x.addAll files = .ok y) (hy' : x.addAll files' = .ok y') : y.HoldsAlike y' := by
  have hperm : y.files.toList.Perm y'.files.toList :=
    (addAll_frame hy).1.trans ((h.append_right _).trans (addAll_frame hy').1.symm)
  have hmem : ∀ e, e ∈ y.files.toList ↔ e ∈ y'.files.toList := fun e => hperm.mem_iff
  have hfiles := Maps.eq_of_mem_iff TreeMap.ordered_keys_toList TreeMap.ordered_keys_toList hmem
  obtain ⟨hslots, hmembers⟩ := (hx.addAll hy).tables_eq (hx.addAll hy') hmem
  refine ⟨hfiles, hslots, hmembers, ?_⟩
  rw [(hx.addAll hy).size_eq, (hx.addAll hy').size_eq, entries, entries, hfiles]

/-! ## Clashes -/

/-- What stands in the way of taking in files, whatever their order. -/
inductive Clash (x : Index) (files : List (Path × FileComments)) : Error → Prop
  /-- One of the files has the path of another one, or of one that is indexed. -/
  | path {e e' : Path × FileComments} (he : e ∈ files)
      (both : [e', e].Subperm (x.files.toList ++ files)) (same : compare e'.1 e.1 = .eq) :
      Clash x files (.alreadyIndexed e.1)
  /-- One of their comments documents what another one documents, or one that is indexed. -/
  | slot {d d' : DirectiveComment} (hd : d ∈ entriesOf files)
      (both : [d', d].Subperm (x.entries ++ entriesOf files)) (same : d'.slot = d.slot) :
      Clash x files (collision d d'.comment)

theorem Clash.perm (h : Clash x files error) (hp : files.Perm files') : Clash x files' error := by
  have hentries : (entriesOf files).Perm (entriesOf files') := perm_entries hp
  cases h with
  | path he both same =>
    exact .path (hp.mem_iff.1 he) ((hp.append_left _).subperm_left.1 both) same
  | slot hd both same =>
    exact .slot (hentries.mem_iff.1 hd) ((hentries.append_left _).subperm_left.1 both) same

/-- An item in front of another one. -/
theorem subperm_pair {α : Type} {a b : α} {front rest l : List α} (ha : a ∈ front)
    (hl : (front ++ b :: rest).Perm l) : [a, b].Subperm l := by
  have hsub : ([a] ++ [b]).Sublist (front ++ b :: rest) :=
    (List.singleton_sublist.2 ha).append (List.singleton_sublist.2 List.mem_cons_self)
  exact hl.subperm_left.1 hsub.subperm

/-- **What is told is a clash.** -/
theorem clash_of_add (hx : x.Coherent) (hy : x.addAll before = .ok y)
    (h : y.add e.1 e.2 = .error error) : Clash x (before ++ e :: after) error := by
  have hfiles := (addAll_frame hy).1
  have hentries : y.entries.Perm (x.entries ++ entriesOf before) := by
    refine (perm_entries hfiles).trans ?_
    rw [List.flatMap_append]
    exact List.perm_append_comm
  rcases add_eq_error_iff.1 h with ⟨hin, rfl⟩ | ⟨-, front, d, c, hcollides, rfl⟩
  · -- the path is that of a file in front, or of one that was there
    rw [TreeMap.contains_eq_isSome_getElem?] at hin
    obtain ⟨content, hc⟩ := Option.isSome_iff_exists.1 hin
    obtain ⟨path, hpath, he'⟩ :=
      TreeMap.getElem?_eq_some_iff_exists_compare_eq_eq_and_mem_toList.1 hc
    have hfront : (before ++ x.files.toList ++ e :: after).Perm
        (x.files.toList ++ (before ++ e :: after)) := by
      rw [← List.append_assoc]
      exact List.perm_append_comm.append_right _
    exact .path (List.mem_append_right _ List.mem_cons_self)
      (subperm_pair (hfiles.mem_iff.1 he') hfront) (Std.OrientedCmp.eq_symm hpath)
  · obtain ⟨⟨rest, hds⟩, -, hheld⟩ := hcollides
    have hsplit : entriesOf (before ++ e :: after) =
        entriesOf before ++ (front ++ d :: (rest ++ entriesOf after)) := by
      simp [entriesOf, List.flatMap_append, List.flatMap_cons, hds]
    have hd : d ∈ entriesOf (before ++ e :: after) := by
      rw [hsplit]
      exact List.mem_append_right _ (List.mem_append_right _ List.mem_cons_self)
    -- what is held is a comment of the index, or an earlier one of the same file
    obtain ⟨d', hd', hslot, rfl⟩ : ∃ d' ∈ (x.entries ++ entriesOf before) ++ front,
        d'.slot = d.slot ∧ d'.comment = c := by
      rcases Option.or_eq_some_iff.1 hheld with hfound | ⟨-, hearlier⟩
      · have hmem := ((hx.addAll hy).find _ _ _).1 hfound
        exact ⟨⟨d.context, d.signature, c⟩,
          List.mem_append_left _ (hentries.mem_iff.1 hmem), rfl, rfl⟩
      · obtain ⟨d', hfind, hcomment⟩ := Option.map_eq_some_iff.1 hearlier
        exact ⟨d', List.mem_append_right _ (List.mem_of_find?_eq_some hfind),
          by simpa using List.find?_some hfind, hcomment⟩
    have hfront : ((x.entries ++ entriesOf before) ++ front ++ d :: (rest ++ entriesOf after)).Perm
        (x.entries ++ entriesOf (before ++ e :: after)) := by
      rw [hsplit, List.append_assoc, List.append_assoc]
    exact .slot hd (subperm_pair hd' hfront) hslot

/-- Where additions end with a cause, it is a clash, and the files that are in stand in front. -/
theorem clash_of_addUpTo (hx : x.Coherent) (h : x.addUpTo files = (y, some error)) :
    Clash x files error ∧
      ∃ before, before <+: files ∧ y.files.toList.Perm (before ++ x.files.toList) := by
  obtain ⟨before, e, after, rfl, hy, he⟩ := exists_of_addUpTo_eq_some h
  exact ⟨clash_of_add hx hy he, before, List.prefix_append _ _, (addAll_frame hy).1⟩

/-! ## A single clash -/

/-- No path occurs twice, and of all comments only `d` and `d'` document one thing. -/
structure Sole (x : Index) (files : List (Path × FileComments)) (d d' : DirectiveComment) :
    Prop where
  paths : DistinctPaths (files ++ x.files.toList)
  both : [d', d].Subperm (x.entries ++ entriesOf files)
  same : d'.slot = d.slot
  only : ∀ c c', [c', c].Subperm (x.entries ++ entriesOf files) → c'.slot = c.slot →
    (c = d ∧ c' = d') ∨ (c = d' ∧ c' = d)

theorem not_distinctPaths {e' : Path × FileComments} {l : List (Path × FileComments)}
    (h : [e', e].Subperm l) (same : compare e'.1 e.1 = .eq) : ¬DistinctPaths l := by
  intro hl
  obtain ⟨pair, hpair, hsub⟩ := h
  have hdistinct : DistinctPaths [e', e] := DistinctPaths.perm (List.Pairwise.sublist hsub hl) hpair
  exact List.rel_of_pairwise_cons hdistinct List.mem_cons_self same

theorem not_nodup_slots {ds : List DirectiveComment} (h : [d', d].Subperm ds)
    (same : d'.slot = d.slot) : ¬(ds.map DirectiveComment.slot).Nodup := by
  intro hn
  obtain ⟨pair, hpair, hsub⟩ := h
  have hnodup : ([d', d].map DirectiveComment.slot).Nodup :=
    (hpair.map _).nodup_iff.1 (hn.sublist (hsub.map _))
  simp [same] at hnodup

theorem Sole.perm (h : Sole x files d d') (hp : files.Perm files') : Sole x files' d d' := by
  have hentries : (x.entries ++ entriesOf files).Perm (x.entries ++ entriesOf files') :=
    (perm_entries hp).append_left _
  exact ⟨h.paths.perm (hp.append_right _), hentries.subperm_left.1 h.both, h.same,
    fun c c' hc => h.only c c' (hentries.subperm_left.2 hc)⟩

/-- **Of a clash that is the only one, the order decides which side is there first.** -/
theorem Sole.told (hx : x.Coherent) (h : Sole x files d d') :
    (x.addUpTo files).2 = some (collision d d'.comment) ∨
      (x.addUpTo files).2 = some (collision d' d.comment) := by
  cases hr : x.addUpTo files with
  | mk y reason =>
    cases reason with
    | none =>
      -- both comments cannot be in
      have hslots := ((exists_addAll_iff hx).1 ⟨y, addUpTo_eq_none_iff.1 hr⟩).2
      rw [entriesOf, List.flatMap_append] at hslots
      exact absurd hslots (not_nodup_slots (List.perm_append_comm.subperm_left.1 h.both) h.same)
    | some error =>
      cases (clash_of_addUpTo hx hr).1 with
      | path he both same =>
        exact absurd h.paths
          (not_distinctPaths (List.perm_append_comm.subperm_left.1 both) same)
      | slot hd both same =>
        rcases h.only _ _ both same with ⟨rfl, rfl⟩ | ⟨rfl, rfl⟩
        · exact .inl rfl
        · exact .inr rfl

/-- Two files with one comment each, for the same thing, clash in nothing else. -/
theorem sole_pair {e' : Path × FileComments} (hpaths : ¬compare e'.1 e.1 = .eq)
    (hd : e.2.directiveComments = [d]) (hd' : e'.2.directiveComments = [d'])
    (same : d'.slot = d.slot) : Sole empty [e', e] d d' := by
  have hentries : empty.entries ++ entriesOf [e', e] = [d', d] := by
    simp [entries, entriesOf, empty, hd, hd']
  refine ⟨?_, by rw [hentries], same, fun c c' h _ => ?_⟩
  · refine List.pairwise_cons.2 ⟨fun a ha => ?_, List.pairwise_singleton _ _⟩
    rw [List.mem_singleton.1 ha]
    exact hpaths
  · rw [hentries] at h
    rcases List.pair_perm.1 (h.perm_of_length_le (Nat.le_refl _)) with h | h
    · cases h
      exact .inl ⟨rfl, rfl⟩
    · cases h
      exact .inr ⟨rfl, rfl⟩

/-! ## Any order -/

/-- Reading a snapshot takes in its files one after another. -/
theorem ofStored_eq_ok_iff {s : Stored} :
    ofStored s = .ok y ↔ ∃ z, empty.addAll s.files.toList = .ok z ∧
      { z with references := s.references, pending := s.pending } = y := by
  have hsteps : ofStored s = (empty.addAll s.files.toList >>= fun z =>
      .ok { z with references := s.references, pending := s.pending }) := rfl
  rw [hsteps, Fallible.bind_eq_ok]
  simp only [Except.ok.injEq]

/-- **The order in which files are taken in does not matter.** In all orders they can be taken in,
or in none. Where they can, every order leads to the same files, slots and members, and as many of
them; so does reading them from a snapshot, in the order of its map. Where they cannot, every order
ends with a clash of the files and with those in front of it taken in; and if there is but one
clash, the order decides only which of its two comments is there first. -/
theorem addUpTo_in_any_order (operations : List Operation)
    {files files' : List (Path × FileComments)} (h : files.Perm files') :
    let x := Operation.run operations
    ((x.addUpTo files).2 = none ↔ (x.addUpTo files').2 = none) ∧
      ((x.addUpTo files).2 = none →
        (x.addUpTo files).1.HoldsAlike (x.addUpTo files').1) ∧
      (∀ error, (x.addUpTo files').2 = some error →
        Clash x files error ∧ ∃ before, before <+: files' ∧
          (x.addUpTo files').1.files.toList.Perm (before ++ x.files.toList)) ∧
      (∀ d d', Sole x files d d' →
        (x.addUpTo files').2 = some (collision d d'.comment) ∨
          (x.addUpTo files').2 = some (collision d' d.comment)) ∧
      ∀ s : Stored, s.files.toList.Perm files →
        ((∃ y, ofStored s = .ok y) ↔ (empty.addUpTo files').2 = none) ∧
          ∀ y, ofStored s = .ok y → y.HoldsAlike (empty.addUpTo files').1 := by
  intro x
  have hx : x.Coherent := coherent_run operations
  refine ⟨?_, ?_, ?_, ?_, ?_⟩
  · rw [addUpTo_none_iff, addUpTo_none_iff]
    exact exists_addAll_perm hx h
  · intro hnone
    obtain ⟨y, hy⟩ := addUpTo_none_iff.1 hnone
    obtain ⟨y', hy'⟩ := (exists_addAll_perm hx h).1 ⟨y, hy⟩
    rw [addUpTo_eq_none_iff.2 hy, addUpTo_eq_none_iff.2 hy']
    exact hx.holdsAlike h hy hy'
  · intro error herror
    have hended : x.addUpTo files' = ((x.addUpTo files').1, some error) := Prod.ext rfl herror
    obtain ⟨hclash, hbefore⟩ := clash_of_addUpTo hx hended
    exact ⟨hclash.perm h.symm, hbefore⟩
  · intro d d' hsole
    exact (hsole.perm h).told hx
  · intro s hs
    have hall := exists_addAll_perm coherent_empty (hs.trans h)
    constructor
    · rw [addUpTo_none_iff, ← hall]
      constructor
      · rintro ⟨y, hy⟩
        obtain ⟨z, hz, -⟩ := ofStored_eq_ok_iff.1 hy
        exact ⟨z, hz⟩
      · rintro ⟨z, hz⟩
        exact ⟨_, ofStored_eq_ok_iff.2 ⟨z, hz, rfl⟩⟩
    · intro y hy
      obtain ⟨z, hz, rfl⟩ := ofStored_eq_ok_iff.1 hy
      obtain ⟨z', hz'⟩ := hall.1 ⟨z, hz⟩
      rw [addUpTo_eq_none_iff.2 hz']
      -- references and what is held back have no part in it
      obtain ⟨hfiles, hslots, hmembers, hsize⟩ := coherent_empty.holdsAlike (hs.trans h) hz hz'
      exact ⟨hfiles, hslots, hmembers, hsize⟩

/-- The context of functions that are in no scope. -/
def topFunction : DocContext :=
  { directive := .function, namespacePath := "", moduleName := "" }

/-- A file at a path that documents one function. -/
def documenting (path : Path) (signature : String) : Path × FileComments :=
  (path,
    { moduleName := ""
      directiveComments :=
        [{ context := topFunction
           signature := signature
           comment := { file := path, nextLine := 2, text := ["/// doc"], kind := none } }]
      floatingComments := []
      diagnostics := []
      modified := { seconds := 1000, nanoseconds := 0 } })

/-- Two files that do not clash, and two that do, in both orders. -/
theorem addUpTo_swapped :
    let f := documenting ⟨"a.h"⟩ "int f()"
    let f' := documenting ⟨"b.h"⟩ "int f()"
    let g := documenting ⟨"b.h"⟩ "int g()"
    ([f, g].Perm [g, f] ∧ (empty.addUpTo [f, g]).1.HoldsAlike (empty.addUpTo [g, f]).1) ∧
      [f, f'].Perm [f', f] ∧ ∃ d d', Sole empty [f, f'] d d' ∧
        ((empty.addUpTo [f', f]).2 = some (collision d d'.comment) ∨
          (empty.addUpTo [f', f]).2 = some (collision d' d.comment)) := by
  intro f f' g
  have hpaths : ¬compare f.1 f'.1 = .eq := by decide +kernel
  have hnone : (empty.addUpTo [f, g]).2 = none := by decide +kernel
  have hsole : Sole empty [f, f'] _ _ := sole_pair hpaths rfl rfl rfl
  exact ⟨⟨.swap g f [], (addUpTo_in_any_order [] (.swap g f [])).2.1 hnone⟩, .swap f' f [],
    _, _, hsole, (addUpTo_in_any_order [] (.swap f' f [])).2.2.2.1 _ _ hsole⟩

/-- **The order shows in more than which comment is called the existing one.** Of four files two
document one function, and two another one; which of the functions is told of depends on which files
come first. -/
theorem clash_told_by_order :
    ¬∀ (files files' : List (Path × FileComments)) (context context' : DocContext)
        (signature signature' : String) (existing existing' incoming incoming' : Location),
      files.Perm files' →
      (empty.addUpTo files).2 = some (.duplicate context signature existing incoming) →
      (empty.addUpTo files').2 = some (.duplicate context' signature' existing' incoming') →
      context = context' ∧ signature = signature' := by
  intro hclaim
  let fs := [documenting ⟨"a.h"⟩ "int f()", documenting ⟨"b.h"⟩ "int f()"]
  let gs := [documenting ⟨"c.h"⟩ "int g()", documenting ⟨"d.h"⟩ "int g()"]
  have hf : (empty.addUpTo (fs ++ gs)).2 =
      some (.duplicate topFunction "int f()" ⟨⟨"a.h"⟩, 2⟩ ⟨⟨"b.h"⟩, 2⟩) := by decide +kernel
  have hg : (empty.addUpTo (gs ++ fs)).2 =
      some (.duplicate topFunction "int g()" ⟨⟨"c.h"⟩, 2⟩ ⟨⟨"d.h"⟩, 2⟩) := by decide +kernel
  have hsame := hclaim _ _ _ _ _ _ _ _ _ _ List.perm_append_comm hf hg
  exact absurd hsame.2 (by decide)

end Index

end DocIndex
