import DocIndex.Proofs.Comment.Stored
import DocIndex.Proofs.Index.Build
import DocIndex.Proofs.Index.Rebuild

/-!
# Snapshots come back

An index that is written down and read back holds the same files, references and pending documents
(`Index.Restores`), and thus the same slots and members. Only line numbers that are too large can
keep it from being read back.

* `plain_of_toJson?` — a snapshot is made of plain values.
* `ofSnapshot_snapshot` — **the way down and back.**
-/

namespace DocIndex

open Std (TreeMap TreeSet)

open Json (Plain)

/-! ## Snapshots are plain -/

theorem Comment.plain_toJson (c : Comment) : Plain c.toJson := by
  refine .object fun m hm => ?_
  rcases List.mem_append.1 hm with hm | hm
  · simp only [List.mem_cons, List.not_mem_nil, or_false] at hm
    rcases hm with rfl | rfl | rfl
    · exact .string _
    · exact .nat _
    · exact Json.plain_strings _
  · split at hm
    · obtain rfl := List.mem_singleton.1 hm
      exact .string _
    · cases hm

theorem DirectiveComment.plain_toJson (d : DirectiveComment) : Plain d.toJson := by
  refine .object fun m hm => ?_
  simp only [List.mem_cons, List.not_mem_nil, or_false] at hm
  rcases hm with rfl | rfl | rfl
  · refine .object fun m hm => ?_
    simp only [List.mem_cons, List.not_mem_nil, or_false] at hm
    rcases hm with rfl | rfl | rfl <;> exact .string _
  · exact .string _
  · exact Comment.plain_toJson _

theorem Timestamp.plain_of_toJson? {t : Timestamp} {j : Json} (h : t.toJson? = some j) :
    Plain j := by
  unfold toJson? at h
  split at h
  · cases h
  · cases h
    refine .object fun m hm => ?_
    simp only [List.mem_cons, List.not_mem_nil, or_false] at hm
    rcases hm with rfl | rfl <;> exact .nat _

theorem plain_array {α : Type} {write : α → Json} (h : ∀ a, Plain (write a)) (as : List α) :
    Plain (.array (as.map write)) := by
  refine .array fun j hj => ?_
  obtain ⟨a, -, rfl⟩ := List.mem_map.1 hj
  exact h a

theorem FileComments.plain_of_toJson? {f : FileComments} {j : Json} (h : f.toJson? = some j) :
    Plain j := by
  obtain ⟨m, hm, rfl⟩ := Option.map_eq_some_iff.1 h
  refine .object fun e he => ?_
  simp only [List.mem_cons, List.not_mem_nil, or_false] at he
  rcases he with rfl | rfl | rfl | rfl | rfl
  · exact .string _
  · exact plain_array DirectiveComment.plain_toJson _
  · exact plain_array Comment.plain_toJson _
  · exact Json.plain_strings _
  · exact Timestamp.plain_of_toJson? hm

namespace Index

/-- A file of an index and the member that it is written down as. -/
def FileJson (e : Path × FileComments) (m : String × Json) : Prop :=
  m.1 = e.1.text ∧ e.2.toJson? = some m.2

/-- The files are written down one by one. -/
theorem filesJson?_eq_some {files : TreeMap Path FileComments} {j : Json}
    (h : filesJson? files = some j) :
    ∃ members, j = .object members ∧ List.Forall₂ FileJson files.toList members := by
  obtain ⟨members, hm, rfl⟩ := Option.map_eq_some_iff.1 h
  refine ⟨members, rfl, (Fallible.mapM_eq_some.1 hm).imp fun e m he => ?_⟩
  obtain ⟨j, hj, rfl⟩ := Option.map_eq_some_iff.1 he
  exact ⟨rfl, hj⟩

theorem plain_filesJson? {files : TreeMap Path FileComments} {j : Json}
    (h : filesJson? files = some j) : Plain j := by
  obtain ⟨members, rfl, hm⟩ := filesJson?_eq_some h
  refine .object ?_
  clear h
  generalize files.toList = entries at hm
  induction hm with
  | nil => nofun
  | cons he _ ih =>
    exact List.forall_mem_cons.2 ⟨FileComments.plain_of_toJson? he.2, ih⟩

theorem plain_referencesJson (references : TreeMap String (TreeSet Path)) :
    Plain (referencesJson references) := by
  refine .object fun m hm => ?_
  obtain ⟨e, -, rfl⟩ := List.mem_map.1 hm
  exact Json.plain_strings _

/-- **A snapshot is made of plain values.** -/
theorem plain_of_toJson? {x : Index} {j : Json} (h : x.toJson? = some j) : Plain j := by
  obtain ⟨files, hf, rfl⟩ := Option.map_eq_some_iff.1 h
  refine .object fun m hm => ?_
  simp only [List.mem_cons, List.not_mem_nil, or_false] at hm
  rcases hm with rfl | rfl | rfl | rfl
  · exact .nat _
  · exact plain_filesJson? hf
  · exact plain_referencesJson _
  · exact Json.plain_strings _

/-! ## Reading back -/

/-- What documents rest on, in order. -/
def referenceTable (references : TreeMap String (TreeSet Path)) : List (String × List Path) :=
  references.toList.map fun e => (e.1, e.2.toList)

/-- The index `y` holds what `x` does: the same files, spelled the same way, the same references and
the same pending documents. -/
structure Restores (x y : Index) : Prop where
  files : y.files.toList = x.files.toList
  references : referenceTable y.references = referenceTable x.references
  pending : y.pending.toList = x.pending.toList

/-- Everything comes back but for line numbers that are too large. -/
def Storable (x : Index) : Prop :=
  ∀ e ∈ x.files.toList, e.2.Storable

/-- Every line number is small enough to be read back. -/
def Fits (x : Index) : Prop :=
  ∀ e ∈ x.files.toList, e.2.Fits

instance (x : Index) : Decidable x.Fits :=
  inferInstanceAs (Decidable (∀ e ∈ x.files.toList, e.2.Fits))

theorem foldl_putFile {entries : List (Path × FileComments)} {files : TreeMap Path FileComments}
    (hl : DistinctPaths entries) (hf : ∀ e ∈ entries, files[e.1]? = none) :
    entries.foldl putFile files = entries.foldl (fun m e => m.insert e.1 e.2) files := by
  induction entries generalizing files with
  | nil => rfl
  | cons e entries ih =>
    rw [DistinctPaths, List.pairwise_cons] at hl
    have hnot : ¬files.contains e.1 = true := by
      rw [TreeMap.contains_eq_isSome_getElem?, hf e List.mem_cons_self]
      exact Bool.false_ne_true
    have hput : putFile files e = files.insert e.1 e.2 := by
      rw [putFile, TreeMap.getKeyD_eq_fallback hnot]
    rw [List.foldl_cons, List.foldl_cons, hput]
    refine ih hl.2 fun a ha => ?_
    rw [TreeMap.getElem?_insert, if_neg (hl.1 a ha)]
    exact hf a (List.mem_cons_of_mem _ ha)

/-- The files come back if every line number does. -/
theorem filesOfJson?_filesJson? {x : Index} (hx : x.Storable) {j : Json}
    (h : filesJson? x.files = some j) :
    (x.Fits → ∃ files, filesOfJson? j = some files ∧ files.toList = x.files.toList) ∧
      (¬x.Fits → filesOfJson? j = none) := by
  obtain ⟨members, rfl, hm⟩ := filesJson?_eq_some h
  have hentry : List.Forall₂ (fun (e : Path × FileComments) (m : String × Json) =>
      ((FileComments.ofJson? m.2).map fun f => (m.1, f)) =
        if e.2.Fits then some (e.1.text, e.2) else none) x.files.toList members := by
    refine (List.forall₂_iff_get.2 ⟨hm.length_eq, fun i h₁ h₂ => ?_⟩)
    obtain ⟨hname, hj⟩ := hm.get h₁ h₂
    rw [FileComments.ofJson?_of_toJson? (hx _ (List.get_mem _ _)) hj, hname]
    split <;> rfl
  have hread : (Json.object members).map? FileComments.ofJson? =
      if x.Fits then some (x.files.toList.map fun e => (e.1.text, e.2)) else none :=
    Fallible.mapM_guarded hentry
  rw [filesOfJson?, hread]
  constructor
  · intro hfits
    have hsame : ((x.files.toList.map fun e => (e.1.text, e.2)).map fun e =>
        ((⟨e.1⟩ : Path), e.2)) = x.files.toList := by
      rw [List.map_map]
      exact List.map_id _
    rw [if_pos hfits, Option.map_some]
    refine ⟨_, rfl, ?_⟩
    rw [hsame, foldl_putFile (distinctPaths_toList x) fun _ _ => TreeMap.getElem?_emptyc,
      Maps.toList_rebuild]
  · intro hfits
    rw [if_neg hfits]
    rfl

/-- What documents rest on comes back. -/
theorem referencesOfJson?_referencesJson (references : TreeMap String (TreeSet Path)) :
    ∃ read, referencesOfJson? (referencesJson references) = some read ∧
      referenceTable read = referenceTable references := by
  have hentry : List.Forall₂ (fun (e : String × TreeSet Path) (m : String × Json) =>
      ((pathsOfJson? m.2).map fun paths => (m.1, paths)) =
        if True then some (e.1, setOf e.2.toList) else none) references.toList
      (references.toList.map fun e => (e.1, .strings (e.2.toList.map Path.text))) := by
    rw [List.forall₂_map_right_iff, List.forall₂_same]
    rintro ⟨document, paths⟩ -
    have hpaths : (paths.toList.map Path.text).map Path.mk = paths.toList := by
      rw [List.map_map]
      exact List.map_id _
    rw [if_pos trivial, pathsOfJson?, Json.list?_strings, Option.map_some, Option.map_some, hpaths]
  have hread := Fallible.mapM_guarded hentry
  rw [if_pos fun _ _ => trivial] at hread
  rw [referencesOfJson?, referencesJson, Json.map?, hread, Option.map_some]
  refine ⟨_, rfl, ?_⟩
  have hordered : (references.toList.map fun e => (e.1, setOf e.2.toList)).Pairwise
      fun a b => compare a.1 b.1 = .lt :=
    List.pairwise_map.2 references.ordered_keys_toList
  rw [referenceTable, Maps.toList_foldl_insert hordered, List.map_map, referenceTable]
  refine List.map_congr_left fun e _ => ?_
  rw [Function.comp, Maps.toList_setOf]

/-- A snapshot is read as what the index holds, if every line number can be read. -/
theorem stored_ofJson? {x : Index} (hx : x.Storable) {j : Json} (h : x.toJson? = some j) :
    (x.Fits → ∃ s, Stored.ofJson? j = some s ∧ s.version = snapshotVersion ∧
      s.files.toList = x.files.toList ∧
        referenceTable s.references = referenceTable x.references ∧
          s.pending.toList = x.pending.toList) ∧
      (¬x.Fits → Stored.ofJson? j = none) := by
  obtain ⟨files, hf, rfl⟩ := Option.map_eq_some_iff.1 h
  obtain ⟨hfits, hlong⟩ := filesOfJson?_filesJson? hx hf
  obtain ⟨references, hr, htable⟩ := referencesOfJson?_referencesJson x.references
  have hfields : (Json.object [("version", .nat snapshotVersion), ("files", files),
      ("references", referencesJson x.references), ("pending", .strings x.pending.toList)]).record?
        ["version", "files", "references", "pending"] =
      some [some (.nat snapshotVersion), some files, some (referencesJson x.references),
        some (.strings x.pending.toList)] := rfl
  have hversion : (Json.nat snapshotVersion).nat? 0xFFFFFFFF = some snapshotVersion := by
    rw [Json.nat?_nat, if_pos (by decide)]
  rw [Stored.ofJson?, hfields]
  simp only [Option.bind_eq_bind, Option.bind_some, hversion, hr, Option.getD_some,
    Json.list?_strings]
  constructor
  · intro hx
    obtain ⟨read, hread, hlist⟩ := hfits hx
    rw [hread]
    exact ⟨_, rfl, rfl, hlist, htable, Maps.toList_setOf x.pending⟩
  · intro hx
    rw [hlong hx]
    rfl

/-- **A snapshot is read back as an index that holds the same**, or refused if a line number is too
large. -/
theorem ofSnapshot_snapshot {x : Index} (hc : x.Coherent) (hx : x.Storable) {text : String}
    (h : x.snapshot = .ok text) :
    (x.Fits → ∃ y, ofSnapshot text.toUTF8.toList = .ok (some y) ∧ x.Restores y) ∧
      (¬x.Fits → ofSnapshot text.toUTF8.toList = .error (.snapshot .malformed)) := by
  obtain ⟨j, hj, rfl⟩ : ∃ j, x.toJson? = some j ∧ j.compact = text := by
    unfold snapshot at h
    split at h
    · cases h
      exact ⟨_, ‹_›, rfl⟩
    · cases h
  obtain ⟨hfits, hlong⟩ := stored_ofJson? hx hj
  rw [ofSnapshot, Json.read?_compact (plain_of_toJson? hj), Option.bind_some]
  constructor
  · intro hx
    obtain ⟨s, hs, hversion, hfiles, hreferences, hpending⟩ := hfits hx
    have hall : DistinctPaths (x.files.toList ++ empty.files.toList) ∧
        ((entriesOf (x.files.toList ++ empty.files.toList)).map DirectiveComment.slot).Nodup := by
      have hnil : empty.files.toList = [] := rfl
      rw [hnil, List.append_nil]
      exact ⟨distinctPaths_toList x, hc.distinct⟩
    obtain ⟨y, hy⟩ := (exists_addAll_iff coherent_empty).2 hall
    have hstored :
        ofStored s = .ok { y with references := s.references, pending := s.pending } := by
      have hadd : s.files.toList.foldlM (fun x e => x.add e.1 e.2) empty =
          .ok y := by
        rw [hfiles]
        exact hy
      rw [ofStored, hadd]
      rfl
    refine ⟨_, by rw [hs]; dsimp only; rw [if_pos hversion, hstored]; rfl, ?_, hreferences,
      hpending⟩
    exact Maps.eq_of_mem_iff TreeMap.ordered_keys_toList TreeMap.ordered_keys_toList fun e => by
      rw [(addAll_frame hy).1.mem_iff]
      exact List.append_nil _ ▸ Iff.rfl
  · intro hx
    rw [hlong hx]

end Index

end DocIndex
