import DocIndex.Index.Query
import DocIndex.Index.Snapshot
import DocIndex.Proofs.Index.Slots
import DocIndex.Report.Structured
import DocIndex.Report.Text

/-!
# Indexes stay coherent

Whatever is done to an index, its maps hold the comments of the indexed files (`Index.Coherent`).

* `Coherent.add`, `Coherent.remove` — the two changes to the files.
* `Holds.size_eq` — the number of things that are documented.
* `Operation` — everything that can be done to an index; `Coherent.apply` is one step, and
  `coherent_run` is any number of them.
* `views_agree` — what coherence means for the slots, the members, and the counts that are reported.
-/

namespace DocIndex

open Std (TreeMap)

namespace Index

variable {x y : Index} {ds : List DirectiveComment} {path : Path} {content : FileComments}

/-! ## The files -/

theorem coherent_empty : empty.Coherent where
  distinct := List.nodup_nil
  find context signature c := by simp [find?, empty, entries]
  mirror scope m := by simp [member?, members?, find?, empty]
  buckets_filled _ _ h := by simp [empty] at h
  scopes_filled _ _ h := by simp [empty] at h

/-- The entries of a list of files, in any order. -/
theorem perm_entries {files files' : List (Path × FileComments)} (h : files.Perm files') :
    (files.flatMap fun e => e.2.directiveComments).Perm
      (files'.flatMap fun e => e.2.directiveComments) :=
  h.flatMap_right _

theorem Coherent.add (hx : x.Coherent) (h : x.add path content = .ok y) : y.Coherent := by
  unfold Index.add at h
  split at h
  · cases h
  · rename_i hnot
    have hnone : x.files[path]? = none := TreeMap.getElem?_eq_none hnot
    obtain ⟨z, hi, h⟩ := Fallible.bind_eq_ok.1 h
    cases h
    have hz := (hx.insertAll hi).congr (y := { z with files := z.files.insert path content })
      rfl rfl
    refine hz.perm ?_
    simp only [entries, (insertAll_frame hi).1]
    exact (perm_entries (Maps.toList_insert_perm hnone)).symm

theorem Coherent.remove (hx : x.Coherent) : (x.remove path).1.Coherent := by
  unfold Index.remove file?
  cases hf : x.files[path]? with
  | none => exact hx
  | some content =>
    obtain ⟨path', -, hp⟩ := Maps.toList_erase_perm hf
    have hy : ({ x with files := x.files.erase path } : Index).Holds
        (content.directiveComments ++
          (x.files.erase path).toList.flatMap fun e => e.2.directiveComments) :=
      (hx.perm (perm_entries hp)).congr rfl rfl
    have hz := hy.eraseAll
    unfold Coherent entries
    rw [show (content.directiveComments.foldl erase
      { x with files := x.files.erase path }).files = x.files.erase path from eraseAll_frame.1]
    exact hz

/-- The other files stay. -/
theorem mem_remove {e : Path × FileComments} :
    e ∈ (x.remove path).1.files.toList ↔ ¬compare path e.1 = .eq ∧ e ∈ x.files.toList := by
  unfold remove file?
  cases hf : x.files[path]? with
  | none =>
    exact ⟨fun he => ⟨Maps.getElem?_eq_none_iff.1 hf e he, he⟩, And.right⟩
  | some content =>
    rw [← Maps.mem_erase, show (content.directiveComments.foldl erase
      { x with files := x.files.erase path }).files = x.files.erase path from eraseAll_frame.1]

/-- So do references and pending documents. -/
theorem references_remove (x : Index) (path : Path) :
    (x.remove path).1.references = x.references ∧ (x.remove path).1.pending = x.pending := by
  unfold remove
  cases x.file? path with
  | none => exact ⟨rfl, rfl⟩
  | some content => exact eraseAll_frame.2

/-- The rest of an index has no part in it. -/
theorem Coherent.congr (hx : x.Coherent) (hf : y.files = x.files) (hb : y.buckets = x.buckets)
    (hs : y.scopes = x.scopes) : y.Coherent := by
  have he : y.entries = x.entries := by rw [entries, entries, hf]
  rw [Coherent, he]
  exact Holds.congr hx hb hs

/-! ## Counting -/

/-- What is documented, each thing once, is what the buckets list. -/
theorem Holds.slots_perm (hx : x.Holds ds) :
    ((Maps.flatten x.buckets).map fun e => (e.1, e.2.1)).Perm
      (ds.map DirectiveComment.slot) := by
  refine (List.perm_ext_iff_of_nodup Maps.nodup_flatten hx.distinct).2 ?_
  rintro ⟨context, signature⟩
  rw [hx.slot_mem_iff, List.mem_map]
  constructor
  · rintro ⟨⟨o, i, c⟩, hm, he⟩
    cases he
    exact ⟨c, Maps.mem_flatten.1 hm⟩
  · rintro ⟨c, hc⟩
    exact ⟨(context, signature, c), Maps.mem_flatten.2 hc, rfl⟩

/-- As many things are documented as there are comments. -/
theorem Holds.size_eq (hx : x.Holds ds) : x.size = ds.length := by
  have h := hx.slots_perm.length_eq
  rw [List.length_map, List.length_map, Maps.length_flatten] at h
  exact h

theorem length_entries :
    x.entries.length = total (x.files.values.map fun c => c.directiveComments.length) := by
  rw [entries, length_flatMap_eq_total, Maps.values_eq_map_snd, List.map_map]
  rfl

/-! ## Documents -/

/-- Adopting references changes nothing else. -/
theorem adopt_frame (x : Index) (documents : List String) (other : Index) :
    let y := x.adoptReferences documents other
    y.files = x.files ∧ y.buckets = x.buckets ∧ y.scopes = x.scopes ∧ y.pending = x.pending := by
  unfold adoptReferences
  induction documents generalizing x with
  | nil => exact ⟨rfl, rfl, rfl, rfl⟩
  | cons document documents ih =>
    rw [List.foldl_cons]
    cases other.references[document]? with
    | none => exact ih x
    | some paths => exact ih (x.refer document paths)

/-! ## Snapshots -/

/-- Takes in files one after another. -/
def addAll (x : Index) (files : List (Path × FileComments)) : Except Error Index :=
  files.foldlM (fun x (path, content) => x.add path content) x

theorem Coherent.addAll {files : List (Path × FileComments)} (hx : x.Coherent)
    (h : x.addAll files = .ok y) : y.Coherent := by
  unfold Index.addAll at h
  induction files generalizing x with
  | nil =>
    cases h
    exact hx
  | cons e files ih =>
    obtain ⟨z, ha, h⟩ := Fallible.foldlM_cons_eq_ok.1 h
    exact ih (hx.add ha) h

theorem coherent_ofStored {s : Stored} (h : ofStored s = .ok y) : y.Coherent := by
  obtain ⟨z, ha, h⟩ := Fallible.bind_eq_ok.1 h
  cases h
  exact (coherent_empty.addAll ha).congr rfl rfl rfl

/-- **Whatever bytes a snapshot is read from, the index that it spells is coherent.** -/
theorem coherent_ofSnapshot {bytes : List UInt8} (h : ofSnapshot bytes = .ok (some y)) :
    y.Coherent := by
  unfold ofSnapshot at h
  split at h
  · cases h
  · split at h
    · obtain ⟨z, hs, h⟩ := Fallible.map_eq_ok.1 h
      cases h
      exact coherent_ofStored hs
    · cases h

end Index

/-! ## Any number of steps -/

/-- Something that is done to an index. -/
inductive Operation
  | add (path : Path) (content : FileComments)
  | remove (path : Path)
  | record (document : String) (path : Path)
  | lookup (options : QueryOptions) (document : String) (context : DocContext) (signature : String)
  | forget (document : String)
  | adopt (documents : List String) (other : Index)
  | defer (documents : Documents)
  | release
  /-- The index becomes the one that a snapshot spells. -/
  | restore (bytes : List UInt8)

namespace Operation

/-- The index behind an operation; one that fails leaves it as it is. -/
def apply (x : Index) : Operation → Index
  | add path content => (x.add path content).toOption.getD x
  | remove path => (x.remove path).1
  | record document path => x.record document path
  | lookup options document context signature => (x.lookup options document context signature).1
  | forget document => x.forget document
  | adopt documents other => x.adoptReferences documents other
  | defer documents => x.defer documents
  | release => x.releasePending.1
  | restore bytes => ((Index.ofSnapshot bytes).toOption.getD none).getD x

/-- The index behind some operations. -/
def run (operations : List Operation) : Index :=
  operations.foldl apply .empty

/-- **What the empty index has and each of the operations keeps, the index behind them has.** -/
theorem run_induction {P : Index → Prop} {operations : List Operation} (hempty : P .empty)
    (hstep : ∀ x, ∀ o ∈ operations, P x → P (o.apply x)) : P (run operations) :=
  List.foldlRecOn operations apply hempty fun x hx o ho => hstep x o ho hx

end Operation

namespace Index

/-- A file is turned down or taken in. -/
theorem apply_add (x : Index) (path : Path) (content : FileComments) :
    (Operation.add path content).apply x = x ∨
      x.add path content = .ok ((Operation.add path content).apply x) := by
  cases h : x.add path content with
  | error e => exact .inl (by rw [Operation.apply, h]; rfl)
  | ok y => exact .inr (by rw [Operation.apply, h]; rfl)

/-- What is read is no index, or becomes the index. -/
theorem apply_restore (x : Index) (bytes : List UInt8) :
    (Operation.restore bytes).apply x = x ∨
      ofSnapshot bytes = .ok (some ((Operation.restore bytes).apply x)) := by
  cases h : ofSnapshot bytes with
  | error e => exact .inl (by rw [Operation.apply, h]; rfl)
  | ok found =>
    cases found with
    | none => exact .inl (by rw [Operation.apply, h]; rfl)
    | some y => exact .inr (by rw [Operation.apply, h]; rfl)

/-- A lookup changes nothing but what documents rest on. -/
theorem lookup_frame (x : Index) (options : QueryOptions) (document : String)
    (context : DocContext) (signature : String) :
    let y := (x.lookup options document context signature).1
    y.files = x.files ∧ y.buckets = x.buckets ∧ y.scopes = x.scopes ∧ y.pending = x.pending := by
  unfold lookup
  dsimp only
  cases (x.query options context signature).comment? with
  | none => exact ⟨rfl, rfl, rfl, rfl⟩
  | some c => exact ⟨rfl, rfl, rfl, rfl⟩

theorem Coherent.lookup {x : Index} (hx : x.Coherent) (options : QueryOptions)
    (document : String) (context : DocContext) (signature : String) :
    (x.lookup options document context signature).1.Coherent := by
  obtain ⟨hf, hb, hs, -⟩ := x.lookup_frame options document context signature
  exact hx.congr hf hb hs

/-- **One operation keeps an index coherent.** -/
theorem Coherent.apply {x : Index} (hx : x.Coherent) (operation : Operation) :
    (operation.apply x).Coherent := by
  cases operation with
  | add path content =>
    rcases x.apply_add path content with h | h
    · rw [h]
      exact hx
    · exact hx.add h
  | remove path => exact hx.remove
  | record document path => exact hx.congr rfl rfl rfl
  | lookup options document context signature =>
    exact hx.lookup options document context signature
  | forget document => exact hx.congr rfl rfl rfl
  | adopt documents other =>
    obtain ⟨hf, hb, hs, -⟩ := x.adopt_frame documents other
    exact hx.congr hf hb hs
  | defer documents => exact hx.congr rfl rfl rfl
  | release => exact hx.congr rfl rfl rfl
  | restore bytes =>
    rcases x.apply_restore bytes with h | h
    · rw [h]
      exact hx
    · exact coherent_ofSnapshot h

/-- **Every index that can be reached is coherent.** -/
theorem coherent_run (operations : List Operation) : (Operation.run operations).Coherent :=
  Operation.run_induction coherent_empty fun _ o _ hx => hx.apply o

/-! ## What is found, listed and counted -/

/-- The entries of the indexed files for one thing, each with its file. -/
def entriesFor (x : Index) (context : DocContext) (signature : String) :
    List (Path × DirectiveComment) :=
  x.files.toList.flatMap fun e =>
    (e.2.directiveComments.filter fun d => d.slot = (context, signature)).map fun d => (e.1, d)

theorem map_snd_entriesFor {x : Index} {context : DocContext} {signature : String} :
    (x.entriesFor context signature).map Prod.snd =
      x.entries.filter fun d => d.slot = (context, signature) := by
  rw [entriesFor, entries, List.map_flatMap, List.filter_flatMap]
  congr 1
  funext e
  rw [List.map_map]
  exact List.map_id _

/-- Of the comments for one thing, all but one are of other things. -/
theorem filter_slot_eq {ds : List DirectiveComment} {d : DirectiveComment}
    (hn : (ds.map DirectiveComment.slot).Nodup) (hd : d ∈ ds) :
    (ds.filter fun e => e.slot = d.slot) = [d] := by
  induction ds with
  | nil => cases hd
  | cons e ds ih =>
    rw [List.map_cons, List.nodup_cons] at hn
    rcases List.mem_cons.1 hd with rfl | hd
    · have hrest : (ds.filter fun e => e.slot = d.slot) = [] := by
        refine List.filter_eq_nil_iff.2 fun e he => ?_
        rw [decide_eq_true_eq]
        exact fun h => hn.1 (h ▸ List.mem_map_of_mem he)
      rw [List.filter_cons_of_pos (by simp), hrest]
    · have hne : e.slot ≠ d.slot := fun h => hn.1 (h ▸ List.mem_map_of_mem hd)
      rw [List.filter_cons_of_neg (by simpa using hne), ih hn.2 hd]

/-- A comment is found exactly if one entry of one file documents that thing, and it is its. -/
theorem Coherent.find?_eq_some_iff {x : Index} (hx : x.Coherent) {context : DocContext}
    {signature : String} {c : Comment} :
    x.find? context signature = some c ↔
      ∃ path, x.entriesFor context signature = [(path, ⟨context, signature, c⟩)] := by
  rw [hx.find]
  constructor
  · intro hm
    have hf : (x.entriesFor context signature).map Prod.snd = [⟨context, signature, c⟩] := by
      rw [map_snd_entriesFor]
      exact filter_slot_eq hx.distinct hm
    obtain ⟨⟨path, d⟩, he, hd⟩ := List.map_eq_singleton_iff.1 hf
    exact ⟨path, by rw [he, ← hd]⟩
  · rintro ⟨path, he⟩
    have hf := congrArg (List.map Prod.snd) he
    rw [map_snd_entriesFor] at hf
    have hm : (⟨context, signature, c⟩ : DirectiveComment) ∈
        x.entries.filter fun d => d.slot = (context, signature) := by
      rw [hf]
      exact List.mem_singleton_self _
    exact List.mem_of_mem_filter hm

end Index

/-- The value at the end of a way of names through objects. -/
def Json.valueAt? : List String → Json → Option Json
  | [], j => some j
  | name :: names, object members => (members.lookup name).bind (valueAt? names)
  | _, _ => none

/-- The line of a report that counts what is documented. -/
def headline (documented files : Nat) : String :=
  "  " ++ Style.bold.paint (toString documented) ++ " documented declarations across " ++
    Style.bold.paint (toString files) ++ " files"

theorem headline_mem_indexLines {x : Index} {invalidated : Documents} {root : Path}
    (h : x.files.isEmpty = false) :
    headline x.size x.files.size ∈ indexLines x invalidated root := by
  simp [indexLines, h, headline]

theorem valueAt?_indexJson (x : Index) (invalidated : Documents) (root : Path) :
    (indexJson x invalidated root).valueAt? ["summary", "directive_comments"] =
      some (.nat (total (x.files.values.map fun c => c.directiveComments.length))) :=
  rfl

/-- **The views of an index agree, whatever was done to it.** A comment is found under what it
documents exactly if one entry of one indexed file documents that, and is listed in its scope
exactly if it is found; no bucket and no scope is empty; and the number of things documented, which
reports for a terminal show, is that of the entries of all files, which reports as data show. -/
theorem views_agree (operations : List Operation) :
    let x := Operation.run operations
    (∀ context signature c, x.find? context signature = some c ↔
        ∃ path, x.entriesFor context signature = [(path, ⟨context, signature, c⟩)]) ∧
      (∀ scope m c, x.member? scope m = some c ↔
        x.find? (scope.contextOf m) m.signature = some c) ∧
      Maps.Filled x.buckets ∧ Maps.Filled x.scopes ∧
      x.size = total (x.files.values.map fun c => c.directiveComments.length) ∧
      (∀ invalidated root,
        (Report.toJson root (.index x invalidated)).valueAt? ["summary", "directive_comments"] =
            some (.nat x.size) ∧
          (x.files.isEmpty ∨
            headline x.size x.files.size ∈ Report.lines root (.index x invalidated))) := by
  intro x
  have hx : x.Coherent := Index.coherent_run operations
  have hsize : x.size = total (x.files.values.map fun c => c.directiveComments.length) :=
    hx.size_eq.trans Index.length_entries
  refine ⟨fun _ _ _ => hx.find?_eq_some_iff, fun scope m c => by rw [hx.mirror],
    hx.buckets_filled, hx.scopes_filled, hsize, fun invalidated root => ⟨?_, ?_⟩⟩
  · rw [hsize]
    exact valueAt?_indexJson x invalidated root
  · cases h : x.files.isEmpty with
    | true => exact Or.inl rfl
    | false => exact Or.inr (headline_mem_indexLines h)

end DocIndex
