import DocIndex.Proofs.Index.Documents
import DocIndex.Proofs.Index.Orders
import DocIndex.Proofs.Path

/-!
# Looking things up in several places

Workers that know the same files look things up, each on behalf of some documents, and an index
adopts the references of one after the other. What a step adds to the references of an index is told
by a relation between documents and paths (`Gains`). That of a merge is the union of what the
workers found, so that neither their order nor a second merge shows.

* `lookUpAll` — lookups one after another; `Finds` — what they find.
* `Gains` — what is referred to behind a step: what was, and what was gained.
* `gains_lookUpAll`, `gains_adopt` — what lookups gain, and what a merge does.
* `Gains.restTable_eq` — what is gained decides the references.
* `Worker`, `merged_eq_direct` — **merging workers leaves the references of one place.**
-/

namespace DocIndex

open Std (TreeMap TreeSet)

/-- Something to look up on behalf of a document. -/
structure Errand where
  document : String
  context : DocContext
  signature : String

namespace Index

variable {x y y' z : Index} {document : String} {path : Path} {documents : List String}
  {gained gained' : String → Path → Prop} {options : QueryOptions} {errands : List Errand}

/-! ## Lookups one after another -/

/-- The index behind some lookups. -/
def lookUpAll (x : Index) (options : QueryOptions) (errands : List Errand) : Index :=
  errands.foldl (fun x q => (x.lookup options q.document q.context q.signature).1) x

/-- One of the errands is on behalf of the document and finds a comment of the file at the
path. -/
def Finds (x : Index) (errands : List Errand) (document : String) (path : Path) : Prop :=
  ∃ q ∈ errands, q.document = document ∧
    ∃ c, x.find? q.context q.signature = some c ∧ compare c.file path = .eq

/-- Steps that change nothing but references change nothing else together. -/
theorem foldl_frame {α : Type} {step : Index → α → Index}
    (h : ∀ x a, (step x a).files = x.files ∧ (step x a).buckets = x.buckets ∧
      (step x a).scopes = x.scopes ∧ (step x a).pending = x.pending) (x : Index) (as : List α) :
    let y := as.foldl step x
    y.files = x.files ∧ y.buckets = x.buckets ∧ y.scopes = x.scopes ∧ y.pending = x.pending := by
  induction as generalizing x with
  | nil => exact ⟨rfl, rfl, rfl, rfl⟩
  | cons a as ih =>
    obtain ⟨hf, hb, hs, hp⟩ := h x a
    obtain ⟨hf', hb', hs', hp'⟩ := ih (step x a)
    exact ⟨hf'.trans hf, hb'.trans hb, hs'.trans hs, hp'.trans hp⟩

theorem lookUpAll_frame (x : Index) (options : QueryOptions) (errands : List Errand) :
    let y := x.lookUpAll options errands
    y.files = x.files ∧ y.buckets = x.buckets ∧ y.scopes = x.scopes ∧ y.pending = x.pending :=
  foldl_frame (fun x q => x.lookup_frame options q.document q.context q.signature) x errands

/-- What is found depends on what is documented. -/
theorem finds_congr
    (h : ∀ context signature, x.find? context signature = y.find? context signature) :
    x.Finds errands document path ↔ y.Finds errands document path := by
  unfold Finds
  simp only [h]

/-! ## What is gained -/

/-- What is referred to behind a step: what was before, and what was gained. Documents are listed
that were before, or that gained a path. -/
structure Gains (x y : Index) (gained : String → Path → Prop) : Prop where
  rests : ∀ document path, y.Rests document path ↔ x.Rests document path ∨ gained document path
  listed : ∀ document, document ∈ y.references ↔
    document ∈ x.references ∨ ∃ path, gained document path

namespace Gains

theorem refl (x : Index) : x.Gains x fun _ _ => False :=
  ⟨fun _ _ => by rw [or_false], fun _ => by simp⟩

theorem congr (h : x.Gains y gained) (hsame : ∀ document path, gained document path ↔
    gained' document path) : x.Gains y gained' := by
  constructor
  · intro document path
    rw [h.rests, hsame]
  · intro document
    rw [h.listed]
    simp only [hsame]

theorem trans (h : x.Gains y gained) (h' : y.Gains z gained') :
    x.Gains z fun document path => gained document path ∨ gained' document path := by
  constructor
  · intro document path
    rw [h'.rests, h.rests, or_assoc]
  · intro document
    rw [h'.listed, h.listed, or_assoc, exists_or]

end Gains

theorem mem_refer {document' : String} {paths : TreeSet Path} :
    document ∈ (x.refer document' paths).references ↔
      document ∈ x.references ∨ document' = document := by
  simp only [refer, TreeMap.mem_alter, Std.LawfulEqCmp.compare_eq_iff_eq]
  by_cases hd : document' = document
  · simp [hd]
  · simp [hd]

/-- A document gains the paths that it is said to rest on, of which there is one. -/
theorem gains_refer {document' : String} {paths : TreeSet Path} (hne : ∃ path, path ∈ paths) :
    x.Gains (x.refer document' paths) fun document path => document' = document ∧ path ∈ paths := by
  constructor
  · intro document path
    exact rests_refer
  · intro document
    rw [mem_refer, exists_and_left, and_iff_left hne]

/-- One lookup gains what it finds. -/
theorem gains_lookup {q : Errand} :
    x.Gains (x.lookup options q.document q.context q.signature).1 (x.Finds [q]) := by
  constructor
  · intro document path
    rw [rests_lookup]
    simp [Finds]
  · intro document
    rw [lookup_eq]
    cases hfind : x.find? q.context q.signature with
    | none => simp [Finds, hfind]
    | some c =>
      have hfile : ∃ path, compare c.file path = .eq := ⟨c.file, Std.ReflCmp.compare_self⟩
      simp only [record, mem_refer, Finds, List.mem_singleton, exists_eq_left, hfind,
        Option.some.injEq, exists_eq_left', exists_and_left, and_iff_left hfile]

/-- **Lookups gain what they find**, whatever is looked up in between. -/
theorem gains_lookUpAll :
    x.Gains (x.lookUpAll options errands) (x.Finds errands) := by
  unfold lookUpAll
  induction errands generalizing x with
  | nil => exact (Gains.refl x).congr fun _ _ => by simp [Finds]
  | cons q errands ih =>
    obtain ⟨-, hb, -, -⟩ := x.lookup_frame options q.document q.context q.signature
    have hfind (context : DocContext) (signature : String) :
        (x.lookup options q.document q.context q.signature).1.find? context signature =
          x.find? context signature := by
      rw [find?, find?, hb]
    -- a lookup records, but what the next ones find is the same
    refine (gains_lookup.trans ih).congr fun document path => ?_
    rw [finds_congr hfind]
    simp [Finds]

/-! ## Merges -/

theorem mem_references {paths : TreeSet Path} (h : x.references[document]? = some paths) :
    document ∈ x.references := by
  rw [TreeMap.mem_iff_isSome_getElem?, h]
  rfl

/-- Every document that is listed rests on something. -/
def Thin (x : Index) : Prop :=
  ∀ (document : String) (paths : TreeSet Path),
    x.references[document]? = some paths → ∃ path, path ∈ paths

/-- **A merge gains what the listed documents rest on in the other index.** -/
theorem gains_adopt {other : Index} (h : other.Thin) :
    x.Gains (x.adoptReferences documents other) fun document path =>
      document ∈ documents ∧ other.Rests document path := by
  unfold adoptReferences
  induction documents generalizing x with
  | nil => exact (Gains.refl x).congr fun _ _ => by simp
  | cons document' documents ih =>
    rw [List.foldl_cons]
    cases hother : other.references[document']? with
    | none =>
      -- the other index does not know the document, which gains nothing
      refine ih.congr fun document path => ?_
      have hnot : document = document' → ¬other.Rests document path := by
        rintro rfl ⟨paths, hpaths, -⟩
        rw [hother] at hpaths
        cases hpaths
      rw [List.mem_cons, or_and_right, or_iff_right fun h => hnot h.1 h.2]
    | some paths =>
      refine ((gains_refer (h document' paths hother)).trans ih).congr fun document path => ?_
      have hrests : other.Rests document' path ↔ path ∈ paths := by
        rw [Rests, hother]
        simp
      rw [List.mem_cons, or_and_right]
      refine or_congr_left ⟨?_, ?_⟩
      · rintro ⟨rfl, hp⟩
        exact ⟨rfl, hrests.2 hp⟩
      · rintro ⟨rfl, hr⟩
        exact ⟨rfl, hrests.1 hr⟩

/-- Documents that a merge does not list keep what they rest on. -/
theorem adopt_of_not_mem {other : Index} (h : document ∉ documents) :
    (x.adoptReferences documents other).references[document]? = x.references[document]? := by
  unfold adoptReferences
  induction documents generalizing x with
  | nil => rfl
  | cons document' documents ih =>
    rw [List.mem_cons, not_or] at h
    rw [List.foldl_cons, ih h.2]
    cases other.references[document']? with
    | none => rfl
    | some paths =>
      have hne : ¬compare document' document = .eq :=
        fun he => h.1 (Std.LawfulEqOrd.eq_of_compare he).symm
      simp only [refer, TreeMap.getElem?_alter, if_neg hne]

/-! ## References as a table -/

/-- The documents in order, each with the paths that it rests on, as their components. -/
def restTable (x : Index) : List (String × List (List Path.Component)) :=
  x.references.toList.map fun e => (e.1, e.2.toList.map Path.components)

/-- Sets with the same paths list the same components. -/
theorem map_components_eq {s t : TreeSet Path} (h : ∀ path, path ∈ s ↔ path ∈ t) :
    s.toList.map Path.components = t.toList.map Path.components := by
  have mem {s : TreeSet Path} (path : Path) :
      path.components ∈ s.toList.map Path.components ↔ path ∈ s := by
    rw [Maps.mem_set_iff, List.mem_map]
    simp only [Path.compare_eq_iff]
  have half {s t : TreeSet Path} (h : ∀ path, path ∈ s ↔ path ∈ t) {l : List Path.Component}
      (hl : l ∈ s.toList.map Path.components) : l ∈ t.toList.map Path.components := by
    obtain ⟨path, -, rfl⟩ := List.mem_map.1 hl
    exact (mem path).2 ((h path).1 ((mem path).1 hl))
  have ordered (s : TreeSet Path) :
      (s.toList.map Path.components).Pairwise fun a b => compare a b = .lt :=
    List.pairwise_map.2 s.ordered_toList
  exact Maps.eq_of_ordered id (ordered s) (ordered t) fun l =>
    ⟨half h, half fun path => (h path).symm⟩

/-- **What documents rest on decides the references**, up to how paths are spelled. -/
theorem restTable_eq (hlisted : ∀ document, document ∈ y.references ↔ document ∈ y'.references)
    (hrests : ∀ document path, y.Rests document path ↔ y'.Rests document path) :
    y.restTable = y'.restTable := by
  have half {y y' : Index}
      (hlisted : ∀ document, document ∈ y.references ↔ document ∈ y'.references)
      (hrests : ∀ document path, y.Rests document path ↔ y'.Rests document path)
      {e : String × List (List Path.Component)} (he : e ∈ y.restTable) :
      e ∈ y'.restTable := by
    obtain ⟨⟨document, paths⟩, hmem, rfl⟩ := List.mem_map.1 he
    have hpaths := TreeMap.mem_toList_iff_getElem?_eq_some.1 hmem
    obtain ⟨paths', hpaths'⟩ := Option.isSome_iff_exists.1
      (TreeMap.mem_iff_isSome_getElem?.1 ((hlisted document).1 (mem_references hpaths)))
    have hsame : ∀ path, path ∈ paths' ↔ path ∈ paths := by
      intro path
      have h := (hrests document path).symm
      unfold Rests at h
      rw [hpaths, hpaths'] at h
      simpa using h
    refine List.mem_map.2 ⟨(document, paths'),
      TreeMap.mem_toList_iff_getElem?_eq_some.2 hpaths', ?_⟩
    rw [map_components_eq hsame]
  have ordered (y : Index) : y.restTable.Pairwise fun a b => compare a.1 b.1 = .lt :=
    List.pairwise_map.2 y.references.ordered_keys_toList
  exact Maps.eq_of_mem_iff (ordered y) (ordered y') fun e =>
    ⟨half hlisted hrests, half (fun document => (hlisted document).symm)
      fun document path => (hrests document path).symm⟩

/-- What is gained decides the references. -/
theorem Gains.restTable_eq (h : x.Gains y gained) (h' : x.Gains y' gained) :
    y.restTable = y'.restTable := by
  refine Index.restTable_eq (fun document => ?_) fun document path => ?_
  · rw [h.listed, h'.listed]
  · rw [h.rests, h'.rests]

end Index

/-! ## Workers -/

/-- Someone who looks things up in an index of the same files as `x`, on behalf of documents. -/
structure Worker (x : Index) where
  /-- The index to look things up in, which nothing is recorded in yet. -/
  start : Index
  reached : ∃ operations, start = Operation.run operations
  same_files : start.files.toList = x.files.toList
  unreferenced : start.references.isEmpty = true
  options : QueryOptions
  errands : List Errand
  /-- The documents that are handled. -/
  documents : List String
  handled : ∀ q ∈ errands, q.document ∈ documents

namespace Worker

open Index

variable {x : Index} (w : Worker x) {document : String} {path : Path}

/-- The worker's index behind the lookups. -/
def done : Index :=
  w.start.lookUpAll w.options w.errands

theorem gains_done : w.start.Gains w.done (w.start.Finds w.errands) :=
  gains_lookUpAll

theorem not_mem_start : document ∉ w.start.references :=
  TreeMap.not_mem_of_isEmpty w.unreferenced

theorem rests_done : w.done.Rests document path ↔ w.start.Finds w.errands document path := by
  rw [w.gains_done.rests, or_iff_right]
  rintro ⟨paths, hpaths, -⟩
  exact w.not_mem_start (mem_references hpaths)

theorem thin_done : w.done.Thin := by
  intro document paths hpaths
  obtain hstart | ⟨path, hpath⟩ := (w.gains_done.listed document).1 (mem_references hpaths)
  · exact absurd hstart w.not_mem_start
  · obtain ⟨paths', hpaths', hp⟩ := w.rests_done.2 hpath
    rw [hpaths] at hpaths'
    cases hpaths'
    exact ⟨path, hp⟩

/-- A worker finds what is found in the index of the same files. -/
theorem find?_start (hx : x.Coherent) (context : DocContext) (signature : String) :
    w.start.find? context signature = x.find? context signature := by
  obtain ⟨operations, hreached⟩ := w.reached
  have hstart : w.start.Coherent := hreached ▸ coherent_run operations
  have hentries : w.start.entries = x.entries := by rw [entries, entries, w.same_files]
  exact hstart.find?_eq hx (fun d => by rw [hentries]) context signature

/-- **Merging a worker gains what is found for its errands.** -/
theorem gains_merge (hx : x.Coherent) (y : Index) :
    y.Gains (y.adoptReferences w.documents w.done) (x.Finds w.errands) := by
  refine (gains_adopt w.thin_done).congr fun document path => ?_
  rw [w.rests_done, finds_congr (w.find?_start hx)]
  -- what is found is found for a document that is handled, and so it is merged
  refine and_iff_right_of_imp ?_
  rintro ⟨q, hq, rfl, -⟩
  exact w.handled q hq

end Worker

namespace Index

/-- The index behind merges, one worker after another. -/
def mergeAll (y : Index) {x : Index} (workers : List (Worker x)) : Index :=
  workers.foldl (fun y w => y.adoptReferences w.documents w.done) y

theorem mergeAll_frame (y : Index) {x : Index} (workers : List (Worker x)) :
    let z := y.mergeAll workers
    z.files = y.files ∧ z.buckets = y.buckets ∧ z.scopes = y.scopes ∧ z.pending = y.pending :=
  foldl_frame (fun y w => y.adopt_frame w.documents w.done) y workers

/-- Merges gain what is found for the errands of one of the workers. -/
theorem gains_mergeAll {x : Index} (hx : x.Coherent) (y : Index) (workers : List (Worker x)) :
    y.Gains (y.mergeAll workers) fun document path =>
      ∃ w ∈ workers, x.Finds w.errands document path := by
  unfold mergeAll
  induction workers generalizing y with
  | nil => exact (Gains.refl y).congr fun _ _ => by simp
  | cons w workers ih =>
    refine ((w.gains_merge hx y).trans (ih _)).congr fun document path => ?_
    simp only [List.mem_cons, exists_eq_or_imp]

/-- **Looking things up in workers and merging them is looking them up in one place.** The lookups
are split among workers in any way, and each of these is merged once or more, in any order. -/
theorem merged_eq_direct (operations : List Operation) (options : QueryOptions)
    (errands : List Errand) (workers order : List (Worker (Operation.run operations)))
    (hsplit : (workers.flatMap Worker.errands).Perm errands)
    (horder : ∀ w, w ∈ order ↔ w ∈ workers) :
    let x := Operation.run operations
    let merged := x.mergeAll order
    let direct := x.lookUpAll options errands
    merged.restTable = direct.restTable ∧ merged.files = direct.files ∧
      merged.buckets = direct.buckets ∧ merged.scopes = direct.scopes ∧
        merged.pending = direct.pending ∧
          ∀ (y other : Index) (documents : List String) (document : String),
            document ∉ documents →
              (y.adoptReferences documents other).references[document]? =
                y.references[document]? := by
  intro x merged direct
  have hx : x.Coherent := coherent_run operations
  have hmerged : x.Gains merged (x.Finds errands) := by
    refine (gains_mergeAll hx x order).congr fun document path => ?_
    simp only [Finds, ← hsplit.mem_iff, List.mem_flatMap, horder]
    constructor
    · rintro ⟨w, hw, q, hq, hfound⟩
      exact ⟨q, ⟨w, hw, hq⟩, hfound⟩
    · rintro ⟨q, ⟨w, hw, hq⟩, hfound⟩
      exact ⟨w, hw, q, hq, hfound⟩
  obtain ⟨hf, hb, hs, hp⟩ := x.mergeAll_frame order
  obtain ⟨hf', hb', hs', hp'⟩ := x.lookUpAll_frame options errands
  exact ⟨hmerged.restTable_eq gains_lookUpAll, hf.trans hf'.symm, hb.trans hb'.symm,
    hs.trans hs'.symm, hp.trans hp'.symm, fun _ _ _ _ hnot => adopt_of_not_mem hnot⟩

/-- Two workers, one of whom finds nothing; the other one is merged twice. -/
theorem merged_eq_direct_pair :
    let operations := [Operation.add ⟨"a.h"⟩ (documenting ⟨"a.h"⟩ "int f()").2]
    let x := Operation.run operations
    let options : QueryOptions := { maxSuggestions := 0, cutoff := 1 }
    let hit : Errand := ⟨"guide", topFunction, "int f()"⟩
    let miss : Errand := ⟨"api", topFunction, "int g()"⟩
    ∃ w w' : Worker x,
      ([w, w'].flatMap Worker.errands).Perm [hit, miss] ∧
        (∀ v, v ∈ [w', w, w'] ↔ v ∈ [w, w']) ∧
          (x.mergeAll [w', w, w']).restTable =
            (x.lookUpAll options [hit, miss]).restTable ∧
              (x.lookUpAll options [hit]).restTable = [("guide", [[.named "a.h"]])] := by
  intro operations x options hit miss
  have hunreferenced : x.references.isEmpty = true := by decide +kernel
  let worker (q : Errand) : Worker x :=
    { start := x
      reached := ⟨operations, rfl⟩
      same_files := rfl
      unreferenced := hunreferenced
      options := options
      errands := [q]
      documents := [q.document]
      handled := by simp }
  have hsplit : ([worker miss, worker hit].flatMap Worker.errands).Perm [hit, miss] :=
    .swap hit miss []
  have horder (v : Worker x) :
      v ∈ [worker hit, worker miss, worker hit] ↔ v ∈ [worker miss, worker hit] := by
    simp only [List.mem_cons, List.not_mem_nil, or_false]
    tauto
  refine ⟨worker miss, worker hit, hsplit, horder, ?_, by decide +kernel⟩
  exact (merged_eq_direct operations options _ _ _ hsplit horder).1

end Index

end DocIndex
