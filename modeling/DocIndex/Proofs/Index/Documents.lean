import DocIndex.Proofs.Index.Coherent
import DocIndex.Proofs.Index.Rebuild

/-!
# What documents rest on

* `Index.Rests` — a document rests on the file at a path.
* `mem_documentsOn` — the documents that are found for a file are those that rest on it.
* `rests_refer`, `rests_record`, `rests_lookup` — what documents rest on behind a change;
  `Rests.forget`, `Rests.adopt` — only forgetting takes away from it.
* `rests_of_lookup` — a document rests on what was found for it.
-/

namespace DocIndex

open Std (TreeMap TreeSet)

namespace Index

variable {x y : Index} {document : String} {path : Path}

/-- The document rests on the file at a path. -/
def Rests (x : Index) (document : String) (path : Path) : Prop :=
  ∃ paths, x.references[document]? = some paths ∧ path ∈ paths

theorem Rests.congr (h : x.Rests document path) (hr : y.references = x.references) :
    y.Rests document path := by
  obtain ⟨paths, hp, hm⟩ := h
  exact ⟨paths, hr ▸ hp, hm⟩

/-- What a document rests on does not depend on the spelling of the path. -/
theorem rests_congr {path' : Path} (h : compare path path' = .eq) :
    x.Rests document path ↔ x.Rests document path' := by
  simp only [Rests, TreeSet.mem_congr h]

/-- **The documents that are found for a file are those that rest on it.** -/
theorem mem_documentsOn : document ∈ x.documentsOn path ↔ x.Rests document path := by
  have hlist (l : List (String × TreeSet Path)) (found : Documents) :
      document ∈ l.foldl (fun found e =>
        if e.2.contains path then found.insert e.1 else found) found ↔
          (∃ e ∈ l, path ∈ e.2 ∧ e.1 = document) ∨ document ∈ found := by
    induction l generalizing found with
    | nil => simp
    | cons e l ih =>
      rw [List.foldl_cons, ih]
      simp only [List.mem_cons, exists_eq_or_imp]
      by_cases hp : e.2.contains path = true
      · rw [if_pos hp, TreeSet.mem_insert, Std.LawfulEqCmp.compare_eq_iff_eq,
          ← TreeSet.contains_iff_mem (t := e.2)]
        simp only [hp, true_and, or_assoc, or_left_comm]
      · rw [if_neg hp, ← TreeSet.contains_iff_mem (t := e.2)]
        simp only [hp, Bool.false_eq_true, false_and, false_or]
  rw [documentsOn, TreeMap.foldl_eq_foldl_toList, hlist]
  simp only [TreeSet.not_mem_emptyc, or_false, Rests]
  constructor
  · rintro ⟨⟨document', paths⟩, he, hp, rfl⟩
    exact ⟨paths, TreeMap.mem_toList_iff_getElem?_eq_some.1 he, hp⟩
  · rintro ⟨paths, hp, hm⟩
    exact ⟨(document, paths), TreeMap.mem_toList_iff_getElem?_eq_some.2 hp, hm, rfl⟩

/-! ## What is added and taken away -/

/-- What documents rest on behind a change: what they did, and what was referred to. -/
theorem rests_refer {document' : String} {paths : TreeSet Path} :
    (x.refer document' paths).Rests document path ↔
      x.Rests document path ∨ document' = document ∧ path ∈ paths := by
  unfold Rests Index.refer
  by_cases hd : document' = document
  · subst hd
    rw [TreeMap.getElem?_alter_self]
    cases ho : x.references[document']? with
    | none => simp [Maps.mem_joinSets]
    | some old => simp [Maps.mem_joinSets]
  · have hne : ¬compare document' document = .eq :=
      fun he => hd (Std.LawfulEqOrd.eq_of_compare he)
    rw [TreeMap.getElem?_alter, if_neg hne]
    simp [hd]

theorem Rests.refer (h : x.Rests document path) (document' : String) (paths : TreeSet Path) :
    (x.refer document' paths).Rests document path :=
  rests_refer.2 (.inl h)

theorem rests_record {document' : String} {path' : Path} :
    (x.record document' path').Rests document path ↔
      x.Rests document path ∨ document' = document ∧ compare path' path = .eq := by
  rw [record, rests_refer, TreeSet.mem_insert]
  simp [TreeSet.empty_eq_emptyc]

theorem Rests.forget (h : x.Rests document path) {document' : String} (hd : document' ≠ document) :
    (x.forget document').Rests document path := by
  obtain ⟨paths, hp, hm⟩ := h
  refine ⟨paths, ?_, hm⟩
  rw [Index.forget, TreeMap.getElem?_erase,
    if_neg fun he => hd (Std.LawfulEqOrd.eq_of_compare he)]
  exact hp

theorem Rests.adopt (h : x.Rests document path) (documents : List String) (other : Index) :
    (x.adoptReferences documents other).Rests document path := by
  unfold adoptReferences
  induction documents generalizing x with
  | nil => exact h
  | cons document' documents ih =>
    rw [List.foldl_cons]
    apply ih
    cases other.references[document']? with
    | none => exact h
    | some paths => exact h.refer document' paths

/-- A lookup that finds a comment records its file, and one that finds none changes nothing. -/
theorem lookup_eq (x : Index) (options : QueryOptions) (document : String) (context : DocContext)
    (signature : String) :
    (x.lookup options document context signature).1 =
      match x.find? context signature with
      | some c => x.record document c.file
      | none => x := by
  unfold lookup query
  dsimp only
  cases x.find? context signature with
  | none => rfl
  | some c => rfl

/-- What a lookup answers does not depend on the document. -/
theorem answer_lookup (x : Index) (options : QueryOptions) (document : String)
    (context : DocContext) (signature : String) :
    (x.lookup options document context signature).2 = x.query options context signature := by
  unfold lookup
  dsimp only
  cases (x.query options context signature).comment? with
  | none => rfl
  | some c => rfl

/-- What documents rest on behind a lookup. -/
theorem rests_lookup {options : QueryOptions} {document' : String} {context : DocContext}
    {signature : String} :
    (x.lookup options document' context signature).1.Rests document path ↔
      x.Rests document path ∨ document' = document ∧
        ∃ c, x.find? context signature = some c ∧ compare c.file path = .eq := by
  rw [lookup_eq]
  cases x.find? context signature with
  | none => simp
  | some c => simp [rests_record]

theorem Rests.lookup (h : x.Rests document path) (options : QueryOptions) (document' : String)
    (context : DocContext) (signature : String) :
    (x.lookup options document' context signature).1.Rests document path :=
  rests_lookup.2 (.inl h)

/-- **A document rests on what was found for it.** -/
theorem rests_of_lookup {options : QueryOptions} {context : DocContext} {signature : String}
    {c : Comment} (h : x.find? context signature = some c) :
    (x.lookup options document context signature).1.Rests document c.file :=
  rests_lookup.2 (.inr ⟨rfl, c, h, Std.ReflCmp.compare_self⟩)

end Index

end DocIndex
