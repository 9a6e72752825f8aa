import DocIndex.Proofs.Fallible
import DocIndex.Proofs.Index.Maps

/-!
# The comments that an index holds

An index keeps every comment that documents something three times: with its file, in `buckets` and
in `scopes`. `Index.Holds x ds` says that both maps hold the comments `ds` and nothing else, and
`Index.Coherent x` that these are the comments of the indexed files.

* `Holds.insertAll`, `Holds.eraseAll` — what taking in and dropping the comments of a file does.
* `Holds.exists_insertAll_iff` — comments can be taken in exactly if no two of them document one
  thing.
-/

namespace DocIndex

open Std (TreeMap)

/-- What a comment documents. -/
def DirectiveComment.slot (d : DirectiveComment) : DocContext × String :=
  (d.context, d.signature)

/-- The context of a member of a scope. -/
def DocScope.contextOf (scope : DocScope) (m : Member) : DocContext :=
  { directive := m.directive
    namespacePath := scope.namespacePath
    moduleName := scope.moduleName }

namespace Index

/-- The comments of the indexed files that document something. -/
def entries (x : Index) : List DirectiveComment :=
  x.files.toList.flatMap fun e => e.2.directiveComments

/-- The comment of a member of a scope. -/
def member? (x : Index) (scope : DocScope) (m : Member) : Option Comment :=
  (x.members? scope).bind fun members => members[m]?

/-- The maps hold the comments `ds`, each at its place, and nothing else. -/
structure Holds (x : Index) (ds : List DirectiveComment) : Prop where
  distinct : (ds.map DirectiveComment.slot).Nodup
  find : ∀ context signature c,
    x.find? context signature = some c ↔ ⟨context, signature, c⟩ ∈ ds
  mirror : ∀ scope m, x.member? scope m = x.find? (scope.contextOf m) m.signature
  buckets_filled : Maps.Filled x.buckets
  scopes_filled : Maps.Filled x.scopes

/-- The maps hold the comments of the indexed files. -/
def Coherent (x : Index) : Prop :=
  x.Holds x.entries

variable {x y : Index} {d : DirectiveComment} {ds cs : List DirectiveComment}

namespace Holds

theorem perm (h : x.Holds ds) (hp : ds.Perm cs) : x.Holds cs where
  distinct := (hp.map _).nodup_iff.1 h.distinct
  find context signature c := (h.find context signature c).trans hp.mem_iff
  mirror := h.mirror
  buckets_filled := h.buckets_filled
  scopes_filled := h.scopes_filled

/-- What is documented is found. -/
theorem find?_of_mem (h : x.Holds ds) (hd : d ∈ ds) :
    x.find? d.context d.signature = some d.comment :=
  (h.find d.context d.signature d.comment).2 hd

theorem slot_mem_iff (h : x.Holds ds) {context : DocContext} {signature : String} :
    (context, signature) ∈ ds.map DirectiveComment.slot ↔
      ∃ c, x.find? context signature = some c := by
  constructor
  · intro hm
    obtain ⟨d, hd, he⟩ := List.mem_map.1 hm
    cases he
    exact ⟨d.comment, h.find?_of_mem hd⟩
  · rintro ⟨c, hc⟩
    exact List.mem_map.2 ⟨⟨context, signature, c⟩, (h.find context signature c).1 hc, rfl⟩

end Holds

/-- A context is found in a scope exactly if it is that of the member. -/
theorem contextOf_eq_iff {scope : DocScope} {m : Member} :
    (scope.contextOf m = d.context ∧ m.signature = d.signature) ↔
      (scope = d.context.scope ∧ m = d.member) := by
  obtain ⟨⟨directive, namespacePath, moduleName⟩, signature, c⟩ := d
  obtain ⟨n, k⟩ := scope
  obtain ⟨e, s⟩ := m
  simp only [DocScope.contextOf, DocContext.scope, DirectiveComment.member, DocContext.mk.injEq,
    DocScope.mk.injEq, Member.mk.injEq]
  constructor
  · rintro ⟨⟨rfl, rfl, rfl⟩, rfl⟩
    exact ⟨⟨rfl, rfl⟩, rfl, rfl⟩
  · rintro ⟨⟨rfl, rfl⟩, rfl, rfl⟩
    exact ⟨⟨rfl, rfl, rfl⟩, rfl⟩

/-! ## Taking comments in -/

theorem find?_insert (h : x.insert d = .ok y) (context : DocContext) (signature : String) :
    y.find? context signature =
      if context = d.context ∧ signature = d.signature then some d.comment
      else x.find? context signature := by
  unfold insert at h
  split at h
  · cases h
  · cases h
    exact Maps.entryAt?_insertAt

theorem member?_insert (h : x.insert d = .ok y) (scope : DocScope) (m : Member) :
    y.member? scope m =
      if scope = d.context.scope ∧ m = d.member then some d.comment else x.member? scope m := by
  unfold insert at h
  split at h
  · cases h
  · cases h
    exact Maps.entryAt?_insertAt

/-- A comment can be taken in exactly if what it documents is not documented yet. -/
theorem exists_insert_iff : (∃ y, x.insert d = .ok y) ↔ x.find? d.context d.signature = none := by
  unfold insert
  cases x.find? d.context d.signature with
  | none => simp
  | some c => simp

theorem Holds.insert (hx : x.Holds ds) (h : x.insert d = .ok y) : y.Holds (d :: ds) := by
  have hnone := exists_insert_iff.1 ⟨y, h⟩
  have hnew : d.slot ∉ ds.map DirectiveComment.slot := by
    intro hm
    obtain ⟨c, hc⟩ := hx.slot_mem_iff.1 hm
    rw [hnone] at hc
    cases hc
  refine ⟨List.nodup_cons.2 ⟨hnew, hx.distinct⟩, ?_, ?_, ?_, ?_⟩
  · intro context signature c
    rw [find?_insert h, List.mem_cons]
    split
    · rename_i he
      obtain ⟨rfl, rfl⟩ := he
      rw [← hx.find, hnone]
      simp only [Option.some.injEq, reduceCtorEq, or_false]
      exact ⟨fun hc => hc ▸ rfl, fun hc => (congrArg DirectiveComment.comment hc).symm⟩
    · rename_i hne
      rw [hx.find]
      refine ⟨Or.inr, ?_⟩
      rintro (rfl | hm)
      · exact absurd ⟨rfl, rfl⟩ hne
      · exact hm
  · intro scope m
    rw [member?_insert h, find?_insert h, hx.mirror]
    simp only [contextOf_eq_iff]
  all_goals
    unfold Index.insert at h
    split at h
    · cases h
  · cases h
    exact Maps.filled_insertAt hx.buckets_filled
  · cases h
    exact Maps.filled_insertAt hx.scopes_filled

/-- The comments of a file, taken in one after another. -/
theorem Holds.insertAll (hx : x.Holds ds) (h : cs.foldlM Index.insert x = .ok y) :
    y.Holds (cs ++ ds) := by
  induction cs generalizing x ds with
  | nil =>
    cases h
    exact hx
  | cons d cs ih =>
    obtain ⟨z, hi, h⟩ := Fallible.foldlM_cons_eq_ok.1 h
    exact (ih (hx.insert hi) h).perm List.perm_middle

/-- **Comments can be taken in exactly if no two of them document one thing**, those that are there
included. -/
theorem Holds.exists_insertAll_iff (hx : x.Holds ds) :
    (∃ y, cs.foldlM Index.insert x = .ok y) ↔
      ((cs ++ ds).map DirectiveComment.slot).Nodup := by
  induction cs generalizing x ds with
  | nil => exact ⟨fun _ => hx.distinct, fun _ => ⟨x, rfl⟩⟩
  | cons d cs ih =>
    have hperm : ((d :: cs ++ ds).map DirectiveComment.slot).Perm
        ((cs ++ d :: ds).map DirectiveComment.slot) := (List.perm_middle.symm).map _
    rw [List.foldlM_cons, hperm.nodup_iff]
    cases hi : x.insert d with
    | error e =>
      -- what `d` documents is documented by a comment that is there
      have hsome : x.find? d.context d.signature ≠ none := by
        intro hn
        obtain ⟨z, hz⟩ := exists_insert_iff.2 hn
        rw [hi] at hz
        cases hz
      have hm : d.slot ∈ ds.map DirectiveComment.slot :=
        hx.slot_mem_iff.2 (Option.ne_none_iff_exists'.1 hsome)
      constructor
      · rintro ⟨y, hy⟩
        cases hy
      · intro hn
        rw [List.map_append, List.map_cons] at hn
        exact absurd hm (List.nodup_cons.1 (List.nodup_append.1 hn).2.1).1
    | ok z => exact ih (hx.insert hi)

/-! ## Dropping comments -/

theorem find?_erase (h : x.find? d.context d.signature = some d.comment) (context : DocContext)
    (signature : String) :
    (x.erase d).find? context signature =
      if context = d.context ∧ signature = d.signature then none
      else x.find? context signature :=
  Maps.entryAt?_eraseAt h

theorem member?_erase (h : x.member? d.context.scope d.member = some d.comment) (scope : DocScope)
    (m : Member) :
    (x.erase d).member? scope m =
      if scope = d.context.scope ∧ m = d.member then none else x.member? scope m :=
  Maps.entryAt?_eraseAt h

theorem Holds.erase (hx : x.Holds (d :: ds)) : (x.erase d).Holds ds := by
  have hd := hx.distinct
  rw [List.map_cons, List.nodup_cons] at hd
  have hfind := hx.find?_of_mem List.mem_cons_self
  have hmember : x.member? d.context.scope d.member = some d.comment := by
    obtain ⟨hc, hs⟩ := contextOf_eq_iff.2 ⟨rfl, rfl⟩
    rw [hx.mirror, hc, hs, hfind]
  refine ⟨hd.2, ?_, ?_, Maps.filled_eraseAt hx.buckets_filled,
    Maps.filled_eraseAt hx.scopes_filled⟩
  · intro context signature c
    rw [find?_erase hfind]
    split
    · rename_i he
      obtain ⟨rfl, rfl⟩ := he
      simp only [reduceCtorEq, false_iff]
      exact fun hm => hd.1 (List.mem_map.2 ⟨_, hm, rfl⟩)
    · rename_i hne
      rw [hx.find, List.mem_cons]
      refine ⟨?_, Or.inr⟩
      rintro (rfl | hm)
      · exact absurd ⟨rfl, rfl⟩ hne
      · exact hm
  · intro scope m
    rw [member?_erase hmember, find?_erase hfind, hx.mirror]
    simp only [contextOf_eq_iff]

/-- The comments of a file, dropped one after another. -/
theorem Holds.eraseAll (hx : x.Holds (cs ++ ds)) : (cs.foldl Index.erase x).Holds ds := by
  induction cs generalizing x with
  | nil => exact hx
  | cons d cs ih => exact ih hx.erase

/-! ## What else there is stays -/

theorem insertAll_frame (h : cs.foldlM Index.insert x = .ok y) :
    y.files = x.files ∧ y.references = x.references ∧ y.pending = x.pending := by
  induction cs generalizing x with
  | nil =>
    cases h
    exact ⟨rfl, rfl, rfl⟩
  | cons d cs ih =>
    obtain ⟨z, hi, h⟩ := Fallible.foldlM_cons_eq_ok.1 h
    obtain ⟨hf, hr, hp⟩ := ih h
    unfold Index.insert at hi
    split at hi
    · cases hi
    · cases hi
      exact ⟨hf, hr, hp⟩

theorem eraseAll_frame :
    (cs.foldl Index.erase x).files = x.files ∧
      (cs.foldl Index.erase x).references = x.references ∧
      (cs.foldl Index.erase x).pending = x.pending := by
  induction cs generalizing x with
  | nil => exact ⟨rfl, rfl, rfl⟩
  | cons d cs ih => exact ih

/-- What the maps hold does not depend on the rest of the index. -/
theorem Holds.congr (hx : x.Holds ds) (hb : y.buckets = x.buckets) (hs : y.scopes = x.scopes) :
    y.Holds ds where
  distinct := hx.distinct
  find context signature c := by rw [find?, hb]; exact hx.find context signature c
  mirror scope m := by rw [member?, members?, find?, hb, hs]; exact hx.mirror scope m
  buckets_filled := hb ▸ hx.buckets_filled
  scopes_filled := hs ▸ hx.scopes_filled

end Index

end DocIndex
