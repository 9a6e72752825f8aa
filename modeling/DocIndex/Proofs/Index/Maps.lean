import DocIndex.Index.Basic
import Mathlib.Data.List.Nodup
import Std.Data.TreeMap.Lemmas

/-!
# Maps, and maps in two levels

A change to a map is told by the list of its entries (`toList_insert_perm`, `toList_erase_perm`).
The comments of an index stand in maps of maps: `entryAt?` looks through both levels, and each
change to such a map is told by what it does to `entryAt?`.

* `entryAt?_insertAt`, `entryAt?_eraseAt` — what is found behind a change.
* `Filled` — no part is empty. Both changes keep it.
* `flatten` — all entries in one list; `length_flatten` counts them part by part.
-/

namespace DocIndex

open Std (TreeMap TransOrd LawfulEqOrd)

namespace Maps

variable {α β γ : Type} [Ord α] [Ord β]

/-! ## Maps as lists -/

omit [Ord α] [Ord β] in
theorem values_eq_map_snd {cmp : α → α → Ordering} (t : TreeMap α β cmp) :
    t.values = t.toList.map Prod.snd := by
  have h : t.values = t.foldr (fun _ b bs => b :: bs) [] := rfl
  rw [h, TreeMap.foldr_eq_foldr_toList]
  induction t.toList with
  | nil => rfl
  | cons e es ih => rw [List.foldr_cons, ih, List.map_cons]

section Lists

omit [Ord β]

variable [TransOrd α]

theorem nodup_toList (m : TreeMap α γ) : m.toList.Nodup :=
  m.distinct_keys_toList.imp fun {a b} hne he => hne (by rw [he]; exact Std.ReflCmp.compare_self)

/-- Lists in the order of some key with the same entries are the same. -/
theorem eq_of_ordered (key : γ → α) {l l' : List γ}
    (hl : l.Pairwise fun a b => compare (key a) (key b) = .lt)
    (hl' : l'.Pairwise fun a b => compare (key a) (key b) = .lt) (h : ∀ e, e ∈ l ↔ e ∈ l') :
    l = l' := by
  have nodup {l : List γ} (hl : l.Pairwise fun a b => compare (key a) (key b) = .lt) : l.Nodup :=
    List.Pairwise.imp (fun {a b} hlt he => by
      have heq : compare (key b) (key b) = .eq := Std.ReflCmp.compare_self
      rw [he, heq] at hlt
      cases hlt) hl
  refine List.Perm.eq_of_pairwise (fun a b _ _ hab hba => ?_) hl hl' <|
    (List.perm_ext_iff_of_nodup (nodup hl) (nodup hl')).2 h
  rw [Std.OrientedCmp.gt_of_lt hab] at hba
  cases hba

/-- Maps that list the same entries list them alike. -/
theorem eq_of_mem_iff {l l' : List (α × γ)}
    (hl : l.Pairwise fun a b => compare a.1 b.1 = .lt)
    (hl' : l'.Pairwise fun a b => compare a.1 b.1 = .lt) (h : ∀ e, e ∈ l ↔ e ∈ l') : l = l' :=
  eq_of_ordered Prod.fst hl hl' h

/-- What is listed is found under every spelling of its key. -/
theorem getElem?_of_mem {m : TreeMap α γ} {e : α × γ} {k : α} (he : e ∈ m.toList)
    (h : compare k e.1 = .eq) : m[k]? = some e.2 :=
  TreeMap.getElem?_eq_some_iff_exists_compare_eq_eq_and_mem_toList.2 ⟨e.1, h, he⟩

/-- Nothing is found under a key that is listed in no spelling. -/
theorem getElem?_eq_none_iff {m : TreeMap α γ} {k : α} :
    m[k]? = none ↔ ∀ e ∈ m.toList, ¬compare k e.1 = .eq := by
  constructor
  · intro hnone e he h
    rw [getElem?_of_mem he h] at hnone
    cases hnone
  · intro h
    refine Option.eq_none_iff_forall_ne_some.2 fun v hv => ?_
    obtain ⟨a, he, hmem⟩ :=
      TreeMap.getElem?_eq_some_iff_exists_compare_eq_eq_and_mem_toList.1 hv
    exact h _ hmem he

/-- Every key is listed once, however it is spelled. -/
theorem eq_of_mem_of_compare {m : TreeMap α γ} {e e' : α × γ} (he : e ∈ m.toList)
    (he' : e' ∈ m.toList) (h : compare e.1 e'.1 = .eq) : e = e' := by
  have hk := (TreeMap.mem_toList_iff_getKey?_eq_some_and_getElem?_eq_some.1 he).1
  have hk' := (TreeMap.mem_toList_iff_getKey?_eq_some_and_getElem?_eq_some.1 he').1
  have hv := getElem?_of_mem he Std.ReflCmp.compare_self
  have hv' := getElem?_of_mem he' h
  rw [TreeMap.getKey?_congr h, hk'] at hk
  rw [hv'] at hv
  exact Prod.ext (Option.some.inj hk).symm (Option.some.inj hv).symm

theorem mem_erase {m : TreeMap α γ} {k : α} {e : α × γ} :
    e ∈ (m.erase k).toList ↔ ¬compare k e.1 = .eq ∧ e ∈ m.toList := by
  obtain ⟨a, c⟩ := e
  simp only [TreeMap.mem_toList_iff_getKey?_eq_some_and_getElem?_eq_some, TreeMap.getKey?_erase,
    TreeMap.getElem?_erase]
  by_cases h : compare k a = .eq
  · simp [h]
  · simp [h]

/-- What is listed behind a change was put there or was listed before. -/
theorem mem_of_mem_insert {m : TreeMap α γ} {k : α} {c : γ} {e : α × γ}
    (h : e ∈ (m.insert k c).toList) : e = (k, c) ∨ e ∈ m.toList := by
  obtain ⟨a, b⟩ := e
  rw [TreeMap.mem_toList_iff_getKey?_eq_some_and_getElem?_eq_some, TreeMap.getKey?_insert,
    TreeMap.getElem?_insert] at h
  by_cases he : compare k a = .eq
  · rw [if_pos he, if_pos he, Option.some.injEq, Option.some.injEq] at h
    exact .inl (Prod.ext h.1.symm h.2.symm)
  · rw [if_neg he, if_neg he] at h
    exact .inr (TreeMap.mem_toList_iff_getKey?_eq_some_and_getElem?_eq_some.2 h)

theorem toList_insert_perm {m : TreeMap α γ} {k : α} {c : γ}
    (hk : m[k]? = none) : (m.insert k c).toList.Perm ((k, c) :: m.toList) := by
  have hmem : k ∉ m := by
    rw [TreeMap.mem_iff_isSome_getElem?, hk]
    exact Bool.false_ne_true
  have hnot : (k, c) ∉ m.toList := by
    rw [TreeMap.mem_toList_iff_getKey?_eq_some_and_getElem?_eq_some]
    rintro ⟨-, h⟩
    rw [hk] at h
    cases h
  refine (List.perm_ext_iff_of_nodup (nodup_toList _)
    (List.nodup_cons.2 ⟨hnot, nodup_toList m⟩)).2 ?_
  rintro ⟨a, b⟩
  simp only [TreeMap.mem_toList_iff_getKey?_eq_some_and_getElem?_eq_some, List.mem_cons,
    Prod.mk.injEq, TreeMap.getKey?_insert, TreeMap.getElem?_insert]
  by_cases he : compare k a = .eq
  · have ha : m.getKey? a = none :=
      TreeMap.getKey?_eq_none fun h => hmem ((TreeMap.mem_congr he).2 h)
    simp only [he, if_true, ha, reduceCtorEq, false_and, or_false, Option.some.injEq]
    exact ⟨fun h => ⟨h.1.symm, h.2.symm⟩, fun h => ⟨h.1.symm, h.2.symm⟩⟩
  · have hne : a ≠ k := by
      rintro rfl
      exact he Std.ReflCmp.compare_self
    simp only [he, if_false, hne, false_and, false_or]

theorem toList_erase_perm {m : TreeMap α γ} {k : α} {c : γ}
    (hk : m[k]? = some c) :
    ∃ k', compare k k' = .eq ∧ m.toList.Perm ((k', c) :: (m.erase k).toList) := by
  obtain ⟨k', he, hmem⟩ :=
    TreeMap.getElem?_eq_some_iff_exists_compare_eq_eq_and_mem_toList.1 hk
  refine ⟨k', he, (List.perm_ext_iff_of_nodup (nodup_toList _) ?_).2 ?_⟩
  · refine List.nodup_cons.2 ⟨?_, nodup_toList _⟩
    rw [TreeMap.mem_toList_iff_getKey?_eq_some_and_getElem?_eq_some, TreeMap.getKey?_erase,
      if_pos he]
    rintro ⟨h, -⟩
    cases h
  rintro ⟨a, b⟩
  have hk' := TreeMap.mem_toList_iff_getKey?_eq_some_and_getElem?_eq_some.1 hmem
  simp only [TreeMap.mem_toList_iff_getKey?_eq_some_and_getElem?_eq_some, List.mem_cons,
    Prod.mk.injEq, TreeMap.getKey?_erase, TreeMap.getElem?_erase]
  by_cases ha : compare k a = .eq
  · have hak : compare a k' = .eq := Std.TransCmp.eq_trans (Std.OrientedCmp.eq_symm ha) he
    rw [TreeMap.getKey?_congr hak, TreeMap.getElem?_congr hak, hk'.1, hk'.2]
    simp only [ha, if_true, reduceCtorEq, false_and, or_false, Option.some.injEq]
    exact ⟨fun h => ⟨h.1.symm, h.2.symm⟩, fun h => ⟨h.1.symm, h.2.symm⟩⟩
  · have hne : a ≠ k' := by
      rintro rfl
      exact ha he
    simp only [ha, if_false, hne, false_and, false_or]

end Lists

/-! ## Two levels -/

/-- The entry `inner` of the part `outer`. -/
def entryAt? (m : TreeMap α (TreeMap β γ)) (outer : α) (inner : β) : Option γ :=
  m[outer]?.bind fun part => part[inner]?

/-- No part is empty. -/
def Filled (m : TreeMap α (TreeMap β γ)) : Prop :=
  ∀ (outer : α) (part : TreeMap β γ), m[outer]? = some part → part.isEmpty = false

/-- All entries, with the names of their parts. -/
def flatten (m : TreeMap α (TreeMap β γ)) : List (α × β × γ) :=
  m.toList.flatMap fun part => part.2.toList.map fun e => (part.1, e)

variable {m : TreeMap α (TreeMap β γ)}

theorem length_flatten : (flatten m).length = total (m.values.map TreeMap.size) := by
  rw [flatten, length_flatMap_eq_total, values_eq_map_snd, List.map_map]
  simp only [List.length_map, TreeMap.length_toList]
  rfl

variable [TransOrd α]

theorem getElem?_insertAt_self {outer : α} {inner : β} {c : γ} :
    (Index.insertAt m outer inner c)[outer]? = some ((m[outer]?.getD ∅).insert inner c) := by
  simp only [Index.insertAt, TreeMap.getElem?_alter_self]

/-- Where the entry stands, its part is left without it, and is not kept if nothing is left. -/
theorem getElem?_eraseAt_self [DecidableEq γ] {outer : α} {inner : β} {c : γ} {part : TreeMap β γ}
    (hp : m[outer]? = some part) (hc : part[inner]? = some c) :
    (Index.eraseAt m outer inner c)[outer]? =
      if (part.erase inner).isEmpty then none else some (part.erase inner) := by
  simp only [Index.eraseAt, TreeMap.getElem?_alter_self, hp, Option.bind_some, hc, if_true]

variable [LawfulEqOrd α]

theorem getElem?_insertAt_of_ne {outer other : α} {inner : β} {c : γ} (h : other ≠ outer) :
    (Index.insertAt m outer inner c)[other]? = m[other]? := by
  have hne : ¬compare outer other = .eq := fun he => h (LawfulEqOrd.eq_of_compare he).symm
  simp only [Index.insertAt, TreeMap.getElem?_alter, if_neg hne]

theorem getElem?_eraseAt_of_ne [DecidableEq γ] {outer other : α} {inner : β} {c : γ}
    (h : other ≠ outer) : (Index.eraseAt m outer inner c)[other]? = m[other]? := by
  have hne : ¬compare outer other = .eq := fun he => h (LawfulEqOrd.eq_of_compare he).symm
  simp only [Index.eraseAt, TreeMap.getElem?_alter, if_neg hne]

/-! ## No part is empty -/

theorem filled_eraseAt [DecidableEq γ] {outer : α} {inner : β} {c : γ} (hm : Filled m) :
    Filled (Index.eraseAt m outer inner c) := by
  intro other part h
  by_cases ho : other = outer
  · subst ho
    rw [Index.eraseAt, TreeMap.getElem?_alter_self, Option.bind_eq_some_iff] at h
    obtain ⟨old, -, h⟩ := h
    dsimp only at h
    generalize (if old[inner]? = some c then old.erase inner else old) = rest at h
    split at h
    · cases h
    · cases h
      exact Bool.eq_false_iff.2 ‹_›
  · rw [getElem?_eraseAt_of_ne ho] at h
    exact hm other part h

variable [TransOrd β]

omit [TransOrd α] [LawfulEqOrd α] in
theorem getElem?_getD_empty {outer : α} {inner : β} :
    (m[outer]?.getD ∅)[inner]? = entryAt? m outer inner := by
  cases h : m[outer]? with
  | none => simp [entryAt?, h]
  | some part => simp [entryAt?, h]

theorem filled_insertAt {outer : α} {inner : β} {c : γ} (hm : Filled m) :
    Filled (Index.insertAt m outer inner c) := by
  intro other part h
  by_cases ho : other = outer
  · subst ho
    rw [getElem?_insertAt_self, Option.some.injEq] at h
    subst h
    exact TreeMap.isEmpty_insert
  · rw [getElem?_insertAt_of_ne ho] at h
    exact hm other part h

/-! ## What is found -/

variable [LawfulEqOrd β]

theorem entryAt?_insertAt {outer outer' : α} {inner inner' : β} {c : γ} [DecidableEq α]
    [DecidableEq β] :
    entryAt? (Index.insertAt m outer inner c) outer' inner' =
      if outer' = outer ∧ inner' = inner then some c else entryAt? m outer' inner' := by
  by_cases ho : outer' = outer
  · subst ho
    rw [entryAt?, getElem?_insertAt_self, Option.bind_some, TreeMap.getElem?_insert]
    by_cases hi : inner' = inner
    · subst hi
      simp
    · have hne : ¬compare inner inner' = .eq := fun he => hi (LawfulEqOrd.eq_of_compare he).symm
      rw [if_neg hne, getElem?_getD_empty, if_neg fun h => hi h.2]
  · rw [entryAt?, getElem?_insertAt_of_ne ho, if_neg fun h => ho h.1, entryAt?]

theorem entryAt?_eraseAt [DecidableEq γ] {outer outer' : α} {inner inner' : β} {c : γ}
    [DecidableEq α] [DecidableEq β] (hc : entryAt? m outer inner = some c) :
    entryAt? (Index.eraseAt m outer inner c) outer' inner' =
      if outer' = outer ∧ inner' = inner then none else entryAt? m outer' inner' := by
  by_cases ho : outer' = outer
  · subst ho
    obtain ⟨part, hp, hpc⟩ := Option.bind_eq_some_iff.1 hc
    -- the rest of the part answers for it, be it kept or not
    have hrest : entryAt? (Index.eraseAt m outer' inner c) outer' inner' =
        (part.erase inner)[inner']? := by
      rw [entryAt?, getElem?_eraseAt_self hp hpc]
      split
      · rw [Option.bind_none, TreeMap.getElem?_of_isEmpty ‹_›]
      · rw [Option.bind_some]
    rw [hrest, TreeMap.getElem?_erase]
    by_cases hi : inner' = inner
    · subst hi
      simp
    · have hne : ¬compare inner inner' = .eq := fun he => hi (LawfulEqOrd.eq_of_compare he).symm
      rw [if_neg hne, if_neg fun h => hi h.2, entryAt?, hp, Option.bind_some]
  · rw [entryAt?, getElem?_eraseAt_of_ne ho, if_neg fun h => ho h.1, entryAt?]

/-! ## All entries -/

theorem mem_flatten {outer : α} {inner : β} {c : γ} :
    (outer, inner, c) ∈ flatten m ↔ entryAt? m outer inner = some c := by
  simp only [flatten, List.mem_flatMap, List.mem_map, Prod.mk.injEq, Prod.exists,
    TreeMap.mem_toList_iff_getElem?_eq_some, entryAt?, Option.bind_eq_some_iff]
  constructor
  · rintro ⟨o, part, hp, i, d, hd, rfl, rfl, rfl⟩
    exact ⟨part, hp, hd⟩
  · rintro ⟨part, hp, hd⟩
    exact ⟨outer, part, hp, inner, c, hd, rfl, rfl, rfl⟩

omit [LawfulEqOrd α] [LawfulEqOrd β] in
/-- Every place is listed once. -/
theorem nodup_flatten : ((flatten m).map fun e => (e.1, e.2.1)).Nodup := by
  rw [flatten, List.map_flatMap, List.nodup_flatMap]
  constructor
  · rintro ⟨o, part⟩ -
    rw [List.map_map, List.Nodup, List.pairwise_map]
    refine part.distinct_keys_toList.imp ?_
    intro a b hab he
    simp only [Function.comp, Prod.mk.injEq, true_and] at he
    exact hab (by rw [he]; exact Std.ReflCmp.compare_self)
  · refine m.distinct_keys_toList.imp ?_
    rintro ⟨o, p⟩ ⟨o', p'⟩ hne
    refine List.disjoint_iff_ne.2 ?_
    rintro ⟨i, j⟩ hi ⟨i', j'⟩ hi' he
    simp only [List.map_map, List.mem_map, Function.comp, Prod.mk.injEq] at hi hi' he
    obtain ⟨-, -, rfl, -⟩ := hi
    obtain ⟨-, -, rfl, -⟩ := hi'
    exact hne (by rw [he.1]; exact Std.ReflCmp.compare_self)

/-! ## Two levels as a list -/

omit [TransOrd α] [LawfulEqOrd α] [TransOrd β] [LawfulEqOrd β] in
/-- The parts in order, each as the list of its entries. -/
def table (m : TreeMap α (TreeMap β γ)) : List (α × List (β × γ)) :=
  m.toList.map fun part => (part.1, part.2.toList)

/-- What is found decides what is listed, as long as no part is empty. -/
theorem table_eq {m' : TreeMap α (TreeMap β γ)} (hm : Filled m) (hm' : Filled m')
    (h : ∀ outer inner, entryAt? m outer inner = entryAt? m' outer inner) :
    table m = table m' := by
  -- a part of one map is a part of the other, with the same entries
  have half {m m' : TreeMap α (TreeMap β γ)} (hm : Filled m)
      (h : ∀ outer inner, entryAt? m outer inner = entryAt? m' outer inner)
      {e : α × List (β × γ)} (he : e ∈ table m) : e ∈ table m' := by
    obtain ⟨⟨outer, part⟩, hmem, rfl⟩ := List.mem_map.1 he
    have hpart : m[outer]? = some part := TreeMap.mem_toList_iff_getElem?_eq_some.1 hmem
    have hentry : ∀ inner, entryAt? m outer inner = part[inner]? := fun inner => by
      rw [entryAt?, hpart, Option.bind_some]
    obtain ⟨inner, hinner⟩ := TreeMap.isEmpty_eq_false_iff_exists_mem.1 (hm outer part hpart)
    rw [TreeMap.mem_iff_isSome_getElem?, ← hentry, h, Option.isSome_iff_exists] at hinner
    obtain ⟨c, hc⟩ := hinner
    obtain ⟨part', hpart', -⟩ := Option.bind_eq_some_iff.1 hc
    have hsame : part.Equiv part' := by
      refine TreeMap.Equiv.of_forall_constGet?_eq fun inner => ?_
      rw [← hentry, h, entryAt?, hpart', Option.bind_some]
    refine List.mem_map.2 ⟨(outer, part'), TreeMap.mem_toList_iff_getElem?_eq_some.2 hpart', ?_⟩
    rw [hsame.toList_eq]
  have ordered (m : TreeMap α (TreeMap β γ)) :
      (table m).Pairwise fun a b => compare a.1 b.1 = .lt :=
    List.pairwise_map.2 m.ordered_keys_toList
  exact eq_of_mem_iff (ordered m) (ordered m') fun e =>
    ⟨half hm h, half hm' fun outer inner => (h outer inner).symm⟩

omit [TransOrd β] [LawfulEqOrd β] in
/-- Tables that are the same have the same parts. -/
theorem toList_of_table_eq {m' : TreeMap α (TreeMap β γ)} (h : table m = table m') (outer : α) :
    m[outer]?.map TreeMap.toList = m'[outer]?.map TreeMap.toList := by
  have listed (m : TreeMap α (TreeMap β γ)) (l : List (β × γ)) :
      m[outer]?.map TreeMap.toList = some l ↔ (outer, l) ∈ table m := by
    rw [Option.map_eq_some_iff, table, List.mem_map]
    constructor
    · rintro ⟨part, hpart, rfl⟩
      exact ⟨(outer, part), TreeMap.mem_toList_iff_getElem?_eq_some.2 hpart, rfl⟩
    · rintro ⟨⟨o, part⟩, hm, he⟩
      cases he
      exact ⟨part, TreeMap.mem_toList_iff_getElem?_eq_some.1 hm, rfl⟩
  refine Option.ext fun l => ?_
  rw [listed, listed, h]

end Maps

end DocIndex
