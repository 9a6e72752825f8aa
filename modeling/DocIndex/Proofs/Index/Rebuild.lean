import DocIndex.Index.Snapshot
import DocIndex.Proofs.Index.Maps

/-!
# Maps and sets rebuilt from their entries

A map into which the entries of another map are put one after another has the same entries, keys
spelled as they were, and so does a set.
-/

namespace DocIndex

open Std (TreeMap TreeSet TransOrd)

namespace Maps

variable {α γ : Type} [Ord α] [TransOrd α]

/-- Entries put in one after another, all at places where there is nothing yet. -/
theorem foldl_insert_perm {l : List (α × γ)} {m : TreeMap α γ}
    (hl : l.Pairwise fun a b => ¬compare a.1 b.1 = .eq) (hm : ∀ e ∈ l, m[e.1]? = none) :
    (l.foldl (fun m e => m.insert e.1 e.2) m).toList.Perm (l ++ m.toList) := by
  induction l generalizing m with
  | nil => exact .refl _
  | cons e l ih =>
    rw [List.pairwise_cons] at hl
    have hrest : ∀ a ∈ l, (m.insert e.1 e.2)[a.1]? = none := by
      intro a ha
      rw [TreeMap.getElem?_insert, if_neg (hl.1 a ha)]
      exact hm a (List.mem_cons_of_mem _ ha)
    have hhead := toList_insert_perm (c := e.2) (hm e List.mem_cons_self)
    exact (ih hl.2 hrest).trans ((hhead.append_left l).trans List.perm_middle)

theorem toList_foldl_insert {l : List (α × γ)}
    (hl : l.Pairwise fun a b => compare a.1 b.1 = .lt) :
    (l.foldl (fun m e => m.insert e.1 e.2) (∅ : TreeMap α γ)).toList = l := by
  have hne : l.Pairwise fun a b => ¬compare a.1 b.1 = .eq := hl.imp fun h => by
    rw [h]
    nofun
  have hperm := foldl_insert_perm (m := ∅) hne fun e _ => TreeMap.getElem?_emptyc
  have hnil : (∅ : TreeMap α γ).toList = [] := rfl
  rw [hnil, List.append_nil] at hperm
  exact eq_of_mem_iff TreeMap.ordered_keys_toList hl fun e => hperm.mem_iff

/-- A map into which its own entries are put once more. -/
theorem toList_rebuild (m : TreeMap α γ) :
    (m.toList.foldl (fun m e => m.insert e.1 e.2) (∅ : TreeMap α γ)).toList = m.toList :=
  toList_foldl_insert m.ordered_keys_toList

/-! ## Sets -/

/-- Where there is nothing yet, both ways to put in an entry do the same. -/
theorem insertIfNew_equiv {m : TreeMap α γ} {k : α} {c : γ} (hk : m[k]? = none) :
    (m.insertIfNew k c).Equiv (m.insert k c) := by
  have hmem : k ∉ m := by
    rw [TreeMap.mem_iff_isSome_getElem?, hk]
    exact Bool.false_ne_true
  refine TreeMap.Equiv.of_forall_getKey_eq_of_forall_constGet?_eq ?_ ?_
  · intro a h h'
    rw [TreeMap.getKey_insertIfNew, TreeMap.getKey_insert]
    by_cases he : compare k a = .eq
    · rw [dif_pos ⟨he, hmem⟩, dif_pos he]
    · rw [dif_neg fun h => he h.1, dif_neg he]
  · intro a
    rw [TreeMap.getElem?_insertIfNew, TreeMap.getElem?_insert]
    by_cases he : compare k a = .eq
    · rw [if_pos ⟨he, hmem⟩, if_pos he]
    · rw [if_neg fun h => he h.1, if_neg he]

theorem contains_foldl_insert {l : List α} {s : TreeSet α} {a : α} :
    (l.foldl TreeSet.insert s).contains a = true ↔
      (∃ b ∈ l, compare b a = .eq) ∨ s.contains a = true := by
  induction l generalizing s with
  | nil => simp
  | cons b l ih =>
    rw [List.foldl_cons, ih, TreeSet.contains_insert, Bool.or_eq_true, beq_iff_eq]
    simp only [List.mem_cons, exists_eq_or_imp, or_assoc, or_left_comm]

theorem contains_setOf {l : List α} {a : α} :
    (Index.setOf l).contains a = true ↔ ∃ b ∈ l, compare b a = .eq := by
  rw [Index.setOf, contains_foldl_insert, TreeSet.contains_emptyc]
  simp

/-- An item is in a set if the set lists it, however it is spelled. -/
theorem mem_set_iff {s : TreeSet α} {a : α} : a ∈ s ↔ ∃ b ∈ s.toList, compare b a = .eq := by
  have hlist : s.toList = s.inner.toList.map Prod.fst := TreeMap.map_fst_toList_eq_keys.symm
  have hmem : a ∈ s ↔ a ∈ s.inner := Iff.rfl
  rw [hlist, hmem]
  constructor
  · intro h
    obtain ⟨u, hu⟩ := Option.isSome_iff_exists.1 (TreeMap.mem_iff_isSome_getElem?.1 h)
    obtain ⟨b, hb, hm⟩ :=
      TreeMap.getElem?_eq_some_iff_exists_compare_eq_eq_and_mem_toList.1 hu
    exact ⟨b, List.mem_map.2 ⟨_, hm, rfl⟩, Std.OrientedCmp.eq_symm hb⟩
  · rintro ⟨b, hb, he⟩
    obtain ⟨e, he', rfl⟩ := List.mem_map.1 hb
    rw [TreeMap.mem_iff_isSome_getElem?, getElem?_of_mem he' (Std.OrientedCmp.eq_symm he)]
    rfl

/-- The items of both sets. -/
theorem mem_joinSets {s t : TreeSet α} {a : α} :
    a ∈ Index.joinSets s t ↔ a ∈ s ∨ a ∈ t := by
  rw [Index.joinSets, TreeSet.foldl_eq_foldl_toList, ← TreeSet.contains_iff_mem,
    contains_foldl_insert, TreeSet.contains_iff_mem, mem_set_iff (s := t), or_comm]

theorem toList_set_insert_perm {s : TreeSet α} {a : α} (ha : a ∉ s) :
    (s.insert a).toList.Perm (a :: s.toList) := by
  have hnone : s.inner[a]? = none := TreeMap.getElem?_eq_none ha
  have hperm := (insertIfNew_equiv hnone).toList_eq ▸ toList_insert_perm (c := ()) hnone
  have hkeys := hperm.map Prod.fst
  rw [TreeMap.map_fst_toList_eq_keys, List.map_cons, TreeMap.map_fst_toList_eq_keys] at hkeys
  exact hkeys

theorem foldl_set_insert_perm {l : List α} {s : TreeSet α}
    (hl : l.Pairwise fun a b => ¬compare a b = .eq) (hs : ∀ a ∈ l, a ∉ s) :
    (l.foldl TreeSet.insert s).toList.Perm (l ++ s.toList) := by
  induction l generalizing s with
  | nil => exact .refl _
  | cons a l ih =>
    rw [List.pairwise_cons] at hl
    have hrest : ∀ b ∈ l, b ∉ s.insert a := by
      intro b hb hm
      rcases TreeSet.mem_insert.1 hm with he | hm
      · exact hl.1 b hb he
      · exact hs b (List.mem_cons_of_mem _ hb) hm
    have hhead := toList_set_insert_perm (hs a List.mem_cons_self)
    exact (ih hl.2 hrest).trans ((hhead.append_left l).trans List.perm_middle)

/-- A set of its own items. -/
theorem toList_setOf (s : TreeSet α) : (Index.setOf s.toList).toList = s.toList := by
  have hl := s.ordered_toList
  have hne : s.toList.Pairwise fun a b => ¬compare a b = .eq := hl.imp fun h => by
    rw [h]
    nofun
  have hperm := foldl_set_insert_perm (s := ∅) hne fun a _ => TreeSet.not_mem_emptyc
  have hnil : (∅ : TreeSet α).toList = [] := rfl
  rw [hnil, List.append_nil] at hperm
  exact eq_of_ordered id (Index.setOf s.toList).ordered_toList hl fun a => hperm.mem_iff

end Maps

end DocIndex
