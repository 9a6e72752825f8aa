import DocIndex.Fallible
import Mathlib.Data.List.Forall2

/-!
# Lists of questions

A list of questions is answered exactly if each of them is.
-/

namespace DocIndex

namespace Fallible

variable {α β : Type}

/-- A list of questions is answered exactly if each of them is. -/
theorem mapM_eq_some {f : α → Option β} {as : List α} {bs : List β} :
    as.mapM f = some bs ↔ List.Forall₂ (fun a b => f a = some b) as bs := by
  induction as generalizing bs with
  | nil =>
    rw [List.mapM_nil, List.forall₂_nil_left_iff]
    exact ⟨fun h => (Option.some.inj h).symm, fun h => h ▸ rfl⟩
  | cons a as ih =>
    rw [List.mapM_cons]
    constructor
    · intro h
      obtain ⟨b, hb, h⟩ := Option.bind_eq_some_iff.1 h
      obtain ⟨rest, hrest, h⟩ := Option.bind_eq_some_iff.1 h
      cases h
      exact .cons hb (ih.1 hrest)
    · rintro (_ | ⟨hb, hrest⟩)
      rw [hb, ih.2 hrest]
      rfl

/-- Questions that are answered one by one are answered all. -/
theorem exists_mapM {f : α → Option β} {as : List α} (h : ∀ a ∈ as, ∃ b, f a = some b) :
    ∃ bs, as.mapM f = some bs := by
  induction as with
  | nil => exact ⟨[], rfl⟩
  | cons a as ih =>
    obtain ⟨⟨b, hb⟩, hrest⟩ := List.forall_mem_cons.1 h
    obtain ⟨bs, hbs⟩ := ih hrest
    exact ⟨b :: bs, mapM_eq_some.2 (.cons hb (mapM_eq_some.1 hbs))⟩

/-- Every answer is the answer to some question. -/
theorem exists_of_mapM {f : α → Option β} {as : List α} {bs : List β} (h : as.mapM f = some bs)
    {b : β} (hb : b ∈ bs) : ∃ a ∈ as, f a = some b := by
  have hall := mapM_eq_some.1 h
  clear h
  induction hall with
  | nil => cases hb
  | @cons a b' as bs hab _ ih =>
    rcases List.mem_cons.1 hb with rfl | hb
    · exact ⟨a, List.mem_cons_self, hab⟩
    · obtain ⟨a', ha', hab'⟩ := ih hb
      exact ⟨a', List.mem_cons_of_mem _ ha', hab'⟩

/-- Questions that are answered where `P` holds are all answered where it holds of all. -/
theorem mapM_guarded {γ : Type} {P : α → Prop} [DecidablePred P] {f : β → Option γ} {g : α → γ}
    {as : List α} {bs : List β}
    (h : List.Forall₂ (fun a b => f b = if P a then some (g a) else none) as bs) :
    bs.mapM f = if ∀ a ∈ as, P a then some (as.map g) else none := by
  induction h with
  | nil => simp
  | @cons a b as bs hb _ ih =>
    rw [List.mapM_cons, hb, ih]
    by_cases ha : P a
    · by_cases has : ∀ a ∈ as, P a
      · rw [if_pos ha, if_pos has, if_pos (List.forall_mem_cons.2 ⟨ha, has⟩)]
        rfl
      · rw [if_pos ha, if_neg has, if_neg fun h => has (List.forall_mem_cons.1 h).2]
        rfl
    · rw [if_neg ha, if_neg fun h => ha (List.forall_mem_cons.1 h).1]
      rfl

end Fallible

end DocIndex
