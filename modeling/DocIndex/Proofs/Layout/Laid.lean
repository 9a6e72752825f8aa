import DocIndex.Outline.Reading

/-!
# Laid out outlines

While a text is read, some cursors are over, and some are still open: their bodies are being read,
and nobody knows yet how far they will reach. What keeps the cursors nested is where the open ones
begin. Such a lexeme is an *edge*: no cursor that is over lies across it, and the next cursor that
comes to an end begins at the innermost one.

* `Edge` — a lexeme at which something begins that is not over.
* `Outline.Laid` — **the invariant of reading**: what holds of an outline between two operations.
* `Laid.declare`, `Laid.claim`, `Laid.shut` — what keeps it: a cursor begins at the innermost edge,
  takes lexemes from there on, and is over behind everything that has been read.
-/

namespace DocIndex

/-- A lexeme at which something begins that is not over, and the open cursors that begin there. -/
structure Edge where
  first : Nat
  ids : List CursorId

/-- The cursors that are open. -/
def Edge.opened (edges : List Edge) : List CursorId :=
  edges.flatMap Edge.ids

@[simp] theorem Edge.opened_nil : Edge.opened [] = [] := rfl

@[simp] theorem Edge.opened_cons (e : Edge) (edges : List Edge) :
    Edge.opened (e :: edges) = e.ids ++ Edge.opened edges := rfl

namespace Draft

/-- No part of the cursor stands on either side of lexeme `first`, unless the cursor reaches over
the whole text, as it does if its last lexeme is none of the `size` lexemes of the text. -/
def Clear (size first : Nat) (d : Draft) : Prop :=
  size ≤ d.last ∨ d.last < first ∨ first ≤ d.first

/-- One cursor stands inside of the other, or they stand apart. -/
def Fits (size : Nat) (d e : Draft) : Prop :=
  size ≤ d.last ∨ size ≤ e.last ∨ d.last < e.first ∨ e.last < d.first ∨
    (d.first ≤ e.first ∧ e.last ≤ d.last) ∨ (e.first ≤ d.first ∧ d.last ≤ e.last)

theorem Fits.refl (size : Nat) (d : Draft) : d.Fits size d :=
  .inr (.inr (.inr (.inr (.inl ⟨Nat.le_refl _, Nat.le_refl _⟩))))

theorem Fits.symm {size : Nat} {d e : Draft} (h : d.Fits size e) : e.Fits size d := by
  unfold Fits at h ⊢
  omega

/-- A cursor that comes to an end fits every cursor that was over before and does not stand across
its first lexeme. -/
theorem Clear.fits {size : Nat} {d e : Draft} (h : e.Clear size d.first)
    (hlast : size ≤ e.last ∨ e.last ≤ d.last) : d.Fits size e := by
  unfold Clear at h
  unfold Fits
  omega

end Draft

namespace Outline

/-- Lexeme `k` may belong to cursor `id`. Directly behind the call of a macro that may be a `;`. -/
def MayOwn (s : Source) (edges : List Edge) (o : Outline) (id : CursorId) (k : Nat) : Prop :=
  id = 0 ∨ ∃ d, o.drafts[id]? = some d ∧ d.first ≤ k ∧
    (id ∈ Edge.opened edges ∨ k ≤ d.last ∨
      d.kind = .macroInstantiation ∧ k = d.last + 1 ∧ s.spelling k = ";")

/-- The lexemes in front of `next` have been read, and what begins at the edges, the innermost one
in front, is not over. -/
structure Laid (s : Source) (edges : List Edge) (next : Nat) (o : Outline) : Prop where
  size : o.owners.size = s.size
  /-- The file itself stands in nothing. -/
  root : ∃ d, o.drafts[0]? = some d ∧ d.parent = none
  /-- The parent of a cursor has a smaller number. -/
  parents : ∀ (id : CursorId) (d : Draft), 0 < id → o.drafts[id]? = some d →
    d.first < s.size ∧ ∃ p, d.parent = some p ∧ p < id
  scopes : ∀ (name : String) (id : CursorId), o.scopes.lookup name = some id → id < o.drafts.size
  sorted : edges.Pairwise fun e outer => outer.first ≤ e.first
  reached : ∀ e ∈ edges, e.first ≤ next ∧ e.first < s.size
  begun : ∀ e ∈ edges, ∀ id ∈ e.ids,
    0 < id ∧ e.first < next ∧ ∃ d, o.drafts[id]? = some d ∧ d.first = e.first
  /-- A cursor that is over ends in front of what is read next and stands across no edge. -/
  closed : ∀ (id : CursorId) (d : Draft), 0 < id → id ∉ Edge.opened edges →
    o.drafts[id]? = some d → d.first ≤ d.last ∧ (s.size ≤ d.last ∨ d.last < next) ∧
      ∀ e ∈ edges, d.Clear s.size e.first
  /-- Cursors that are over are nested or apart. -/
  fits : ∀ (id id' : CursorId) (d d' : Draft), 0 < id → 0 < id' → id ∉ Edge.opened edges →
    id' ∉ Edge.opened edges → o.drafts[id]? = some d → o.drafts[id']? = some d' →
      d.Fits s.size d'
  /-- A lexeme belongs to a cursor that it stands in. -/
  owned : ∀ (k : Nat) (id : CursorId), o.owners[k]? = some (some id) →
    k < next ∧ o.MayOwn s edges id k

namespace Laid

variable {s : Source} {edges : List Edge} {e : Edge} {next next' : Nat} {o o' : Outline}
  {ids : List CursorId} {id : CursorId} {first last : Nat}

/-! ## Cursors and lexemes that exist -/

theorem file (h : o.Laid s edges next) : 0 < o.drafts.size := by
  obtain ⟨d, hd, -⟩ := h.root
  exact (Array.getElem?_eq_some_iff.1 hd).1

theorem lt_size_of_opened (h : o.Laid s edges next) (hid : id ∈ 0 :: Edge.opened edges) :
    id < o.drafts.size := by
  rcases List.mem_cons.1 hid with rfl | hid
  · exact h.file
  · obtain ⟨e, he, hid⟩ := List.mem_flatMap.1 hid
    obtain ⟨-, -, d, hd, -⟩ := h.begun e he id hid
    exact (Array.getElem?_eq_some_iff.1 hd).1

theorem lt_size_of_owned (h : o.Laid s edges next) {k : Nat}
    (hk : o.owners[k]? = some (some id)) : k < s.size := by
  rw [← h.size]
  exact (Array.getElem?_eq_some_iff.1 hk).1

/-- An open cursor may own what stands behind its edge. -/
theorem mayOwn_of_mem (h : o.Laid s edges next) (he : e ∈ edges) (hid : id ∈ e.ids) {k : Nat}
    (hk : e.first ≤ k) : o.MayOwn s edges id k := by
  obtain ⟨-, -, d, hd, hfirst⟩ := h.begun e he id hid
  have hopened : id ∈ Edge.opened edges := List.mem_flatMap.2 ⟨e, he, hid⟩
  exact .inr ⟨d, hd, by omega, .inl hopened⟩

/-- The owner of a scope may own whatever is read next. -/
theorem mayOwn_next (h : o.Laid s edges next) (hid : id ∈ 0 :: Edge.opened edges) {k : Nat}
    (hk : next ≤ k) : o.MayOwn s edges id k := by
  rcases List.mem_cons.1 hid with rfl | hid
  · exact .inl rfl
  · obtain ⟨e, he, hid⟩ := List.mem_flatMap.1 hid
    have hreached := (h.reached e he).1
    exact h.mayOwn_of_mem he hid (by omega)

/-! ## Reading on -/

/-- Nothing that has to do with cursors or owners has changed. -/
theorem congr (h : o.Laid s edges next) (hd : o'.drafts = o.drafts) (ho : o'.owners = o.owners)
    (hs : o'.scopes = o.scopes) : o'.Laid s edges next := by
  constructor
  case size => rw [ho]; exact h.size
  case root => rw [hd]; exact h.root
  case parents => rw [hd]; exact h.parents
  case scopes => rw [hd, hs]; exact h.scopes
  case sorted => exact h.sorted
  case reached => exact h.reached
  case begun => rw [hd]; exact h.begun
  case closed => rw [hd]; exact h.closed
  case fits => rw [hd]; exact h.fits
  case owned => unfold MayOwn; rw [hd, ho]; exact h.owned

theorem note (h : o.Laid s edges next) (notes : List Note) : (o.note notes).Laid s edges next :=
  h.congr rfl rfl rfl

theorem nameModule (h : o.Laid s edges next) (name : String) :
    (o.nameModule name).Laid s edges next :=
  h.congr rfl rfl rfl

theorem define (h : o.Laid s edges next) (name : String) (hasParameters : Bool) :
    (o.define name hasParameters).Laid s edges next :=
  h.congr rfl rfl rfl

theorem undefine (h : o.Laid s edges next) (name : String) :
    (o.undefine name).Laid s edges next :=
  h.congr rfl rfl rfl

/-- Reading may go on anywhere behind what has been read; behind the end of the text all places are
alike. -/
theorem mono (h : o.Laid s edges next) (hnext : min next s.size ≤ next') :
    o.Laid s edges next' where
  size := h.size
  root := h.root
  parents := h.parents
  scopes := h.scopes
  sorted := h.sorted
  reached e he := by
    have := h.reached e he
    omega
  begun e he id hid := by
    have hreached := h.reached e he
    obtain ⟨hpos, hlt, hd⟩ := h.begun e he id hid
    exact ⟨hpos, by omega, hd⟩
  closed id d hid hopen hd := by
    obtain ⟨hle, hlt, hclear⟩ := h.closed id d hid hopen hd
    exact ⟨hle, by omega, hclear⟩
  fits := h.fits
  owned k id hk := by
    have hsize := h.lt_size_of_owned hk
    obtain ⟨hlt, hown⟩ := h.owned k id hk
    exact ⟨by omega, hown⟩

/-! ## Edges -/

/-- Something begins at the lexeme that is read next. -/
theorem push (h : o.Laid s edges next) (hnext : next < s.size) :
    o.Laid s (⟨next, []⟩ :: edges) next where
  size := h.size
  root := h.root
  parents := h.parents
  scopes := h.scopes
  sorted := List.pairwise_cons.2 ⟨fun e he => (h.reached e he).1, h.sorted⟩
  reached := by
    intro e he
    rcases List.mem_cons.1 he with rfl | he
    · exact ⟨Nat.le_refl _, hnext⟩
    · exact h.reached e he
  begun := by
    intro e he id hid
    rcases List.mem_cons.1 he with rfl | he
    · cases hid
    · exact h.begun e he id hid
  closed := by
    intro id d hid hopen hd
    obtain ⟨hle, hlt, hclear⟩ := h.closed id d hid hopen hd
    refine ⟨hle, hlt, fun e he => ?_⟩
    rcases List.mem_cons.1 he with rfl | he
    · rcases hlt with hlt | hlt
      · exact .inl hlt
      · exact .inr (.inl hlt)
    · exact hclear e he
  fits := h.fits
  owned := h.owned

/-- All that began at the innermost edge is over. -/
theorem pop (h : o.Laid s (⟨first, []⟩ :: edges) next) : o.Laid s edges next where
  size := h.size
  root := h.root
  parents := h.parents
  scopes := h.scopes
  sorted := (List.pairwise_cons.1 h.sorted).2
  reached e he := h.reached e (List.mem_cons_of_mem _ he)
  begun e he := h.begun e (List.mem_cons_of_mem _ he)
  closed id d hid hopen hd := by
    obtain ⟨hle, hlt, hclear⟩ := h.closed id d hid hopen hd
    exact ⟨hle, hlt, fun e he => hclear e (List.mem_cons_of_mem _ he)⟩
  fits := h.fits
  owned := h.owned

/-! ## New cursors -/

theorem getElem?_declare {kind : CursorKind} {spelling : String} {parent : CursorId}
    (i : CursorId) :
    (o.declare kind spelling first last parent).1.drafts[i]? =
      if i = o.drafts.size then some ⟨kind, spelling, first, max last first, some parent⟩
      else o.drafts[i]? := by
  simp only [Outline.declare, Array.getElem?_push]

/-- A cursor begins at the innermost edge. It is open until it is said to be over. -/
theorem declare (h : o.Laid s (⟨first, ids⟩ :: edges) next) (hlt : first < next)
    (kind : CursorKind) (spelling : String) (last : Nat) {parent : CursorId}
    (hp : parent < o.drafts.size) :
    (o.declare kind spelling first last parent).1.Laid s
      (⟨first, ids ++ [o.drafts.size]⟩ :: edges) next := by
  have hfirst := (h.reached _ List.mem_cons_self).2
  have hsize : (o.declare kind spelling first last parent).1.drafts.size = o.drafts.size + 1 :=
    Array.size_push _
  -- the other cursors are open if they were open before
  have hopen {i : CursorId}
      (hi : i ∉ Edge.opened (⟨first, ids ++ [o.drafts.size]⟩ :: edges)) :
      i ≠ o.drafts.size ∧ i ∉ Edge.opened (⟨first, ids⟩ :: edges) := by
    simp only [Edge.opened_cons, List.mem_append, List.mem_singleton, not_or] at hi ⊢
    exact ⟨hi.1.2, hi.1.1, hi.2⟩
  have hold {i : CursorId} {d : Draft} (hd : o.drafts[i]? = some d) :
      (o.declare kind spelling first last parent).1.drafts[i]? = some d := by
    have hi := (Array.getElem?_eq_some_iff.1 hd).1
    rw [getElem?_declare, if_neg (Nat.ne_of_lt hi)]
    exact hd
  constructor
  case size => exact h.size
  case root =>
    obtain ⟨d, hd, hparent⟩ := h.root
    exact ⟨d, hold hd, hparent⟩
  case parents =>
    intro i d hi hd
    rw [getElem?_declare] at hd
    split at hd
    · rename_i heq
      cases hd
      exact ⟨hfirst, parent, rfl, heq ▸ hp⟩
    · exact h.parents i d hi hd
  case scopes =>
    intro name i hi
    rw [hsize]
    exact Nat.lt_succ_of_lt (h.scopes name i hi)
  case sorted => exact List.pairwise_cons.2 (List.pairwise_cons.1 h.sorted)
  case reached =>
    intro e he
    rcases List.mem_cons.1 he with rfl | he
    · exact h.reached ⟨first, ids⟩ List.mem_cons_self
    · exact h.reached e (List.mem_cons_of_mem _ he)
  case begun =>
    intro e he i hi
    rcases List.mem_cons.1 he with rfl | he
    · rcases List.mem_append.1 hi with hi | hi
      · obtain ⟨hpos, hlt, d, hd, hfirst⟩ := h.begun _ List.mem_cons_self i hi
        exact ⟨hpos, hlt, d, hold hd, hfirst⟩
      · have hi : i = o.drafts.size := List.mem_singleton.1 hi
        subst hi
        exact ⟨h.file, hlt, _, (getElem?_declare _).trans (if_pos rfl), rfl⟩
    · obtain ⟨hpos, hlt, d, hd, hfirst⟩ := h.begun e (List.mem_cons_of_mem _ he) i hi
      exact ⟨hpos, hlt, d, hold hd, hfirst⟩
  case closed =>
    intro i d hi ho hd
    obtain ⟨hne, ho⟩ := hopen ho
    rw [getElem?_declare, if_neg hne] at hd
    obtain ⟨hle, hlt, hclear⟩ := h.closed i d hi ho hd
    refine ⟨hle, hlt, fun e he => ?_⟩
    rcases List.mem_cons.1 he with rfl | he
    · exact hclear ⟨first, ids⟩ List.mem_cons_self
    · exact hclear e (List.mem_cons_of_mem _ he)
  case fits =>
    intro i i' d d' hi hi' ho ho' hd hd'
    obtain ⟨hne, ho⟩ := hopen ho
    obtain ⟨hne', ho'⟩ := hopen ho'
    rw [getElem?_declare, if_neg hne] at hd
    rw [getElem?_declare, if_neg hne'] at hd'
    exact h.fits i i' d d' hi hi' ho ho' hd hd'
  case owned =>
    intro k i hk
    obtain ⟨hlt, hown⟩ := h.owned k i hk
    refine ⟨hlt, ?_⟩
    rcases hown with rfl | ⟨d, hd, hle, hin⟩
    · exact .inl rfl
    · refine .inr ⟨d, hold hd, hle, ?_⟩
      rcases hin with hin | hin
      · refine .inl ?_
        simp only [Edge.opened_cons, List.mem_append] at hin ⊢
        rcases hin with hin | hin
        · exact .inl (.inl hin)
        · exact .inr hin
      · exact .inr hin

/-! ## Claims -/

/-- A lexeme belongs to whom it belonged to, or it was claimed. -/
theorem owner_of_claim {k : Nat} {i : CursorId}
    (hk : (o.claim first last id).owners[k]? = some (some i)) :
    o.owners[k]? = some (some i) ∨ first ≤ k ∧ k ≤ last ∧ i = id := by
  rw [Outline.claim, getElem?_claimFrom] at hk
  split at hk
  · rename_i hin
    obtain ⟨owner, ho, hi⟩ := Option.map_eq_some_iff.1 hk
    cases owner with
    | none =>
      have hid : id = i := Option.some.inj hi
      exact .inr ⟨hin.1, by omega, hid.symm⟩
    | some j =>
      have hj : j = i := Option.some.inj hi
      exact .inl (hj ▸ ho)
  · exact .inl hk

/-- A cursor is given lexemes that it may own. -/
theorem claim (h : o.Laid s edges next) (hlast : min (last + 1) s.size ≤ next)
    (hown : ∀ k, first ≤ k → k ≤ last → k < s.size → o.MayOwn s edges id k) :
    (o.claim first last id).Laid s edges next where
  size := (size_claimFrom ..).trans h.size
  root := h.root
  parents := h.parents
  scopes := h.scopes
  sorted := h.sorted
  reached := h.reached
  begun := h.begun
  closed := h.closed
  fits := h.fits
  owned k i hk := by
    have hsize : k < s.size := by
      have hlt := (Array.getElem?_eq_some_iff.1 hk).1
      rwa [Outline.claim, size_claimFrom, h.size] at hlt
    rcases owner_of_claim hk with hk | ⟨hle, hge, rfl⟩
    · exact h.owned k i hk
    · exact ⟨by omega, hown k hle hge hsize⟩

/-- An open cursor is given lexemes behind its edge. -/
theorem claim_opened (h : o.Laid s edges next) (he : e ∈ edges) (hid : id ∈ e.ids)
    (hfirst : e.first ≤ first) (hlast : min (last + 1) s.size ≤ next) :
    (o.claim first last id).Laid s edges next :=
  h.claim hlast fun _ hk _ _ => h.mayOwn_of_mem he hid (Nat.le_trans hfirst hk)

/-- The owner of a scope is given the lexeme that is read next. -/
theorem claim_next (h : o.Laid s edges next) (hid : id ∈ 0 :: Edge.opened edges) :
    (o.claim next next id).Laid s edges (next + 1) :=
  (h.mono (show min next s.size ≤ next + 1 by omega)).claim (Nat.min_le_left _ _)
    fun _ hk _ _ => h.mayOwn_next hid hk

/-! ## Ends -/

theorem getElem?_reachTo (i : CursorId) :
    (o.reachTo id last).drafts[i]? =
      if id = i then o.drafts[i]?.map fun d => { d with last } else o.drafts[i]? := by
  rw [Outline.reachTo, Array.getElem?_modify]

/-- How far an open cursor reaches is not settled. -/
theorem reachTo (h : o.Laid s edges next) (hid : id ∈ Edge.opened edges) (last : Nat) :
    (o.reachTo id last).Laid s edges next := by
  have hsize : (o.reachTo id last).drafts.size = o.drafts.size := Array.size_modify
  have hmem {i : CursorId} {d : Draft} (hd : o.drafts[i]? = some d) :
      ∃ d', (o.reachTo id last).drafts[i]? = some d' ∧ d'.first = d.first ∧
        d'.kind = d.kind ∧ (i ∉ Edge.opened edges → d' = d) := by
    rw [getElem?_reachTo]
    split
    · rename_i hi
      rw [hd]
      exact ⟨_, rfl, rfl, rfl, fun hn => absurd (hi ▸ hid) hn⟩
    · exact ⟨d, hd, rfl, rfl, fun _ => rfl⟩
  -- the file itself is never open
  have hfile {d : Draft} (hd : o.drafts[0]? = some d) :
      (o.reachTo id last).drafts[0]? = some d := by
    obtain ⟨e, he, hid⟩ := List.mem_flatMap.1 hid
    have hpos : 0 < id := (h.begun e he id hid).1
    rw [getElem?_reachTo, if_neg (Nat.ne_of_gt hpos)]
    exact hd
  have hold {i : CursorId} {d : Draft} (hi : i ∉ Edge.opened edges)
      (hd : (o.reachTo id last).drafts[i]? = some d) : o.drafts[i]? = some d := by
    rw [getElem?_reachTo, if_neg fun heq : id = i => hi (heq ▸ hid)] at hd
    exact hd
  constructor
  case size => exact h.size
  case root =>
    obtain ⟨d, hd, hparent⟩ := h.root
    exact ⟨d, hfile hd, hparent⟩
  case parents =>
    intro i d hi hd
    rw [getElem?_reachTo] at hd
    split at hd
    · obtain ⟨d', hd', rfl⟩ := Option.map_eq_some_iff.1 hd
      exact h.parents i d' hi hd'
    · exact h.parents i d hi hd
  case scopes => rw [hsize]; exact h.scopes
  case sorted => exact h.sorted
  case reached => exact h.reached
  case begun =>
    intro e he i hi
    obtain ⟨hpos, hlt, d, hd, hfirst⟩ := h.begun e he i hi
    obtain ⟨d', hd', hfirst', -⟩ := hmem hd
    exact ⟨hpos, hlt, d', hd', by omega⟩
  case closed =>
    intro i d hi ho hd
    exact h.closed i d hi ho (hold ho hd)
  case fits =>
    intro i i' d d' hi hi' ho ho' hd hd'
    exact h.fits i i' d d' hi hi' ho ho' (hold ho hd) (hold ho' hd')
  case owned =>
    intro k i hk
    obtain ⟨hlt, hown⟩ := h.owned k i hk
    refine ⟨hlt, ?_⟩
    rcases hown with rfl | ⟨d, hd, hle, hin⟩
    · exact .inl rfl
    · obtain ⟨d', hd', hfirst, hkind, hsame⟩ := hmem hd
      refine .inr ⟨d', hd', by omega, ?_⟩
      by_cases ho : i ∈ Edge.opened edges
      · exact .inl ho
      · rw [hsame ho]
        exact hin

/-- **A cursor that begins at the innermost edge is over**, once it reaches over all that has been
read. -/
theorem shut (h : o.Laid s (⟨first, id :: ids⟩ :: edges) next) {d : Draft}
    (hd : o.drafts[id]? = some d) (hlast : min next s.size ≤ d.last + 1) :
    o.Laid s (⟨first, ids⟩ :: edges) (d.last + 1) := by
  replace h := h.mono hlast
  obtain ⟨hpos, hlt, d', hd', hfirst⟩ := h.begun ⟨first, id :: ids⟩ List.mem_cons_self id
    List.mem_cons_self
  obtain rfl : d = d' := Option.some.inj (hd.symm.trans hd')
  have hle : first ≤ d.last := Nat.le_of_lt_succ hlt
  have hfirst : d.first = first := hfirst
  -- another cursor that is over now was over before
  have hopen {i : CursorId} (hi : i ∉ Edge.opened (⟨first, ids⟩ :: edges)) :
      i = id ∨ i ∉ Edge.opened (⟨first, id :: ids⟩ :: edges) := by
    by_cases heq : i = id
    · exact .inl heq
    · refine .inr ?_
      simp only [Edge.opened_cons, List.cons_append, List.mem_cons, not_or]
      exact ⟨heq, hi⟩
  -- and fits this one, because it does not stand across the edge
  have hfits {i : CursorId} {e : Draft} (hi : 0 < i)
      (ho : i ∉ Edge.opened (⟨first, id :: ids⟩ :: edges)) (he : o.drafts[i]? = some e) :
      d.Fits s.size e := by
    obtain ⟨-, hend, hclear⟩ := h.closed i e hi ho he
    have hclear : e.Clear s.size first := hclear _ List.mem_cons_self
    refine Draft.Clear.fits (hfirst ▸ hclear) ?_
    omega
  constructor
  case size => exact h.size
  case root => exact h.root
  case parents => exact h.parents
  case scopes => exact h.scopes
  case sorted => exact List.pairwise_cons.2 (List.pairwise_cons.1 h.sorted)
  case reached =>
    intro e he
    rcases List.mem_cons.1 he with rfl | he
    · exact h.reached ⟨first, id :: ids⟩ List.mem_cons_self
    · exact h.reached e (List.mem_cons_of_mem _ he)
  case begun =>
    intro e he i hi
    rcases List.mem_cons.1 he with rfl | he
    · exact h.begun ⟨first, id :: ids⟩ List.mem_cons_self i (List.mem_cons_of_mem _ hi)
    · exact h.begun e (List.mem_cons_of_mem _ he) i hi
  case closed =>
    intro i e hi ho he
    rcases hopen ho with rfl | ho
    · obtain rfl : d = e := Option.some.inj (hd.symm.trans he)
      refine ⟨by omega, .inr (Nat.lt_succ_self _), fun e he => .inr (.inr ?_)⟩
      rcases List.mem_cons.1 he with rfl | he
      · exact Nat.le_of_eq hfirst.symm
      · have hsorted : e.first ≤ first := (List.pairwise_cons.1 h.sorted).1 e he
        omega
    · obtain ⟨hle, hend, hclear⟩ := h.closed i e hi ho he
      refine ⟨hle, hend, fun e he => ?_⟩
      rcases List.mem_cons.1 he with rfl | he
      · exact hclear ⟨first, id :: ids⟩ List.mem_cons_self
      · exact hclear e (List.mem_cons_of_mem _ he)
  case fits =>
    intro i i' e e' hi hi' ho ho' he he'
    rcases hopen ho with rfl | ho
    · obtain rfl : d = e := Option.some.inj (hd.symm.trans he)
      rcases hopen ho' with rfl | ho'
      · obtain rfl : d = e' := Option.some.inj (hd.symm.trans he')
        exact .refl s.size d
      · exact hfits hi' ho' he'
    · rcases hopen ho' with rfl | ho'
      · obtain rfl : d = e' := Option.some.inj (hd.symm.trans he')
        exact (hfits hi ho he).symm
      · exact h.fits i i' e e' hi hi' ho ho' he he'
  case owned =>
    intro k i hk
    obtain ⟨hread, hown⟩ := h.owned k i hk
    refine ⟨hread, ?_⟩
    rcases hown with rfl | ⟨e, he, hle, hin⟩
    · exact .inl rfl
    · refine .inr ⟨e, he, hle, ?_⟩
      by_cases heq : i = id
      · subst heq
        obtain rfl : d = e := Option.some.inj (hd.symm.trans he)
        exact .inr (.inl (Nat.le_of_lt_succ hread))
      · rcases hin with hin | hin
        · exact .inl ((List.mem_cons.1 hin).resolve_left heq)
        · exact .inr hin

/-- An open cursor is let reach over all that has been read, and is over. -/
theorem finish (h : o.Laid s (⟨first, id :: ids⟩ :: edges) next) (last : Nat)
    (hlast : min next s.size ≤ last + 1) :
    (o.reachTo id last).Laid s (⟨first, ids⟩ :: edges) (last + 1) := by
  obtain ⟨-, -, d, hd, -⟩ := h.begun ⟨first, id :: ids⟩ List.mem_cons_self id List.mem_cons_self
  have hdraft : (o.reachTo id last).drafts[id]? = some { d with last } := by
    rw [getElem?_reachTo, if_pos rfl, hd]
    rfl
  exact (h.reachTo (List.mem_append_left _ List.mem_cons_self) last).shut hdraft hlast

/-- A cursor begins at the innermost edge and takes the lexemes of its head. -/
theorem head (h : o.Laid s (⟨first, []⟩ :: edges) next) (kind : CursorKind) (spelling : String)
    {parent : CursorId} (hp : parent < o.drafts.size) (hle : first ≤ last)
    (hlast : min next s.size ≤ last + 1) :
    ((o.declare kind spelling first last parent).1.claim first last o.drafts.size).Laid s
      (⟨first, [o.drafts.size]⟩ :: edges) (last + 1) := by
  have hd := (h.mono hlast).declare (Nat.lt_succ_of_le hle) kind spelling last hp
  exact hd.claim_opened List.mem_cons_self List.mem_cons_self (Nat.le_refl first)
    (Nat.min_le_left (last + 1) s.size)

/-- A cursor that is over as soon as it begins. -/
theorem add (h : o.Laid s (⟨first, []⟩ :: edges) next) (kind : CursorKind) (spelling : String)
    {parent : CursorId} (hp : parent < o.drafts.size) (hle : first ≤ last)
    (hlast : min next s.size ≤ last + 1) :
    (o.add kind spelling first last parent).Laid s edges (last + 1) := by
  have hdraft : (o.add kind spelling first last parent).drafts[o.drafts.size]? =
      some ⟨kind, spelling, first, last, some parent⟩ := by
    refine (getElem?_declare o.drafts.size).trans ?_
    rw [if_pos rfl, Nat.max_eq_left hle]
  exact ((h.head kind spelling hp hle hlast).shut hdraft (Nat.min_le_left _ _)).pop

/-! ## Names of scopes -/

theorem drafts_openScope (o : Outline) (path : List String) (name : String) (id : CursorId) :
    (o.openScope path name id).drafts = o.drafts := by
  simp only [Outline.openScope]
  split <;> rfl

theorem openScope (h : o.Laid s edges next) (path : List String) (name : String)
    (hid : id < o.drafts.size) : (o.openScope path name id).Laid s edges next := by
  unfold Outline.openScope
  simp only
  split
  · exact h
  · refine ⟨h.size, h.root, h.parents, ?_, h.sorted, h.reached, h.begun, h.closed, h.fits,
      h.owned⟩
    intro other i hi
    rw [List.lookup_cons] at hi
    split at hi
    · cases hi
      exact hid
    · exact h.scopes other i hi

/-- A scope that a name means is a cursor. -/
theorem lt_size_of_resolve (h : o.Laid s edges next) {path qualifier : List String}
    (hid : o.resolve path qualifier = some id) : id < o.drafts.size := by
  have hfrom (tail : String) (outer : List String) (hid : o.resolveFrom tail outer = some id) :
      id < o.drafts.size := by
    induction outer with
    | nil => exact h.scopes _ id hid
    | cons name outer ih =>
      rw [resolveFrom] at hid
      split at hid
      · rename_i i hi
        exact h.scopes _ id (hi.trans hid)
      · exact ih hid
  unfold resolve at hid
  split at hid
  · cases hid
  · exact hfrom _ _ hid

/-- The parent of a declaration: what its qualifier means, or else the scope around. -/
theorem getD_resolve_lt (h : o.Laid s edges next) {path qualifier : List String}
    (hid : id < o.drafts.size) : (o.resolve path qualifier).getD id < o.drafts.size := by
  cases hr : o.resolve path qualifier with
  | none => exact hid
  | some i => exact h.lt_size_of_resolve hr

end Laid

end Outline

end DocIndex
