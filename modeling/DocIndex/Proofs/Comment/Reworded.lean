import DocIndex.Proofs.Comment.Interrupted
import DocIndex.Proofs.Relaid

/-!
# Comments that say something else

Two units are the same but for what their documentation lines say (`SourceUnit.Reworded`). Places,
owners and code are what they were, and no documentation line is part of a signature. So the
declarations of both units are the same.

* `Token.Reworded` — the relation of tokens; all but documentation lines are equal.
* `SourceUnit.Reworded.keptTokens_eq`, `SourceUnit.Reworded.declaration_eq` — **what is documented
  does not depend on what is said.**
* `tokensOf_eq_filter` — the own tokens of a cursor are those that start within its extent, if
  tokens are in order; so `Reworded.of_ordered` looks at extents alone.
-/

namespace DocIndex

/-! ## Tokens -/

namespace Token

/-- The tokens are the same, or documentation lines at the same place that may say something
else. -/
structure Reworded (t t' : Token) : Prop where
  kind : t'.kind = t.kind
  extent : t'.extent = t.extent
  cursor : t'.cursor = t.cursor
  said : t'.spelling = t.spelling ∨ t.isDocLine = true ∧ t'.isDocLine = true

instance (t t' : Token) : Decidable (t.Reworded t') :=
  decidable_of_iff (t'.kind = t.kind ∧ t'.extent = t.extent ∧ t'.cursor = t.cursor ∧
      (t'.spelling = t.spelling ∨ t.isDocLine = true ∧ t'.isDocLine = true))
    ⟨fun ⟨hkind, hextent, hcursor, hsaid⟩ => ⟨hkind, hextent, hcursor, hsaid⟩,
      fun h => ⟨h.kind, h.extent, h.cursor, h.said⟩⟩

/-- Where a token starts. -/
def startOffset (t : Token) : Nat :=
  t.extent.start.offset

/-- The token starts within an extent. -/
def startsWithin (extent : Extent) (t : Token) : Bool :=
  extent.start.offset ≤ t.startOffset && t.startOffset < extent.stop.offset

theorem startsWithin_iff {extent : Extent} {t : Token} : t.startsWithin extent = true ↔
    extent.start.offset ≤ t.startOffset ∧ t.startOffset < extent.stop.offset := by
  simp only [startsWithin, Bool.and_eq_true, decide_eq_true_eq]

namespace Reworded

variable {t t' : Token}

theorem isDocLine_eq (h : t.Reworded t') : t'.isDocLine = t.isDocLine := by
  rcases h.said with hs | ⟨ht, ht'⟩
  · rw [isDocLine, isDocLine, h.kind, hs]
  · rw [ht, ht']

/-- A token that is no documentation line is the same. -/
theorem eq_of_plain (h : t.Reworded t') (ht : t.isDocLine = false) : t' = t := by
  obtain ⟨spelling, kind, extent, cursor⟩ := t
  obtain ⟨spelling', kind', extent', cursor'⟩ := t'
  obtain ⟨hkind, hextent, hcursor, hs | ⟨hdoc, -⟩⟩ := h
  · cases hkind
    cases hextent
    cases hcursor
    cases hs
    rfl
  · rw [ht] at hdoc
    cases hdoc

theorem eq_of_code (h : t.Reworded t') (ht : t.kind ≠ .comment) : t' = t :=
  h.eq_of_plain (by simp [isDocLine, ht])

end Reworded

end Token

variable {ts ts' : List Token}

theorem eq_of_forall₂_plain (h : List.Forall₂ Token.Reworded ts ts')
    (hts : ∀ t ∈ ts, t.isDocLine = false) : ts' = ts := by
  induction h with
  | nil => rfl
  | cons ht _ ih =>
    obtain ⟨hplain, hrest⟩ := List.forall_mem_cons.1 hts
    rw [ht.eq_of_plain hplain, ih hrest]

theorem starts_reworded (h : List.Forall₂ Token.Reworded ts ts') :
    ts'.map Token.startOffset = ts.map Token.startOffset := by
  induction h with
  | nil => rfl
  | cons ht _ ih =>
    rw [List.map_cons, List.map_cons, ih, Token.startOffset, Token.startOffset, ht.extent]

/-- No documentation line is part of the head of a declaration. -/
theorem headFrom_reworded (h : List.Forall₂ Token.Reworded ts ts') (brackets angles : Nat)
    (previous : Option String) :
    headFrom brackets angles previous ts' = headFrom brackets angles previous ts := by
  induction h generalizing brackets angles previous with
  | nil => rfl
  | @cons t t' ts ts' ht _ ih =>
    rw [headFrom, headFrom]
    by_cases hcomment : t.kind = .comment
    · rw [if_pos hcomment, if_pos (ht.kind.trans hcomment)]
      exact ih brackets angles previous
    · rw [ht.eq_of_code hcomment]
      simp only [ih]

/-! ## Units -/

namespace SourceUnit

variable {u u' : SourceUnit}

/-- The units are the same but for what their documentation lines say. No documentation line is
among the own tokens of a macro definition. -/
structure Reworded (u u' : SourceUnit) : Prop where
  path : u'.path = u.path
  tokens : List.Forall₂ Token.Reworded u.tokens.toList u'.tokens.toList
  cursors : u'.cursors = u.cursors
  diagnostics : u'.diagnostics = u.diagnostics
  moduleName : u'.moduleName = u.moduleName
  macros : ∀ id, (u.cursor id).kind = .macroDefinition →
    ∀ t ∈ u.tokensOf id, t.isDocLine = false

/-- Halving asks of a candidate only what the predicate looks at. -/
theorem boundary_map {α β : Type} (p : β → Bool) (f : α → β) (xs : Array α) :
    boundary p (xs.map f) = boundary (fun x => p (f x)) xs := by
  have hfrom (base size : Nat) :
      boundaryFrom p (xs.map f) base size = boundaryFrom (fun x => p (f x)) xs base size := by
    fun_induction boundaryFrom (fun x => p (f x)) xs base size with
    | case1 base size hsize x hx hp =>
      rw [boundaryFrom, if_pos hsize, Array.getElem?_map, hx]
      exact if_pos hp
    | case2 base size hsize x hx hp =>
      rw [boundaryFrom, if_pos hsize, Array.getElem?_map, hx]
      exact if_neg hp
    | case3 base size hsize hx => rw [boundaryFrom, if_pos hsize, Array.getElem?_map, hx]; rfl
    | case4 base size hsize half base' ih =>
      rw [boundaryFrom, if_neg hsize, ← ih]
      simp only [Array.getElem?_map, base']
      cases xs[base + half]? <;> rfl
  rw [boundary, boundary, Array.size_map, hfrom]

namespace Reworded

variable (h : u.Reworded u')
include h

theorem cursor_eq (id : CursorId) : u'.cursor id = u.cursor id := by
  rw [cursor, cursor, h.cursors]

theorem scopePath_eq (id : CursorId) : u'.scopePath id = u.scopePath id := by
  have hscopes : u'.scopes id = u.scopes id :=
    scopes_congr (by rw [h.cursors]) fun id => by rw [h.cursor_eq]
  simp only [scopePath, hscopes, h.cursor_eq]

/-- Where the extents are the same, so are the numbers of the tokens of a cursor. -/
theorem tokenRange_eq (id : CursorId) : u'.tokenRange id = u.tokenRange id := by
  have hstarts : u'.tokens.map Token.startOffset = u.tokens.map Token.startOffset := by
    refine Array.toList_inj.1 ?_
    rw [Array.toList_map, Array.toList_map]
    exact starts_reworded h.tokens
  have hboundary (offset : Nat) :
      boundary (fun t => t.extent.start.offset < offset) u'.tokens =
        boundary (fun t => t.extent.start.offset < offset) u.tokens := by
    have hmap := boundary_map (fun start => decide (start < offset)) Token.startOffset
    exact (hmap u'.tokens).symm.trans ((congrArg _ hstarts).trans (hmap u.tokens))
  rw [tokenRange, tokenRange, h.cursor_eq]
  simp only [hboundary]

/-- So are the tokens, but for what they say. -/
theorem tokensOf_reworded (id : CursorId) :
    List.Forall₂ Token.Reworded (u.tokensOf id) (u'.tokensOf id) := by
  rw [tokensOf, tokensOf, h.tokenRange_eq, Array.toList_extract, Array.toList_extract]
  exact List.forall₂_take _ (List.forall₂_drop _ h.tokens)

/-- **No documentation line is part of a signature.** -/
theorem keptTokens_eq (id : CursorId) : u'.keptTokens id = u.keptTokens id := by
  have htokens := h.tokensOf_reworded id
  rw [keptTokens, keptTokens, h.cursor_eq]
  by_cases hmacro : (u.cursor id).kind = .macroDefinition
  · rw [if_pos hmacro, if_pos hmacro, eq_of_forall₂_plain htokens (h.macros id hmacro)]
  · rw [if_neg hmacro, if_neg hmacro]
    exact headFrom_reworded htokens 0 0 none

/-- **The declarations are the same.** -/
theorem declaration_eq (id : CursorId) : u'.declaration id = u.declaration id := by
  simp only [declaration, signature, h.cursor_eq, h.keptTokens_eq, h.scopePath_eq]

/-- Their signatures end on the same lines. -/
theorem signatureEnd_eq {t t' : Token} (ht : t.Reworded t') :
    u'.signatureEnd t' = u.signatureEnd t := by
  rw [signatureEnd, signatureEnd, ht.cursor, h.keptTokens_eq]
  cases hkept : u.keptTokens t.cursor with
  | nil => exact congrArg (·.stop.line) ht.extent
  | cons v vs => rfl

theorem startsAt_iff {offset : Nat} {t t' : Token} (ht : t.Reworded t') :
    u'.StartsAt offset t' ↔ u.StartsAt offset t := by
  rw [StartsAt, StartsAt, ht.cursor, h.cursor_eq]

end Reworded

/-! ## The tokens within an extent -/

variable {id : CursorId} {t : Token}

/-- The tokens are in order of where they start. -/
def Ordered (u : SourceUnit) : Prop :=
  u.tokens.toList.Pairwise fun t v => t.startOffset ≤ v.startOffset

instance (u : SourceUnit) : Decidable u.Ordered :=
  inferInstanceAs (Decidable (u.tokens.toList.Pairwise _))

/-- Tokens in order are cut in two by every offset. -/
theorem exists_cut_of_ordered {ts : List Token}
    (h : ts.Pairwise fun t v => t.startOffset ≤ v.startOffset) (offset : Nat) :
    ∃ as bs, ts = as ++ bs ∧ (∀ t ∈ as, t.startOffset < offset) ∧
      ∀ t ∈ bs, offset ≤ t.startOffset := by
  induction ts with
  | nil => exact ⟨[], [], rfl, nofun, nofun⟩
  | cons t ts ih =>
    obtain ⟨ht, hts⟩ := List.pairwise_cons.1 h
    by_cases hlt : t.startOffset < offset
    · obtain ⟨as, bs, rfl, has, hbs⟩ := ih hts
      exact ⟨t :: as, bs, rfl, List.forall_mem_cons.2 ⟨hlt, has⟩, hbs⟩
    · have hle : offset ≤ t.startOffset := Nat.le_of_not_lt hlt
      exact ⟨[], t :: ts, rfl, nofun,
        List.forall_mem_cons.2 ⟨hle, fun v hv => Nat.le_trans hle (ht v hv)⟩⟩

/-- Halving cuts tokens in order where an offset does. -/
theorem boundary_of_ordered (h : u.Ordered) (offset : Nat) : ∃ as bs, u.tokens.toList = as ++ bs ∧
    (∀ t ∈ as, t.startOffset < offset) ∧ (∀ t ∈ bs, offset ≤ t.startOffset) ∧
    boundary (fun t => t.extent.start.offset < offset) u.tokens = as.length := by
  obtain ⟨as, bs, hl, has, hbs⟩ := exists_cut_of_ordered h offset
  have htokens : u.tokens = (as ++ bs).toArray := by rw [← hl]
  exact ⟨as, bs, hl, has, hbs, htokens ▸ boundary_start has hbs⟩

/-- **The own tokens of a cursor are those that start within its extent**, if tokens are in order:
none if the extent is empty or ends in front of its start. -/
theorem tokensOf_eq_filter (h : u.Ordered) (id : CursorId) :
    u.tokensOf id = u.tokens.toList.filter (·.startsWithin (u.cursor id).extent) := by
  obtain ⟨as, bs, hl, has, hbs, hfirst⟩ := boundary_of_ordered h (u.cursor id).extent.start.offset
  obtain ⟨as', bs', hl', has', hbs', hlast⟩ :=
    boundary_of_ordered h (u.cursor id).extent.stop.offset
  have hfront : as.filter (·.startsWithin (u.cursor id).extent) = [] :=
    List.filter_eq_nil_iff.2 fun t ht hin =>
      Nat.not_le_of_lt (has t ht) (Token.startsWithin_iff.1 hin).1
  have hback : bs'.filter (·.startsWithin (u.cursor id).extent) = [] :=
    List.filter_eq_nil_iff.2 fun t ht hin =>
      Nat.not_le_of_lt (Token.startsWithin_iff.1 hin).2 (hbs' t ht)
  rw [tokensOf, tokenRange, Array.toList_extract]
  dsimp only
  rw [hfirst, hlast, List.extract_eq_take_drop]
  -- the extent ends behind its start, with the tokens `mid` between the two, or it does not
  rcases List.append_eq_append_iff.1 (hl.symm.trans hl') with ⟨mid, rfl, rfl⟩ | ⟨mid, rfl, rfl⟩
  · have hmid : mid.filter (·.startsWithin (u.cursor id).extent) = mid :=
      List.filter_eq_self.2 fun t ht => Token.startsWithin_iff.2
        ⟨hbs t (List.mem_append_left _ ht), has' t (List.mem_append_right _ ht)⟩
    rw [hl, List.filter_append, List.filter_append, hfront, hmid, hback, List.drop_left,
      List.length_append, Nat.max_eq_right (Nat.le_add_right _ _), Nat.add_sub_cancel_left,
      List.take_left, List.nil_append, List.append_nil]
  · rw [List.filter_append] at hback
    rw [hl, List.filter_append, hfront, (List.append_eq_nil_iff.1 hback).2, List.length_append,
      Nat.max_eq_left (Nat.le_add_right _ _), Nat.sub_self, List.take_zero, List.nil_append]

/-- **The own tokens of a cursor start within its extent**, if tokens are in order. -/
theorem start_of_mem_tokensOf (h : u.Ordered) (ht : t ∈ u.tokensOf id) :
    (u.cursor id).extent.start.offset ≤ t.startOffset ∧
      t.startOffset < (u.cursor id).extent.stop.offset := by
  rw [tokensOf_eq_filter h] at ht
  exact Token.startsWithin_iff.1 (List.mem_filter.1 ht).2

/-- Units whose tokens are in order are the same but for what their documentation lines say, if none
of these lines starts within the extent of a macro definition. -/
theorem Reworded.of_ordered (hordered : u.Ordered) (hpath : u'.path = u.path)
    (htokens : List.Forall₂ Token.Reworded u.tokens.toList u'.tokens.toList)
    (hcursors : u'.cursors = u.cursors) (hdiagnostics : u'.diagnostics = u.diagnostics)
    (hmodule : u'.moduleName = u.moduleName)
    (hmacros : ∀ id, (u.cursor id).kind = .macroDefinition → ∀ t ∈ u.tokens.toList,
      (u.cursor id).extent.start.offset ≤ t.startOffset →
      t.startOffset < (u.cursor id).extent.stop.offset → t.isDocLine = false) :
    u.Reworded u' := by
  refine ⟨hpath, htokens, hcursors, hdiagnostics, hmodule, fun id hid t ht => ?_⟩
  obtain ⟨hstart, hstop⟩ := start_of_mem_tokensOf hordered ht
  rw [tokensOf, Array.toList_extract, List.extract_eq_take_drop] at ht
  exact hmacros id hid t (List.mem_of_mem_drop (List.mem_of_mem_take ht)) hstart hstop

end SourceUnit

end DocIndex
