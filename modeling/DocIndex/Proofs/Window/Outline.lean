import DocIndex.Proofs.Window.Source
import Mathlib.Data.List.Forall2

/-!
# Outlines that match within a window

Two outlines match if they recognise the same: the same cursors, macros, scopes and module name. If
the sources are the same text laid out anew, the cursors also stand at the same lexemes, and own the
same ones.

* `Draft.Matches`, `Outline.Matches` — cursors and outlines that match.
* `Frame.Matches`, `Outcome.Matches` — the same, for the scopes whose bodies are open and for what
  the reading of a declaration leads to.
-/

namespace DocIndex

/-- The drafts of cursor `id` match. The name of the file itself does not tell of its text. -/
structure Draft.Matches (w : Window) (id : CursorId) (d d' : Draft) : Prop where
  kind : d'.kind = d.kind
  spelling : w.relaid = false ∨ 0 < id → d'.spelling = d.spelling
  parent : d'.parent = d.parent
  first : w.Same d.first d'.first
  last : w.Same d.last d'.last

/-- The outlines match. -/
structure Outline.Matches (w : Window) (o o' : Outline) : Prop where
  size : o'.drafts.size = o.drafts.size
  draft : ∀ {id : CursorId} {d d' : Draft}, o.drafts[id]? = some d → o'.drafts[id]? = some d' →
    d.Matches w id d'
  owners : w.relaid = true → o'.owners = o.owners
  macros : o'.macros = o.macros
  scopes : o'.scopes = o.scopes
  moduleName : o'.moduleName = o.moduleName
  /-- A text that is laid out anew has no macro calls, and the file is no class. -/
  plain : w.relaid = true →
    o.macros = [] ∧ ∃ d, o.drafts[0]? = some d ∧ d.kind.isRecord = false

/-- What is left to do behind the bodies matches. -/
inductive Closing.Matches (w : Window) : Closing → Closing → Prop
  | linkage (id : CursorId) {start start' : Nat} (hstart : w.Same start start') :
    Closing.Matches w (.linkage id start) (.linkage id start')
  | namespaces (ids : List CursorId) {start start' : Nat} (hstart : w.Same start start') :
    Closing.Matches w (.namespaces ids start) (.namespaces ids start')
  | record (id : CursorId) {start start' : Nat} (hstart : w.Same start start') :
    Closing.Matches w (.record id start) (.record id start')
  | typedefRecord (id : CursorId) {start start' outer outer' : Nat} (hstart : w.Same start start')
    (houter : w.Same outer outer') :
    Closing.Matches w (.typedefRecord id start outer) (.typedefRecord id start' outer')

/-- The open scopes match. -/
structure Frame.Matches (w : Window) (f f' : Frame) : Prop where
  scope : f'.scope = f.scope
  closing : f.closing.Matches w f'.closing

/-- Two readings of a declaration lead to matching outlines, and go on at the same lexeme. -/
structure Outcome.Matches (w : Window) (r r' : Outcome) : Prop where
  outline : r.outline.Matches w r'.outline
  next : r'.next = w.moved r.next
  opened : Option.Rel (Frame.Matches w) r.opened r'.opened

namespace Outline

variable {w : Window} {o o' : Outline} {first first' last last' : Nat}

namespace Matches

variable (h : o.Matches w o')
include h

/-! ## What stays matched -/

theorem note (notes notes' : List Note) : (o.note notes).Matches w (o'.note notes') :=
  ⟨h.size, h.draft, h.owners, h.macros, h.scopes, h.moduleName, h.plain⟩

theorem claim (id : CursorId) (hfirst : w.Same first first') (hlast : w.Same last last') :
    (o.claim first last id).Matches w (o'.claim first' last' id) := by
  refine ⟨h.size, h.draft, fun hw => ?_, h.macros, h.scopes, h.moduleName, h.plain⟩
  simp only [Outline.claim, h.owners hw, hfirst hw, hlast hw]

theorem reachTo (id : CursorId) (hlast : w.Same last last') :
    (o.reachTo id last).Matches w (o'.reachTo id last') := by
  have hdraft {o : Outline} {last : Nat} {i : CursorId} {d : Draft}
      (hd : (o.reachTo id last).drafts[i]? = some d) :
      ∃ e, o.drafts[i]? = some e ∧ d = if id = i then { e with last } else e := by
    simp only [Outline.reachTo, Array.getElem?_modify] at hd
    split at hd
    · obtain ⟨e, he, rfl⟩ := Option.map_eq_some_iff.1 hd
      exact ⟨e, he, (if_pos ‹_›).symm⟩
    · exact ⟨d, hd, (if_neg ‹_›).symm⟩
  refine ⟨by simp only [Outline.reachTo, Array.size_modify, h.size], fun hd hd' => ?_, h.owners,
    h.macros, h.scopes, h.moduleName, fun hw => ?_⟩
  · obtain ⟨e, he, rfl⟩ := hdraft hd
    obtain ⟨e', he', rfl⟩ := hdraft hd'
    have hmatches := h.draft he he'
    split
    · exact ⟨hmatches.kind, hmatches.spelling, hmatches.parent, hmatches.first, hlast⟩
    · exact hmatches
  · obtain ⟨hmacros, d, hd, hkind⟩ := h.plain hw
    refine ⟨hmacros, if id = 0 then { d with last } else d, ?_, by split <;> exact hkind⟩
    simp only [Outline.reachTo, Array.getElem?_modify, hd, Option.map_some]
    split <;> rfl

theorem declare (kind : CursorKind) (spelling : String) (parent : CursorId)
    (hfirst : w.Same first first') (hlast : w.Same last last') :
    (o.declare kind spelling first last parent).1.Matches w
      (o'.declare kind spelling first' last' parent).1 := by
  refine ⟨?_, fun {id d d'} hd hd' => ?_, h.owners, h.macros, h.scopes, h.moduleName,
    fun hw => ?_⟩
  · simp only [Outline.declare, Array.size_push, h.size]
  · simp only [Outline.declare, Array.getElem?_push, h.size] at hd hd'
    split at hd
    · rename_i hid
      rw [if_pos hid, Option.some.injEq] at hd'
      rw [Option.some.injEq] at hd
      subst hd hd'
      exact ⟨rfl, fun _ => rfl, rfl, hfirst, hlast.max hfirst⟩
    · rename_i hid
      rw [if_neg hid] at hd'
      exact h.draft hd hd'
  · obtain ⟨hmacros, d, hd, hkind⟩ := h.plain hw
    have hpos : 0 < o.drafts.size := (Array.getElem?_eq_some_iff.1 hd).1
    refine ⟨hmacros, d, ?_, hkind⟩
    simp only [Outline.declare, Array.getElem?_push]
    rwa [if_neg (Nat.ne_of_lt hpos)]

theorem declare_id (kind : CursorKind) (spelling : String) (first first' last last' : Nat)
    (parent : CursorId) :
    (o'.declare kind spelling first' last' parent).2 =
      (o.declare kind spelling first last parent).2 :=
  h.size

theorem add (kind : CursorKind) (spelling : String) (parent : CursorId)
    (hfirst : w.Same first first') (hlast : w.Same last last') :
    (o.add kind spelling first last parent).Matches w
      (o'.add kind spelling first' last' parent) := by
  have hdeclare := (h.declare kind spelling parent hfirst hlast).claim
    (o.declare kind spelling first last parent).2 hfirst hlast
  simp only [Outline.add]
  rwa [h.declare_id kind spelling first first' last last' parent]

theorem define (hw : w.relaid = false) (name : String) (hasParameters : Bool) :
    (o.define name hasParameters).Matches w (o'.define name hasParameters) := by
  refine ⟨h.size, h.draft, h.owners, congrArg (List.cons _) h.macros, h.scopes, h.moduleName,
    fun hw' => ?_⟩
  rw [hw] at hw'
  cases hw'

theorem undefine (hw : w.relaid = false) (name : String) :
    (o.undefine name).Matches w (o'.undefine name) := by
  refine ⟨h.size, h.draft, h.owners, congrArg (List.filter _) h.macros, h.scopes, h.moduleName,
    fun hw' => ?_⟩
  rw [hw] at hw'
  cases hw'

theorem nameModule (name : String) : (o.nameModule name).Matches w (o'.nameModule name) :=
  ⟨h.size, h.draft, h.owners, h.macros, h.scopes, congrArg (· <|> some name) h.moduleName, h.plain⟩

theorem openScope (path : List String) (name : String) (id : CursorId) :
    (o.openScope path name id).Matches w (o'.openScope path name id) := by
  simp only [Outline.openScope, h.scopes]
  split
  · exact h
  · exact ⟨h.size, h.draft, h.owners, h.macros, rfl, h.moduleName, h.plain⟩

/-! ## What is looked up -/

theorem resolve (path qualifier : List String) :
    o'.resolve path qualifier = o.resolve path qualifier := by
  have hfrom (tail : String) (names : List String) :
      o'.resolveFrom tail names = o.resolveFrom tail names := by
    induction names with
    | nil => rw [resolveFrom, resolveFrom, h.scopes]
    | cons name outer ih => rw [resolveFrom, resolveFrom, h.scopes, ih]
  rw [Outline.resolve, Outline.resolve, hfrom]

theorem draft_none (id : CursorId) : o'.drafts[id]? = none ↔ o.drafts[id]? = none := by
  rw [Array.getElem?_eq_none_iff, Array.getElem?_eq_none_iff, h.size]

theorem recordOf (scope : Scope) (resolved : Option CursorId) :
    o'.recordOf scope resolved = o.recordOf scope resolved := by
  cases resolved with
  | none => rfl
  | some id =>
    simp only [Outline.recordOf]
    cases hd : o.drafts[id]? with
    | none => rw [(h.draft_none id).2 hd]
    | some d =>
      cases hd' : o'.drafts[id]? with
      | none =>
        rw [(h.draft_none id).1 hd'] at hd
        cases hd
      | some d' =>
        have hmatches := h.draft hd hd'
        simp only [hmatches.kind]
        cases hrecord : d.kind.isRecord with
        | false => rfl
        | true =>
          -- a class is not the file itself, so its name is compared
          have hid : w.relaid = false ∨ 0 < id := by
            cases hw : w.relaid with
            | false => exact .inl rfl
            | true =>
              refine .inr (Nat.pos_of_ne_zero fun hzero => ?_)
              obtain ⟨-, e, he, hkind⟩ := h.plain hw
              rw [hzero, he, Option.some.injEq] at hd
              rw [← hd, hkind] at hrecord
              cases hrecord
          rw [hmatches.spelling hid]

end Matches

end Outline

/-! ## Outcomes -/

namespace Outline.Matches

variable {w : Window} {o o' : Outline} {next next' : Nat} (h : o.Matches w o')
  (hnext : next' = w.moved next)
include h hnext

theorem done : (o.done next).Matches w (o'.done next') :=
  ⟨h, hnext, .none⟩

theorem enter (scope : Scope) {closing closing' : Closing} (hclosing : closing.Matches w closing') :
    (o.enter next scope closing).Matches w (o'.enter next' scope closing') :=
  ⟨h, hnext, .some ⟨rfl, hclosing⟩⟩

end Outline.Matches

end DocIndex
