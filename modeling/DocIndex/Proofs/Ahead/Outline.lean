import DocIndex.Outline.Scope
import DocIndex.Proofs.Commented.Outline

/-!
# Outlines behind some lexemes

What is recognised of a text behind some lexemes is what is recognised of it alone, with other
numbers: a lexeme has a number that is larger by the lexemes ahead, and a cursor one that is larger
by the cursors ahead. The file itself stays the first cursor.

* `CursorId.behind`, `Face.behind`, `Scope.behind`, `Frame.behind` — the same, with other numbers.
* `Outline.Ahead` — the same cursors, owners, macros, scopes and module name, behind the cursors
  ahead.
* `Outcome.Ahead` — the same declaration, read behind the lexemes ahead.
-/

namespace DocIndex

/-! ## Numbers -/

/-- The number of a cursor behind `n` others. The file itself stays where it is. -/
def CursorId.behind (n : Nat) (id : CursorId) : CursorId :=
  if id = 0 then 0 else n + id

@[simp] theorem CursorId.behind_zero (n : Nat) : CursorId.behind n 0 = 0 := rfl

theorem CursorId.behind_of_pos (n : Nat) {id : CursorId} (hid : 0 < id) :
    CursorId.behind n id = n + id :=
  if_neg (Nat.ne_of_gt hid)

/-- The same cursor, behind `n` others. -/
def Face.behind (n : Nat) (f : Face) : Face :=
  { f with parent := f.parent.map (CursorId.behind n) }

/-- The same scope, behind `n` cursors. -/
def Scope.behind (n : Nat) (scope : Scope) : Scope :=
  { scope with owner := .behind n scope.owner, parent := .behind n scope.parent }

/-- What is left to do behind a body, behind `k` lexemes and `n` cursors. -/
def Closing.behind (k n : Nat) : Closing → Closing
  | .linkage id start => .linkage (.behind n id) (k + start)
  | .namespaces ids start => .namespaces (ids.map (CursorId.behind n)) (k + start)
  | .record id start => .record (.behind n id) (k + start)
  | .typedefRecord id start outer => .typedefRecord (.behind n id) (k + start) (k + outer)

/-- The same scope whose body is being read, behind `k` lexemes and `n` cursors. -/
def Frame.behind (k n : Nat) (f : Frame) : Frame :=
  ⟨f.scope.behind n, f.closing.behind k n⟩

namespace Outline

/-- What the cursors are, in order. -/
def faces (o : Outline) : List Face :=
  o.drafts.toList.map Draft.face

/-- The second outline recognises the same behind `k` lexemes and the cursors `front`. -/
structure Ahead (k : Nat) (front : List Face) (o o' : Outline) : Prop where
  faces : ∃ root rest, o.faces = root :: rest ∧
    o'.faces = root :: (front ++ rest.map (Face.behind front.length))
  owners : ∀ i, o'.owners[k + i]? = (o.owners[i]?).map (Option.map (CursorId.behind front.length))
  macros : o'.macros = o.macros
  scopes : o'.scopes = o.scopes.map fun scope => (scope.1, .behind front.length scope.2)
  moduleName : o'.moduleName = o.moduleName

theorem length_faces (o : Outline) : o.faces.length = o.drafts.size :=
  List.length_map ..

theorem faces_declare (o : Outline) (kind : CursorKind) (spelling : String) (first last : Nat)
    (parent : CursorId) :
    (o.declare kind spelling first last parent).1.faces =
      o.faces ++ [⟨kind, spelling, some parent⟩] := by
  simp only [faces, declare, Array.toList_push, List.map_append]
  rfl

theorem faces_add (o : Outline) (kind : CursorKind) (spelling : String) (first last : Nat)
    (parent : CursorId) :
    (o.add kind spelling first last parent).faces = o.faces ++ [⟨kind, spelling, some parent⟩] :=
  o.faces_declare kind spelling first last parent

theorem faces_reachTo (o : Outline) (id : CursorId) (last : Nat) :
    (o.reachTo id last).faces = o.faces := by
  simp only [faces, reachTo, Array.toList_modify]
  refine List.ext_getElem? fun i => ?_
  simp only [List.getElem?_map, List.getElem?_modify]
  cases o.drafts.toList[i]? with
  | none => rfl
  | some d =>
    simp only [Option.map_some]
    split <;> rfl

theorem face_eq (o : Outline) (id : CursorId) :
    (o.drafts[id]?).map Draft.face = o.faces[id]? := by
  rw [faces, List.getElem?_map, Array.getElem?_toList]

namespace Ahead

variable {k : Nat} {front : List Face} {o o' : Outline} (h : o.Ahead k front o')
include h

/-! ## What stays the same -/

theorem pos : 0 < o.drafts.size := by
  obtain ⟨root, rest, hfaces, -⟩ := h.faces
  rw [← length_faces, hfaces]
  exact Nat.succ_pos _

theorem size : o'.drafts.size = front.length + o.drafts.size := by
  obtain ⟨root, rest, hfaces, hfaces'⟩ := h.faces
  rw [← length_faces, ← length_faces, hfaces, hfaces']
  simp only [List.length_cons, List.length_append, List.length_map]
  omega

theorem note (notes notes' : List Note) : (o.note notes).Ahead k front (o'.note notes') :=
  ⟨h.faces, h.owners, h.macros, h.scopes, h.moduleName⟩

theorem define (name : String) (hasParameters : Bool) :
    (o.define name hasParameters).Ahead k front (o'.define name hasParameters) :=
  ⟨h.faces, h.owners, congrArg (List.cons _) h.macros, h.scopes, h.moduleName⟩

theorem undefine (name : String) : (o.undefine name).Ahead k front (o'.undefine name) :=
  ⟨h.faces, h.owners, congrArg (List.filter _) h.macros, h.scopes, h.moduleName⟩

theorem nameModule (name : String) : (o.nameModule name).Ahead k front (o'.nameModule name) :=
  ⟨h.faces, h.owners, h.macros, h.scopes, congrArg (· <|> some name) h.moduleName⟩

/-- Lexemes are claimed alike. -/
theorem claim (first last : Nat) (id : CursorId) :
    (o.claim first last id).Ahead k front
      (o'.claim (k + first) (k + last) (.behind front.length id)) := by
  refine ⟨h.faces, fun i => ?_, h.macros, h.scopes, h.moduleName⟩
  have hcount : k + last + 1 - (k + first) = last + 1 - first := by omega
  have hclaim (owner : Option CursorId) :
      ((owner.map (CursorId.behind front.length)) <|> some (.behind front.length id)) =
        (owner <|> some id).map (CursorId.behind front.length) := by
    cases owner <;> rfl
  simp only [Outline.claim, getElem?_claimFrom, h.owners, hcount]
  by_cases hin : first ≤ i ∧ i < first + (last + 1 - first)
  · rw [if_pos hin, if_pos (by omega), Option.map_map, Option.map_map]
    exact congrArg (Option.map · _) (funext hclaim)
  · rw [if_neg hin, if_neg (by omega)]

theorem reachTo (id id' : CursorId) (last last' : Nat) :
    (o.reachTo id last).Ahead k front (o'.reachTo id' last') := by
  refine ⟨?_, h.owners, h.macros, h.scopes, h.moduleName⟩
  rw [faces_reachTo, faces_reachTo]
  exact h.faces

/-- A cursor is added alike. -/
theorem declare (kind : CursorKind) (spelling : String) (first first' last last' : Nat)
    (parent : CursorId) :
    (o.declare kind spelling first last parent).1.Ahead k front
      (o'.declare kind spelling first' last' (.behind front.length parent)).1 := by
  refine ⟨?_, h.owners, h.macros, h.scopes, h.moduleName⟩
  obtain ⟨root, rest, hfaces, hfaces'⟩ := h.faces
  refine ⟨root, rest ++ [⟨kind, spelling, some parent⟩], ?_, ?_⟩
  · rw [faces_declare, hfaces]
    rfl
  · rw [faces_declare, hfaces', List.map_append, List.cons_append, List.append_assoc]
    rfl

theorem declare_id (kind : CursorKind) (spelling : String) (first first' last last' : Nat)
    (parent parent' : CursorId) :
    (o'.declare kind spelling first' last' parent').2 =
      .behind front.length (o.declare kind spelling first last parent).2 :=
  h.size.trans (CursorId.behind_of_pos _ h.pos).symm

theorem add (kind : CursorKind) (spelling : String) (first last : Nat) (parent : CursorId) :
    (o.add kind spelling first last parent).Ahead k front
      (o'.add kind spelling (k + first) (k + last) (.behind front.length parent)) := by
  have hdeclare := (h.declare kind spelling first (k + first) last (k + last) parent).claim first
    last (o.declare kind spelling first last parent).2
  simp only [Outline.add]
  rwa [h.declare_id kind spelling first (k + first) last (k + last) parent]

/-! ## What is looked up -/

theorem lookup (name : String) :
    o'.scopes.lookup name = (o.scopes.lookup name).map (CursorId.behind front.length) := by
  rw [h.scopes]
  induction o.scopes with
  | nil => rfl
  | cons scope scopes ih =>
    rw [List.map_cons, List.lookup_cons, List.lookup_cons, ih]
    split <;> rfl

theorem openScope (path : List String) (name : String) (id : CursorId) :
    (o.openScope path name id).Ahead k front
      (o'.openScope path name (.behind front.length id)) := by
  simp only [Outline.openScope, h.lookup]
  cases o.scopes.lookup (qualify path name) with
  | some found => exact h
  | none => exact ⟨h.faces, h.owners, h.macros, congrArg (List.cons _) h.scopes, h.moduleName⟩

/-- **The same scope is meant.** -/
theorem resolve (path qualifier : List String) :
    o'.resolve path qualifier =
      (o.resolve path qualifier).map (CursorId.behind front.length) := by
  have hfrom (tail : String) (names : List String) :
      o'.resolveFrom tail names =
        (o.resolveFrom tail names).map (CursorId.behind front.length) := by
    induction names with
    | nil => exact h.lookup tail
    | cons name outer ih =>
      rw [resolveFrom, resolveFrom, h.lookup]
      cases o.scopes.lookup (qualify (name :: outer).reverse tail) with
      | some id => rfl
      | none => exact ih
  rw [Outline.resolve, Outline.resolve, hfrom]
  split <;> rfl

theorem face (id : CursorId) :
    (o'.faces[CursorId.behind front.length id]?).map (fun f => (f.kind, f.spelling)) =
      (o.faces[id]?).map fun f => (f.kind, f.spelling) := by
  obtain ⟨root, rest, hfaces, hfaces'⟩ := h.faces
  rw [hfaces, hfaces']
  cases id with
  | zero => rfl
  | succ i =>
    rw [CursorId.behind_of_pos _ (Nat.succ_pos i), Nat.add_succ, List.getElem?_cons_succ,
      List.getElem?_cons_succ, List.getElem?_append_right (Nat.le_add_right _ i),
      Nat.add_sub_cancel_left, List.getElem?_map, Option.map_map]
    rfl

/-- The same class is meant. -/
theorem recordOf (scope : Scope) (resolved : Option CursorId) :
    o'.recordOf (scope.behind front.length) (resolved.map (CursorId.behind front.length)) =
      o.recordOf scope resolved := by
  cases resolved with
  | none => rfl
  | some id =>
    have hface := h.face id
    rw [← face_eq, ← face_eq, Option.map_map, Option.map_map] at hface
    simp only [Option.map_some, Outline.recordOf]
    cases hd : o.drafts[id]? <;> cases hd' : o'.drafts[CursorId.behind front.length id]? <;>
      simp_all [Draft.face]

end Ahead

end Outline

/-! ## Outcomes -/

/-- The second declaration is read as the first one, behind `k` lexemes and the cursors `front`. -/
structure Outcome.Ahead (k : Nat) (front : List Face) (r r' : Outcome) : Prop where
  outline : r.outline.Ahead k front r'.outline
  next : r'.next = k + r.next
  opened : r'.opened = r.opened.map (Frame.behind k front.length)

namespace Outline.Ahead

variable {k : Nat} {front : List Face} {o o' : Outline} (h : o.Ahead k front o')
include h

theorem done (next : Nat) : (o.done next).Ahead k front (o'.done (k + next)) :=
  ⟨h, rfl, rfl⟩

theorem enter (next : Nat) (scope : Scope) (closing : Closing) :
    (o.enter next scope closing).Ahead k front
      (o'.enter (k + next) (scope.behind front.length) (closing.behind k front.length)) :=
  ⟨h, rfl, rfl⟩

end Outline.Ahead

end DocIndex
