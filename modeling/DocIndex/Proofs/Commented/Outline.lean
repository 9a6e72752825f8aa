import DocIndex.Proofs.Commented.Source

/-!
# Outlines that recognise the same

Two outlines are alike if they differ only in where things stand: in the lexemes that cursors reach
over and own, and in where flaws were met. What is read with them does not depend on that.

* `Face` — what a cursor is, wherever it stands.
* `Outline.Alike` — the same cursors by their faces, macros, scopes and module name.
* `Outcome.Alike` — two declarations that are read to alike outlines, and leave reading abreast.
-/

namespace DocIndex

/-- What a cursor is, wherever it stands. -/
structure Face where
  kind : CursorKind
  spelling : String
  parent : Option CursorId
  deriving DecidableEq, Repr

/-- What the cursor is that a draft comes to. -/
def Draft.face (d : Draft) : Face :=
  ⟨d.kind, d.spelling, d.parent⟩

namespace Outline

/-- The outlines recognise the same. -/
structure Alike (o o' : Outline) : Prop where
  faces : o'.drafts.map Draft.face = o.drafts.map Draft.face
  macros : o'.macros = o.macros
  scopes : o'.scopes = o.scopes
  moduleName : o'.moduleName = o.moduleName

/-! ## What stays to be recognised -/

section

variable (o : Outline)

@[simp] theorem notes_note (notes : List Note) : (o.note notes).notes = o.notes ++ notes := rfl

@[simp] theorem notes_claim (first last : Nat) (id : CursorId) :
    (o.claim first last id).notes = o.notes := rfl

@[simp] theorem notes_reachTo (id : CursorId) (last : Nat) :
    (o.reachTo id last).notes = o.notes := rfl

@[simp] theorem notes_declare (kind : CursorKind) (spelling : String) (first last : Nat)
    (parent : CursorId) : (o.declare kind spelling first last parent).1.notes = o.notes := rfl

@[simp] theorem notes_add (kind : CursorKind) (spelling : String) (first last : Nat)
    (parent : CursorId) : (o.add kind spelling first last parent).notes = o.notes := rfl

@[simp] theorem notes_openScope (path : List String) (name : String) (id : CursorId) :
    (o.openScope path name id).notes = o.notes := by
  simp only [openScope]
  split <;> rfl

@[simp] theorem notes_nameModule (name : String) : (o.nameModule name).notes = o.notes := rfl

end

namespace Alike

variable {o o' : Outline} (ho : o.Alike o')
include ho

theorem note (notes notes' : List Note) : (o.note notes).Alike (o'.note notes') :=
  ⟨ho.faces, ho.macros, ho.scopes, ho.moduleName⟩

theorem claim (first first' last last' : Nat) (id id' : CursorId) :
    (o.claim first last id).Alike (o'.claim first' last' id') :=
  ⟨ho.faces, ho.macros, ho.scopes, ho.moduleName⟩

theorem reachTo (id : CursorId) (last last' : Nat) :
    (o.reachTo id last).Alike (o'.reachTo id last') := by
  have hfaces (o : Outline) (last : Nat) :
      (o.reachTo id last).drafts.map Draft.face = o.drafts.map Draft.face := by
    refine Array.ext_getElem? fun i => ?_
    simp only [Outline.reachTo, Array.getElem?_map, Array.getElem?_modify]
    split
    · cases o.drafts[i]? <;> rfl
    · rfl
  exact ⟨by rw [hfaces, hfaces, ho.faces], ho.macros, ho.scopes, ho.moduleName⟩

theorem size : o'.drafts.size = o.drafts.size := by
  have hsize := congrArg Array.size ho.faces
  rwa [Array.size_map, Array.size_map] at hsize

theorem declare (kind : CursorKind) (spelling : String) (first first' last last' : Nat)
    (parent : CursorId) :
    (o.declare kind spelling first last parent).1.Alike
      (o'.declare kind spelling first' last' parent).1 := by
  refine ⟨?_, ho.macros, ho.scopes, ho.moduleName⟩
  simp only [Outline.declare, Array.map_push, ho.faces]
  rfl

theorem declare_id (kind : CursorKind) (spelling : String) (first first' last last' : Nat)
    (parent : CursorId) :
    (o'.declare kind spelling first' last' parent).2 =
      (o.declare kind spelling first last parent).2 :=
  ho.size

theorem add (kind : CursorKind) (spelling : String) (first first' last last' : Nat)
    (parent : CursorId) :
    (o.add kind spelling first last parent).Alike
      (o'.add kind spelling first' last' parent) :=
  (ho.declare kind spelling first first' last last' parent).claim ..

theorem define (name : String) (hasParameters : Bool) :
    (o.define name hasParameters).Alike (o'.define name hasParameters) :=
  ⟨ho.faces, congrArg (List.cons _) ho.macros, ho.scopes, ho.moduleName⟩

theorem undefine (name : String) : (o.undefine name).Alike (o'.undefine name) :=
  ⟨ho.faces, congrArg (List.filter _) ho.macros, ho.scopes, ho.moduleName⟩

theorem nameModule (name : String) : (o.nameModule name).Alike (o'.nameModule name) :=
  ⟨ho.faces, ho.macros, ho.scopes, congrArg (· <|> some name) ho.moduleName⟩

theorem openScope (path : List String) (name : String) (id : CursorId) :
    (o.openScope path name id).Alike (o'.openScope path name id) := by
  simp only [Outline.openScope, ho.scopes]
  split
  · exact ho
  · exact ⟨ho.faces, ho.macros, rfl, ho.moduleName⟩

theorem resolve (path qualifier : List String) :
    o'.resolve path qualifier = o.resolve path qualifier := by
  have hfrom (tail : String) (names : List String) :
      o'.resolveFrom tail names = o.resolveFrom tail names := by
    induction names with
    | nil => rw [resolveFrom, resolveFrom, ho.scopes]
    | cons name outer ih => rw [resolveFrom, resolveFrom, ho.scopes, ih]
  rw [Outline.resolve, Outline.resolve, hfrom]

theorem recordOf (scope : Scope) (resolved : Option CursorId) :
    o'.recordOf scope resolved = o.recordOf scope resolved := by
  cases resolved with
  | none => rfl
  | some id =>
    have hface : (o'.drafts[id]?).map Draft.face = (o.drafts[id]?).map Draft.face := by
      rw [← Array.getElem?_map, ← Array.getElem?_map, ho.faces]
    simp only [Outline.recordOf]
    cases hd : o.drafts[id]? <;> cases hd' : o'.drafts[id]? <;>
      simp_all [Draft.face]

end Alike

end Outline

/-! ## Outcomes -/

/-- What is left to do behind a body, wherever its cursors stand. -/
def Closing.bare : Closing → Closing
  | .linkage id _ => .linkage id 0
  | .namespaces ids _ => .namespaces ids 0
  | .record id _ => .record id 0
  | .typedefRecord id _ _ => .typedefRecord id 0 0

/-- A scope whose body is being read, wherever its cursors stand. -/
def Frame.bare (f : Frame) : Frame :=
  { f with closing := f.closing.bare }

/-- Two readings of a declaration recognise the same, the second with one lexeme more in front of
lexeme `k`. -/
structure Outcome.Alike (k : Nat) (r r' : Outcome) : Prop where
  outline : r.outline.Alike r'.outline
  next : Abreast k r.next r'.next
  opened : r'.opened.map Frame.bare = r.opened.map Frame.bare

end DocIndex
