import DocIndex.Outline.Declaration

/-!
# Lexemes with other numbers

What has been read of a declaration tells lexemes by their numbers. Where a text is compared with
another one, in which the same lexemes have other numbers, `map` puts the one number for the other.
It changes nothing else: reading a declaration may be followed on either side.

* `Shape.map`, `ShapeState.map` — a shape, or the state of a reading, with other numbers.
* `RecordName.map`, `Announced.map` — the same, for the name in a class head and what a word
  announces.
-/

namespace DocIndex

/-- The same flaw, met at a lexeme with another number. -/
def Note.map (f : Nat → Nat) (n : Note) : Note :=
  { n with index := f n.index }

/-- The same shape, with other numbers. -/
def Shape.map (f : Nat → Nat) (d : Shape) : Shape :=
  { d with
    stop := f d.stop
    name := d.name.map f
    notes := d.notes.map (Note.map f) }

/-- The same name, with other numbers. -/
def Source.RecordName.map (f : Nat → Nat) (n : Source.RecordName) : Source.RecordName :=
  { n with index := f n.index }

/-- The same announcement, with other numbers. -/
def Announced.map (f : Nat → Nat) : Announced → Announced
  | .namespaceHead keyword => .namespaceHead (f keyword)
  | .linkage brace => .linkage (f brace)
  | a => a

namespace ShapeState

/-- The same state, with other numbers. -/
def map (f : Nat → Nat) (st : ShapeState) : ShapeState :=
  { st with
    shape := st.shape.map f
    operatorAt := st.operatorAt.map f
    lastIdentifier := st.lastIdentifier.map f }

variable (f : Nat → Nat) (st : ShapeState)

theorem map_orElse (x y : Option Nat) : (x.map f <|> y.map f) = (x <|> y).map f := by
  cases x <;> rfl

@[simp] theorem map_finish (stop : Nat) :
    (st.map f).finish (f stop) = (st.finish stop).map f := by
  simp only [finish, map, Shape.map, map_orElse]

@[simp] theorem map_finishBody (stop : Nat) :
    (st.map f).finishBody (f stop) = (st.finishBody stop).map f := rfl

@[simp] theorem map_nameLast : (st.map f).nameLast = st.nameLast.map f := by
  simp only [nameLast, map, Shape.map, map_orElse]

@[simp] theorem map_note (notes : List Note) :
    (st.map f).note (notes.map (Note.map f)) = (st.note notes).map f := by
  simp only [note, map, Shape.map, Shape.note, List.map_append]

@[simp] theorem map_beginInit : (st.map f).beginInit = st.beginInit.map f := by
  unfold beginInit
  rw [map_nameLast]
  change (if st.shape.isFunction then _ else _) = _
  split <;> rfl

@[simp] theorem map_beginMemberInits :
    (st.map f).beginMemberInits = st.beginMemberInits.map f := rfl

@[simp] theorem map_withAngles (angles : Nat) :
    (st.map f).withAngles angles = (st.withAngles angles).map f := rfl

@[simp] theorem map_withOperator (i : Nat) :
    (st.map f).withOperator (f i) = (st.withOperator i).map f := rfl

@[simp] theorem map_withIdentifier (i : Nat) :
    (st.map f).withIdentifier (f i) = (st.withIdentifier i).map f := rfl

@[simp] theorem map_markStatic : (st.map f).markStatic = st.markStatic.map f := rfl

@[simp] theorem map_nameFunction (name : Nat) (isDestructor : Bool) :
    (st.map f).nameFunction (f name) isDestructor = (st.nameFunction name isDestructor).map f := rfl

@[simp] theorem map_nameOperator (name : Nat) (operator : String) (isConversion : Bool) :
    (st.map f).nameOperator (f name) operator isConversion =
      (st.nameOperator name operator isConversion).map f := rfl

@[simp] theorem isOpen_map : (st.map f).isOpen = st.isOpen := by
  cases st
  rfl

@[simp] theorem angles_map : (st.map f).angles = st.angles := by
  cases st
  rfl

@[simp] theorem initialized_map : (st.map f).initialized = st.initialized := by
  cases st
  rfl

@[simp] theorem memberInits_map : (st.map f).memberInits = st.memberInits := by
  cases st
  rfl

@[simp] theorem isFunction_map : (st.map f).shape.isFunction = st.shape.isFunction := by
  cases st
  rfl

@[simp] theorem operatorAt_map : (st.map f).operatorAt = st.operatorAt.map f := rfl

end ShapeState

/-- The same step, with other numbers. -/
def ShapeStep.map (f : Nat → Nat) : ShapeStep → ShapeStep
  | .done d => .done (d.map f)
  | .next i st => .next (f i) (st.map f)

end DocIndex
