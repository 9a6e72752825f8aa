import DocIndex.Outline.Groups
import DocIndex.Source.Mark

/-!
# The shape of a declaration

`Source.shape` reads a declaration that no keyword decides: where it ends, whether it declares a
function, and which lexeme names it. It is a loop of single steps: `Source.shapeStep` looks at one
lexeme and either ends the declaration or goes on behind it (`lt_of_shapeStep`).
-/

namespace DocIndex

/-- What a declaration looks like. -/
structure Shape where
  /-- The last lexeme of the declaration. -/
  stop : Nat
  /-- The lexeme that names what is declared. -/
  name : Option Nat
  /-- The name of an operator function. -/
  operator : Option String
  isFunction : Bool
  isDestructor : Bool
  isConversion : Bool
  isStatic : Bool
  notes : List Note
  deriving Repr, Inhabited

namespace Shape

/-- A declaration of which nothing has been read. -/
def empty : Shape :=
  { stop := 0, name := none, operator := none, isFunction := false, isDestructor := false,
    isConversion := false, isStatic := false, notes := [] }

/-- Records flaws. -/
def note (d : Shape) (notes : List Note) : Shape :=
  { d with notes := d.notes ++ notes }

end Shape

/-- How far the reading of a declaration has come. -/
structure ShapeState where
  shape : Shape
  /-- The depth of template arguments. -/
  angles : Nat
  /-- Behind the `=` of an initialiser. -/
  initialized : Bool
  /-- Behind the `:` of a list of member initialisers. -/
  memberInits : Bool
  /-- The `operator` keyword of an operator function. -/
  operatorAt : Option Nat
  lastIdentifier : Option Nat
  deriving Repr, Inhabited

namespace ShapeState

/-- Nothing read yet. -/
def empty : ShapeState :=
  { shape := .empty, angles := 0, initialized := false, memberInits := false, operatorAt := none,
    lastIdentifier := none }

/-- The declaration ends with lexeme `stop`. Without a name so far, it has that of its last
identifier. -/
def finish (st : ShapeState) (stop : Nat) : Shape :=
  { st.shape with stop, name := st.shape.name <|> st.lastIdentifier }

/-- The declaration is a function whose body ends with lexeme `stop`. -/
def finishBody (st : ShapeState) (stop : Nat) : Shape :=
  { st.shape with stop }

/-- Names the declaration after its last identifier, unless it has a name. -/
def nameLast (st : ShapeState) : ShapeState :=
  { st with shape := { st.shape with name := st.shape.name <|> st.lastIdentifier } }

/-- Records flaws. -/
def note (st : ShapeState) (notes : List Note) : ShapeState :=
  { st with shape := st.shape.note notes }

/-- An initialiser begins; a variable has its name by now. -/
def beginInit (st : ShapeState) : ShapeState :=
  if st.shape.isFunction then { st with initialized := true }
  else { st.nameLast with initialized := true }

/-- A list of member initialisers begins. -/
def beginMemberInits (st : ShapeState) : ShapeState :=
  { st with memberInits := true }

/-- Template arguments reach to this depth. -/
def withAngles (st : ShapeState) (angles : Nat) : ShapeState :=
  { st with angles }

/-- The keyword of an operator function stands at `i`. -/
def withOperator (st : ShapeState) (i : Nat) : ShapeState :=
  { st with operatorAt := some i }

/-- An identifier that may be the name stands at `i`. -/
def withIdentifier (st : ShapeState) (i : Nat) : ShapeState :=
  { st with lastIdentifier := some i }

/-- What is declared is static. -/
def markStatic (st : ShapeState) : ShapeState :=
  { st with shape := { st.shape with isStatic := true } }

/-- A function that lexeme `name` names. -/
def nameFunction (st : ShapeState) (name : Nat) (isDestructor : Bool) : ShapeState :=
  { st with shape := { st.shape with isFunction := true, name := some name, isDestructor } }

/-- An operator function whose keyword is lexeme `name`. -/
def nameOperator (st : ShapeState) (name : Nat) (operator : String) (isConversion : Bool) :
    ShapeState :=
  { st with
    shape :=
      { st.shape with
        isFunction := true, name := some name, operator := some operator, isConversion } }

/-- The declaration has neither an initialiser nor parameters so far. -/
def isOpen (st : ShapeState) : Bool :=
  !st.initialized && !st.shape.isFunction

end ShapeState

/-- What one lexeme does to the reading of a declaration. -/
inductive ShapeStep
  | done (shape : Shape)
  | next (i : Nat) (st : ShapeState)

namespace Source

variable (s : Source)

/-- The lexeme may name a function: an identifier that is neither a specifier nor a macro. -/
def mayNameFunction (macros : Macros) (i : Nat) : Bool :=
  s.isIdentifier i && !specifiers.contains (s.spelling i) && (macros.lookup (s.spelling i)).isNone

/-- The lexeme before `i`, comments apart, is spelled `word`. -/
def follows (i : Nat) (word : String) : Bool :=
  match s.previous? i with
  | some p => s.is p word
  | none => false

/-- A brace behind a member initialiser's name opens its arguments, not the function's body. -/
def opensMemberInit (i : Nat) : Bool :=
  match s.previous? i with
  | some p => s.isIdentifier p || s.is p ">" || s.is p "..."
  | none => false

/-- Goes on behind the group opened at `i`. -/
def skipGroup (st : ShapeState) (i : Nat) : ShapeStep :=
  .next (s.groupEnd i + 1) (st.note (s.groupNotes i))

/-- Inside of template arguments, at lexeme `i`. -/
def angleStep (st : ShapeState) (i : Nat) : ShapeStep :=
  match s.mark i with
  | .less => .next (i + 1) (st.withAngles (st.angles + 1))
  | .greater => .next (i + 1) (st.withAngles (st.angles - 1))
  | .shiftRight => .next (i + 1) (st.withAngles (st.angles - 2))
  | .openParen | .openBracket | .openBrace => s.skipGroup st i
  | _ => .next (i + 1) st

/-- The operator whose keyword is lexeme `i` converts to a type. -/
def convertsAt (i : Nat) : Bool :=
  (match s.kind? (i + 1) with
    | some k => k != .punctuation
    | none => false) &&
    s.spelling (i + 1) != "new" && s.spelling (i + 1) != "delete"

/-- In `void (*callback)(int)` the name stands inside of the parentheses opened at `i`. -/
def nameInside (st : ShapeState) (i : Nat) : ShapeState :=
  if ["*", "&", "&&", "^"].contains (s.spelling (i + 1)) then
    match s.declaredName? (i + 1) (s.groupEnd i) with
    | some n => st.withIdentifier n
    | none => st
  else st

/-- The empty parentheses at `i` belong to the name of the call operator. -/
def closesCallOperator (st : ShapeState) (i : Nat) : Bool :=
  (st.operatorAt.any fun op => op + 1 == i) && s.is (i + 1) ")" && s.groupEnd i == i + 1

/-- What the parentheses at `i` make of a declaration: the parameters of a function, or a group
like any other. -/
def nameAtParen (macros : Macros) (st : ShapeState) (i : Nat) : ShapeState :=
  match st.operatorAt with
  | some op =>
    -- in `operator()(int)` only the second parentheses hold parameters
    if s.closesCallOperator st i then st else st.nameOperator op (s.join op i) (s.convertsAt op)
  | none =>
    match s.previous? i with
    | some p =>
      if s.mayNameFunction macros p then
        st.nameFunction p (decide (0 < p) && s.is (p - 1) "~")
      else s.nameInside st i
    | none => s.nameInside st i

/-- At the brace `i`: a function's body, the arguments of a member initialiser, or a value. -/
def braceStep (st : ShapeState) (i : Nat) : ShapeStep :=
  if st.initialized then s.skipGroup st i
  -- `int x{1}`: the name has just been read
  else if !st.shape.isFunction then s.skipGroup st.nameLast i
  else if st.memberInits && s.opensMemberInit i then s.skipGroup st i
  else .done ((st.note (s.groupNotes i)).finishBody (s.groupEnd i))

/-- Outside of template arguments, at lexeme `i` of a declaration that starts at `first`. -/
def plainStep (macros : Macros) (first : Nat) (st : ShapeState) (i : Nat) : ShapeStep :=
  match s.mark i with
  | .semicolon => .done (st.finish i)
  | .closeBrace =>
    .done ((st.note [⟨i, .noSemicolonAfterDeclaration⟩]).finish (max (i - 1) first))
  | .openBrace => s.braceStep st i
  | .openParen => s.skipGroup (if st.isOpen then s.nameAtParen macros st i else st) i
  | .openBracket => s.skipGroup st i
  -- in `operator=` the sign is part of the name
  | .equals => .next (i + 1) (if s.follows i "operator" then st else st.beginInit)
  | .colon =>
    .next (i + 1) (if st.shape.isFunction && !st.initialized then st.beginMemberInits else st)
  | .less =>
    .next (i + 1) (if st.isOpen && !s.follows i "operator" then st.withAngles 1 else st)
  | .comma => .next (i + 1) (if st.isOpen then st.nameLast else st)
  | .operatorWord => .next (i + 1) (if st.isOpen then st.withOperator i else st)
  | .staticWord => .next (i + 1) st.markStatic
  | .greater | .shiftRight | .other =>
    .next (i + 1) (if s.isIdentifier i && st.isOpen then st.withIdentifier i else st)

/-- What lexeme `i` does to the reading of a declaration that starts at `first`. -/
def shapeStep (macros : Macros) (first : Nat) (st : ShapeState) (i : Nat) : ShapeStep :=
  if s.isComment i then .next (i + 1) st
  -- behind an `=` a `<` compares, and a `;` ends the declaration whatever is open
  else if 0 < st.angles && !st.initialized && s.spelling i != ";" then s.angleStep st i
  else s.plainStep macros first st i

theorem lt_of_skipGroup {s : Source} {st st' : ShapeState} {i j : Nat} (hi : i < s.size)
    (h : s.skipGroup st i = .next j st') : i < j := by
  have hg := le_groupEnd hi
  simp only [skipGroup, ShapeStep.next.injEq] at h
  omega

theorem lt_of_angleStep {s : Source} {st st' : ShapeState} {i j : Nat} (hi : i < s.size)
    (h : s.angleStep st i = .next j st') : i < j := by
  unfold angleStep at h
  split at h <;>
    first
      | exact lt_of_skipGroup hi h
      | (simp only [ShapeStep.next.injEq] at h; omega)

theorem lt_of_braceStep {s : Source} {st st' : ShapeState} {i j : Nat} (hi : i < s.size)
    (h : s.braceStep st i = .next j st') : i < j := by
  unfold braceStep at h
  split at h
  · exact lt_of_skipGroup hi h
  split at h
  · exact lt_of_skipGroup hi h
  split at h
  · exact lt_of_skipGroup hi h
  · simp at h

theorem lt_of_plainStep {s : Source} {macros : Macros} {first : Nat} {st st' : ShapeState}
    {i j : Nat} (hi : i < s.size) (h : s.plainStep macros first st i = .next j st') : i < j := by
  unfold plainStep at h
  split at h <;>
    first
      | exact lt_of_skipGroup hi h
      | exact lt_of_braceStep hi h
      | (simp only [ShapeStep.next.injEq] at h; omega)
      | simp at h

/-- A step that goes on goes on behind its lexeme. -/
theorem lt_of_shapeStep {s : Source} {macros : Macros} {first : Nat} {st st' : ShapeState}
    {i j : Nat} (hi : i < s.size) (h : s.shapeStep macros first st i = .next j st') : i < j := by
  unfold shapeStep at h
  split at h
  · simp only [ShapeStep.next.injEq] at h; omega
  · split at h
    · exact lt_of_angleStep hi h
    · exact lt_of_plainStep hi h

set_option linter.unusedVariables false in
/-- Reads a declaration that starts at `first`, from `i` on. -/
def shapeFrom (macros : Macros) (first : Nat) (st : ShapeState) (i : Nat) : Shape :=
  if hi : i < s.size then
    match hs : s.shapeStep macros first st i with
    | .done d => d
    | .next j st' => shapeFrom macros first st' j
  else (st.note [⟨i, .noSemicolonAtEnd⟩]).finish (s.size - 1)
termination_by s.size - i
decreasing_by have := lt_of_shapeStep hi hs; omega

theorem shapeFrom_next {s : Source} {macros : Macros} {first : Nat} {st st' : ShapeState}
    {i j : Nat} (hi : i < s.size) (h : s.shapeStep macros first st i = .next j st') :
    s.shapeFrom macros first st i = s.shapeFrom macros first st' j := by
  rw [shapeFrom, dif_pos hi]
  split <;> simp_all

theorem shapeFrom_done {s : Source} {macros : Macros} {first : Nat} {st : ShapeState} {i : Nat}
    {d : Shape} (hi : i < s.size) (h : s.shapeStep macros first st i = .done d) :
    s.shapeFrom macros first st i = d := by
  rw [shapeFrom, dif_pos hi]
  split <;> simp_all

/-- The shape of the declaration that starts at lexeme `i`. -/
def shape (macros : Macros) (i : Nat) : Shape :=
  s.shapeFrom macros i .empty i

theorem le_stop_of_shapeStep {s : Source} {macros : Macros} {first : Nat} {st : ShapeState}
    {i : Nat} {d : Shape} (hi : i < s.size) (hf : first ≤ i)
    (h : s.shapeStep macros first st i = .done d) : first ≤ d.stop := by
  have hg := le_groupEnd hi
  unfold shapeStep at h
  split at h
  · simp at h
  split at h
  · unfold angleStep skipGroup at h
    split at h <;> simp at h
  · unfold plainStep at h
    split at h <;> try simp only [ShapeStep.done.injEq, skipGroup, reduceCtorEq] at h
    · subst h; exact hf
    · subst h; simp only [ShapeState.finish]; omega
    · unfold braceStep skipGroup at h
      (repeat' split at h) <;> simp only [ShapeStep.done.injEq, reduceCtorEq] at h
      subst h
      simp only [ShapeState.finishBody]
      omega

theorem le_stop_shapeFrom {s : Source} {macros : Macros} {first : Nat} {st : ShapeState}
    {i : Nat} (hf : first ≤ i) (hs : first < s.size) :
    first ≤ (s.shapeFrom macros first st i).stop := by
  fun_induction shapeFrom s macros first st i with
  | case1 st i hi d h => exact le_stop_of_shapeStep hi hf h
  | case2 st i hi j st' h ih => have := lt_of_shapeStep hi h; exact ih (by omega)
  | case3 st i hi => simp only [ShapeState.finish]; omega

/-- A declaration reaches at least to its first lexeme. -/
theorem le_stop_shape {s : Source} (macros : Macros) {start i : Nat} (hs : start < s.size)
    (hi : start ≤ i) : start ≤ (s.shape macros i).stop := by
  unfold shape
  by_cases h : i < s.size
  · exact Nat.le_trans hi (le_stop_shapeFrom (Nat.le_refl i) h)
  · rw [shapeFrom, dif_neg h]
    simp only [ShapeState.finish]
    omega

end Source

end DocIndex
