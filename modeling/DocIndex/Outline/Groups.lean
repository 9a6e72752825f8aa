import DocIndex.Outline.Basic

/-!
# Groups and statements

How far brackets, template arguments, statements and attributes reach. Every function here takes
the number of a lexeme and answers with the number of one no earlier, so that what reads on behind
it comes to an end.

* `groupEnd`, `angleEnd` — the lexeme that closes a group.
* `statementEnd` — the `;` that ends a statement.
* `skipDecorations` — what may stand between a class key and the name.
* `declaredName?` — the name that a declarator declares.
-/

namespace DocIndex

namespace Source

variable (s : Source)

/-! ## Brackets -/

/-- The spelling that closes a group. -/
def closingOf (opening : String) : String :=
  if opening = "(" then ")" else if opening = "[" then "]" else "\x7d"

/-- The lexeme where `depth` groups that are open before `i` are closed. -/
def closeFrom (opening closing : String) (depth i : Nat) : Option Nat :=
  if i < s.size then
    if s.spelling i = opening then closeFrom opening closing (depth + 1) (i + 1)
    else if s.spelling i = closing then
      if depth ≤ 1 then some i else closeFrom opening closing (depth - 1) (i + 1)
    else closeFrom opening closing depth (i + 1)
  else none
termination_by s.size - i

/-- The bracket that opens a group: a brace, if it is no other. -/
def openingAt (i : Nat) : String :=
  if s.spelling i = "(" then "(" else if s.spelling i = "[" then "[" else "\x7b"

/-- The lexeme that closes the group opened at `i`. -/
def close? (i : Nat) : Option Nat :=
  s.closeFrom (s.openingAt i) (closingOf (s.openingAt i)) 0 i

/-- The lexeme that closes the group opened at `i`, or the last one if none does. -/
def groupEnd (i : Nat) : Nat :=
  (s.close? i).getD (s.size - 1)

/-- What is wrong with the group opened at `i`. -/
def groupNotes (i : Nat) : List Note :=
  match s.close? i with
  | some _ => []
  | none => [⟨i, .unbalanced (s.openingAt i)⟩]

/-- The lexeme opens a group. -/
def opensGroup (i : Nat) : Bool :=
  s.is i "(" || s.is i "[" || s.is i "\x7b"

/-- The depth of brackets behind a lexeme, from the depth in front of it. -/
def depthAfter (i : Nat) (depth : Int) : Int :=
  if s.spelling i = "(" || s.spelling i = "[" || s.spelling i = "\x7b" then depth + 1
  else if s.spelling i = ")" || s.spelling i = "]" || s.spelling i = "\x7d" then depth - 1
  else depth

/-- The depth of angle brackets behind a lexeme, from the depth in front of it. -/
def angleDepthAfter (i depth : Nat) : Nat :=
  if s.spelling i = "<" then depth + 1
  else if s.spelling i = ">" then depth - 1
  else if s.spelling i = ">>" then depth - 2
  else depth

/-- The lexeme that brings `depth` angle brackets that are open before `i` to a close. They count
outside of other brackets only, and a `;` there ends them just before. -/
def angleEndFrom (depth : Nat) (brackets : Int) (i : Nat) : Nat :=
  if i < s.size then
    if s.depthAfter i brackets ≠ brackets || brackets ≠ 0 then
      angleEndFrom depth (s.depthAfter i brackets) (i + 1)
    -- the brackets were no template arguments after all
    else if s.spelling i = ";" then i - 1
    else if s.angleDepthAfter i depth = 0 then i
    else angleEndFrom (s.angleDepthAfter i depth) brackets (i + 1)
  else s.size - 1
termination_by s.size - i

/-- The lexeme that closes the template arguments opened at `i`. -/
def angleEnd (i : Nat) : Nat :=
  s.angleEndFrom 1 0 (i + 1)

/-! ## Statements -/

theorem le_of_closeFrom {s : Source} {opening closing : String} {depth i k : Nat}
    (h : s.closeFrom opening closing depth i = some k) : i ≤ k ∧ k < s.size := by
  fun_induction closeFrom s opening closing depth i with
  | case1 depth i hi _ ih => have := ih h; omega
  | case2 depth i hi _ _ _ => simp only [Option.some.injEq] at h; omega
  | case3 depth i hi _ _ _ ih => have := ih h; omega
  | case4 depth i hi _ _ ih => have := ih h; omega
  | case5 depth i hi => simp at h

theorem le_groupEnd {s : Source} {i : Nat} (h : i < s.size) : i ≤ s.groupEnd i := by
  unfold groupEnd close?
  cases hc : s.closeFrom (s.openingAt i) (closingOf (s.openingAt i)) 0 i with
  | none => simp only [Option.getD_none]; omega
  | some k => exact (le_of_closeFrom hc).1

theorem groupEnd_lt {s : Source} {i : Nat} (h : i < s.size) : s.groupEnd i < s.size := by
  unfold groupEnd close?
  cases hc : s.closeFrom (s.openingAt i) (closingOf (s.openingAt i)) 0 i with
  | none => simp only [Option.getD_none]; omega
  | some k => exact (le_of_closeFrom hc).2

/-- The `;` that ends a statement, read from `i` on; groups are skipped. A `}` ends it as well, just
before, and so does the end of the text. -/
def statementEnd (i : Nat) : Reach :=
  if i < s.size then
    if s.spelling i = ";" then ⟨i, []⟩
    else if s.opensGroup i then
      let r := statementEnd (s.groupEnd i + 1)
      ⟨r.index, s.groupNotes i ++ r.notes⟩
    else if s.spelling i = "\x7d" then ⟨i - 1, [⟨i, .noSemicolon⟩]⟩
    else statementEnd (i + 1)
  else ⟨s.size - 1, [⟨i, .noSemicolon⟩]⟩
termination_by s.size - i
decreasing_by
  · have := le_groupEnd (s := s) (i := i) ‹_›; omega
  · omega

theorem le_angleEndFrom {s : Source} {start depth i : Nat} {brackets : Int}
    (hs : start < s.size) (hi : start < i) : start ≤ s.angleEndFrom depth brackets i := by
  fun_induction angleEndFrom s depth brackets i with
  | case1 depth brackets i h _ ih => exact ih (by omega)
  | case2 depth brackets i h _ _ => omega
  | case3 depth brackets i h _ _ _ => omega
  | case4 depth brackets i h _ _ _ ih => exact ih (by omega)
  | case5 depth brackets i h => omega

theorem le_angleEnd {s : Source} {i : Nat} (h : i < s.size) : i ≤ s.angleEnd i :=
  le_angleEndFrom h (Nat.lt_succ_self i)

/-- A statement that is read from behind `start` does not end before `start`. -/
theorem le_statementEnd {s : Source} {start i : Nat} (hs : start < s.size) (hi : start < i) :
    start ≤ (s.statementEnd i).index := by
  fun_induction statementEnd s i with
  | case1 i h _ => simp only; omega
  | case2 i h _ _ r ih => have := le_groupEnd h; exact ih (by omega)
  | case3 i h _ _ _ => simp only; omega
  | case4 i h _ _ _ ih => exact ih (by omega)
  | case5 i h => simp only; omega

/-! ## Attributes and names -/

/-- Words that take arguments in parentheses but never name a function. -/
def specifiers : List String :=
  ["__attribute__", "__declspec", "alignas", "_Alignas", "decltype", "noexcept", "throw",
    "requires", "__asm__", "asm"]

set_option linter.unusedVariables false in
/-- Skips attributes, specifiers with arguments, and macros without parameters in front of a
name. -/
def skipDecorations (macros : Macros) (i : Nat) : Reach :=
  if i < s.size then
    if s.is i "[" && s.is (i + 1) "[" then
      let r := skipDecorations macros (s.groupEnd i + 1)
      ⟨r.index, s.groupNotes i ++ r.notes⟩
    else if hp : specifiers.contains (s.spelling i) && s.is (i + 1) "(" then
      let r := skipDecorations macros (s.groupEnd (i + 1) + 1)
      ⟨r.index, s.groupNotes (i + 1) ++ r.notes⟩
    else if s.isIdentifier i && macros.lookup (s.spelling i) == some false &&
        s.isIdentifier (i + 1) then
      skipDecorations macros (i + 1)
    else ⟨i, []⟩
  else ⟨i, []⟩
termination_by s.size - i
decreasing_by
  · have := le_groupEnd (s := s) ‹_›; omega
  · simp only [Bool.and_eq_true] at hp
    have := le_groupEnd (s := s) (lt_size_of_is hp.2)
    omega
  · omega

set_option linter.unusedVariables false in
/-- Skips groups in square brackets. -/
def skipBrackets (i : Nat) : Reach :=
  if h : s.is i "[" then
    let r := skipBrackets (s.groupEnd i + 1)
    ⟨r.index, s.groupNotes i ++ r.notes⟩
  else ⟨i, []⟩
termination_by s.size - i
decreasing_by
  have := lt_size_of_is h
  have := le_groupEnd (s := s) this
  omega

/-- Reads `n` lexemes of a declarator from `i` on: the last identifier outside of brackets, and the
first one inside. An initialiser or a second declarator ends it. -/
def declaredNames (depth : Int) (outside inside : Option Nat) (i : Nat) :
    Nat → Option Nat × Option Nat
  | 0 => (outside, inside)
  | n + 1 =>
    let depth' := s.depthAfter i depth
    -- a bracket names nothing
    if depth' ≠ depth then declaredNames depth' outside inside (i + 1) n
    else if (s.spelling i = "=" || s.spelling i = ",") && depth = 0 then (outside, inside)
    else if s.isIdentifier i then
      if depth = 0 then declaredNames depth (some i) inside (i + 1) n
      else declaredNames depth outside (inside <|> some i) (i + 1) n
    else declaredNames depth outside inside (i + 1) n

/-- The name that the declarator from `first` up to `stop` declares: the last identifier outside of
brackets, or else the first one inside. -/
def declaredName? (first stop : Nat) : Option Nat :=
  let names := s.declaredNames 0 none none first (stop - first)
  names.1 <|> names.2

/-- Where template arguments that end at `i` begin, counting back to a depth of zero or to the first
lexeme. -/
def angleStart (depth : Int) (i : Nat) : Nat :=
  let depth' :=
    if s.spelling i = ">" then depth + 1
    else if s.spelling i = ">>" then depth + 2
    else if s.spelling i = "<" then depth - 1
    else depth
  match i with
  | 0 => 0
  | i + 1 => if depth' = 0 then i + 1 else angleStart depth' i

theorem angleStart_le {s : Source} (depth : Int) (i : Nat) : s.angleStart depth i ≤ i := by
  fun_induction angleStart s depth i <;> omega

/-- The names in front of the `::` that ends before `i`, as far as they reach back, in front of
`names`. -/
def qualifierFrom (names : List String) (i : Nat) : List String :=
  if 2 ≤ i && s.is (i - 1) "::" then
    if s.is (i - 2) ">" then
      let first := s.angleStart 0 (i - 2)
      -- without a lexeme in front of the arguments there is no name that they belong to
      if first = 0 then names
      else if s.isIdentifier (first - 1) then
        qualifierFrom (s.spelling (first - 1) :: names) (first - 1)
      else names
    else if s.isIdentifier (i - 2) then qualifierFrom (s.spelling (i - 2) :: names) (i - 2)
    else names
  else names
termination_by i
decreasing_by
  · have h : 2 ≤ i := by simp_all
    have := angleStart_le (s := s) 0 (i - 2)
    omega
  · have h : 2 ≤ i := by simp_all
    omega

/-- The scopes that the name at `i` is qualified by, template arguments left out. -/
def qualifierOf (i : Nat) : List String :=
  s.qualifierFrom [] (if 0 < i && s.is (i - 1) "~" then i - 1 else i)

end Source

end DocIndex
