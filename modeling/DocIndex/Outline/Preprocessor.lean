import DocIndex.Outline.Basic

/-!
# Preprocessor lines

A `#` at the start of a line opens a preprocessor line. `#define` makes a name a macro, `#undef`
takes it back; what else such a line says does not matter.
-/

namespace DocIndex

namespace Source

variable (s : Source)

/-- The last lexeme of the logical line that `i` stands on. -/
def lineEnd (i : Nat) : Nat :=
  if i + 1 < s.size && s.lineContinues i then lineEnd (i + 1) else i
termination_by s.size - i
decreasing_by simp_all; omega

/-- The last of the `n` lexemes behind `i` that is no comment, or else `i`. -/
def lastCodeOf (i : Nat) : Nat → Nat
  | 0 => i
  | n + 1 => if s.isComment (i + n + 1) then lastCodeOf i n else i + n + 1

/-- The last lexeme from `first` up to and with `last` that is no comment, or else `first`. -/
def lastCode (first last : Nat) : Nat :=
  s.lastCodeOf first (last - first)

theorem le_lineEnd {s : Source} (i : Nat) : i ≤ s.lineEnd i := by
  fun_induction lineEnd s i <;> omega

end Source

namespace Outline

/-- Reads the preprocessor line that starts with the `#` at lexeme `hash`. -/
def readDirective (s : Source) (o : Outline) (hash : Nat) : Outline :=
  let last := s.lastCode hash (s.lineEnd hash)
  let word := s.spelling (hash + 1)
  let (o, id) := o.declare .preprocessingDirective word hash last 0
  if word = "define" && hash + 1 < last then
    let name := s.spelling (hash + 2)
    -- a blank in front of the parenthesis makes it part of what the macro stands for
    let hasParameters := s.is (hash + 3) "(" && s.touchesNext (hash + 2)
    let o := (o.define name hasParameters).claim hash (hash + 1) id
    o.add .macroDefinition name (hash + 2) last 0
  else if word = "undef" then (o.undefine (s.spelling (hash + 2))).claim hash last id
  else o.claim hash last id

end Outline

end DocIndex
