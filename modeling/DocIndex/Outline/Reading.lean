import DocIndex.Outline.Progress

/-!
# Reading a whole text

The text is read by steps. At each step one thing is read at lexeme `i`, within the scopes whose
bodies are open: a comment, a preprocessor line, a closing brace, a stray `;` or a declaration.
Every step goes on behind lexeme `i` (`lt_next_step`), so reading comes to an end; the scopes that
are still open then are closed there.

* `Outline.step` — one step.
* `Outline.ofSource` — the outline of a text.
-/

namespace DocIndex

/-- Where reading stands: what has been recognised, the scopes whose bodies are open, the inner one
first, and the lexeme that is read next. -/
structure Reading where
  outline : Outline
  frames : List Frame
  next : Nat
  deriving Repr

namespace Outline

/-- The scope that is read in. -/
def scopeOf : List Frame → Scope
  | [] => .file
  | f :: _ => f.scope

/-- Finishes a scope whose body ends before lexeme `after`, within the scope around it. -/
def close (s : Source) (around : Scope) (closing : Closing) (o : Outline) (after : Nat) :
    Outline × Nat :=
  match closing with
  | .linkage id start => (o.reachTo id (max (after - 1) start), after)
  | .namespaces ids start =>
    (ids.foldl (fun o id => o.reachTo id (max (after - 1) start)) o, after)
  | .record id start =>
    let e := declaratorsEnd s after
    let o := (o.note e.notes).claim (min after e.index) e.index id
    (o.reachTo id (max e.index start), e.index + 1)
  | .typedefRecord id start outer =>
    let o := (o.claim (min after (after - 1)) (after - 1) id).reachTo id (max (after - 1) start)
    let r := o.readTypedefRest s around outer (after - 1 + 1)
    (r.outline, r.next)

/-- Reads what stands at lexeme `i`, within the scopes whose bodies are open. -/
def step (s : Source) (o : Outline) (frames : List Frame) (i : Nat) : Reading :=
  let scope := scopeOf frames
  -- between declarations a comment belongs to the scope around, not to what it documents
  if s.isComment i then ⟨o.claim i i scope.owner, frames, i + 1⟩
  else if s.is i "#" && s.startsLine i then ⟨o.readDirective s i, frames, s.lineEnd i + 1⟩
  else if s.is i "\x7d" then
    match frames with
    | [] => ⟨o.note [⟨i, .extraClosingBrace⟩], [], i + 1⟩
    | f :: around =>
      let (o, next) := close s (scopeOf around) f.closing (o.claim i i scope.owner) (i + 1)
      ⟨o, around, next⟩
  else if s.is i ";" then ⟨o.claim i i scope.owner, frames, i + 1⟩
  else
    let r := readDeclaration s scope i o i false
    ⟨r.outline, r.opened.toList ++ frames, r.next⟩

theorem lt_next_close {s : Source} {around : Scope} {closing : Closing} {o : Outline} {i : Nat}
    (hi : i < s.size) : i < (close s around closing o (i + 1)).2 := by
  unfold close
  split
  · exact Nat.lt_succ_self i
  · exact Nat.lt_succ_self i
  · have := le_declaratorsEnd hi (Nat.lt_succ_self i)
    simp only
    exact Nat.lt_succ_of_le this
  · simp only
    exact lt_next_readTypedefRest hi (by omega)

/-- **Every step goes on behind its lexeme.** -/
theorem lt_next_step {s : Source} (o : Outline) (frames : List Frame) {i : Nat} (hi : i < s.size) :
    i < (step s o frames i).next := by
  unfold step
  simp only
  split
  · exact Nat.lt_succ_self i
  split
  · exact Nat.lt_succ_of_le (Source.le_lineEnd i)
  split
  · split
    · exact Nat.lt_succ_self i
    · exact lt_next_close hi
  split
  · exact Nat.lt_succ_self i
  · exact lt_next_readDeclaration hi (Nat.le_refl i)

/-- Closes the scopes that are still open where the text ends. -/
def closeAll (s : Source) : List Frame → Outline → Nat → Outline
  | [], o, _ => o
  | f :: around, o, i =>
    let (o, next) := close s (scopeOf around) f.closing (o.note [⟨i, .noClosingBrace⟩]) i
    closeAll s around o next

/-- Reads from lexeme `i` on, within the scopes whose bodies are open. -/
def readFrom (s : Source) (o : Outline) (frames : List Frame) (i : Nat) : Outline :=
  if i < s.size then
    let r := step s o frames i
    readFrom s r.outline r.frames r.next
  else closeAll s frames o i
termination_by s.size - i
decreasing_by
  have := lt_next_step o frames ‹_›
  omega

theorem readFrom_step {s : Source} {o : Outline} (frames : List Frame) {i : Nat} (hi : i < s.size) :
    readFrom s o frames i =
      readFrom s (step s o frames i).outline (step s o frames i).frames
        (step s o frames i).next := by
  rw [readFrom, if_pos hi]

/-- The outline of a text, given the names that are known to be macros. -/
def ofSource (fileName : String) (macros : Macros) (s : Source) : Outline :=
  readFrom s (start fileName s.size macros) [] 0

end Outline

end DocIndex
