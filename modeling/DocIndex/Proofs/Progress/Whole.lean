import DocIndex.Proofs.Commented.Reading
import DocIndex.Proofs.Layout.Unit
import DocIndex.Proofs.Progress.Reading

/-!
# Reading always makes progress

However broken a text is, reading it comes to an end, and on the way it never asks for what does not
exist. Every search ends within the text; every step goes on behind its lexeme; a declaration that
is read with all that is written in it ends behind the lexeme that it begins with; and all demands
(`Demand`) are met.

* `Outline.readWhole` — a declaration with the bodies in it.
* `lt_next_readWhole` — it ends behind its first lexeme.
* `Source.Progress` — what can be relied on while a text is read.
* `progress_ofText` — **every text is read that way.**
-/

namespace DocIndex

namespace Outline

/-! ## Whole declarations -/

/-- Closes the scopes inside of `depth` others that are still open where the text ends. -/
def closeWithin (s : Source) (depth : Nat) : List Frame → Outline → Nat → Reading
  | [], o, i => ⟨o, [], i⟩
  | f :: around, o, i =>
    if around.length < depth then ⟨o, f :: around, i⟩
    else
      let r := close s (scopeOf around) f.closing (o.note [⟨i, .noClosingBrace⟩]) i
      closeWithin s depth around r.1 r.2

/-- Reads from lexeme `i` on until no more than `depth` scopes are open. -/
def readWithin (s : Source) (depth : Nat) (o : Outline) (frames : List Frame) (i : Nat) :
    Reading :=
  if frames.length ≤ depth then ⟨o, frames, i⟩
  else if i < s.size then
    let r := step s o frames i
    readWithin s depth r.outline r.frames r.next
  else closeWithin s depth frames o i
termination_by s.size - i
decreasing_by
  have := lt_next_step o frames ‹_›
  omega

/-- Reads the declaration that begins at `start`, with all that is written in its body. -/
def readWhole (s : Source) (o : Outline) (frames : List Frame) (start i : Nat)
    (templated : Bool) : Reading :=
  let r := readDeclaration s (scopeOf frames) start o i templated
  readWithin s frames.length r.outline (r.opened.toList ++ frames) r.next

variable {s : Source} {o : Outline} {frames : List Frame} {depth i start : Nat} {templated : Bool}

/-- Where the text has ended, closing a scope does not lead back into it. -/
theorem le_next_close {around : Scope} {closing : Closing} (hi : s.size ≤ i) :
    s.size ≤ (close s around closing o i).2 := by
  cases closing with
  | linkage id start => exact hi
  | namespaces ids start => exact hi
  | record id start =>
    have hreach := s.min_le_declaratorsEnd i
    simp only [close]
    omega
  | typedefRecord id start outer =>
    have hreach := s.min_le_statementEnd (i - 1 + 1)
    simp only [close, readTypedefRest, done]
    omega

theorem le_next_closeWithin (hi : s.size ≤ i) :
    s.size ≤ (closeWithin s depth frames o i).next := by
  induction frames generalizing o i with
  | nil => exact hi
  | cons f around ih =>
    rw [closeWithin]
    split
    · exact hi
    · exact ih (le_next_close hi)

/-- Reading a body does not lead back behind where it begins. -/
theorem le_next_readWithin : min i s.size ≤ (readWithin s depth o frames i).next := by
  fun_induction readWithin s depth o frames i with
  | case1 => exact Nat.min_le_left _ _
  | case2 o frames i _ hi r ih =>
    have hlt : i < r.next := lt_next_step o frames hi
    omega
  | case3 o frames i _ hi =>
    have hle : s.size ≤ (closeWithin s depth frames o i).next :=
      le_next_closeWithin (Nat.le_of_not_lt hi)
    omega

/-- **A declaration ends behind the lexeme that it begins with**, with all that is written in it. -/
theorem lt_next_readWhole (hs : start < s.size) (hi : start ≤ i) :
    start < (readWhole s o frames start i templated).next := by
  have hlt : start < (readDeclaration s (scopeOf frames) start o i templated).next :=
    lt_next_readDeclaration hs hi
  exact Nat.lt_of_lt_of_le (Nat.lt_min.2 ⟨hlt, hs⟩) le_next_readWithin

/-! ## What a body leaves behind -/

theorem closeAll_closeWithin :
    closeAll s frames o i =
      closeAll s (closeWithin s depth frames o i).frames (closeWithin s depth frames o i).outline
        (closeWithin s depth frames o i).next := by
  induction frames generalizing o i with
  | nil => rfl
  | cons f around ih =>
    rw [closeWithin]
    split
    · rfl
    · exact ih

/-- **Reading a text is reading a body and then what stands behind it.** -/
theorem readFrom_readWithin :
    readFrom s o frames i =
      readFrom s (readWithin s depth o frames i).outline (readWithin s depth o frames i).frames
        (readWithin s depth o frames i).next := by
  fun_induction readWithin s depth o frames i with
  | case1 => rfl
  | case2 o frames i _ hi r ih => rw [readFrom_step _ hi, ih]
  | case3 o frames i _ hi =>
    have hle : s.size ≤ (closeWithin s depth frames o i).next :=
      le_next_closeWithin (Nat.le_of_not_lt hi)
    rw [readFrom, if_neg hi, readFrom, if_neg (Nat.not_lt.2 hle)]
    exact closeAll_closeWithin

theorem frames_closeWithin (inner frames : List Frame) :
    (closeWithin s frames.length (inner ++ frames) o i).frames = frames := by
  induction inner generalizing o i with
  | nil =>
    cases frames with
    | nil => rfl
    | cons f around =>
      have hlt : around.length < (f :: around).length := Nat.lt_succ_self _
      rw [List.nil_append, closeWithin, if_pos hlt]
  | cons f inner ih =>
    rw [List.cons_append, closeWithin, if_neg (by rw [List.length_append]; omega)]
    exact ih

/-- A step within a scope leaves the scopes around it open. -/
theorem frames_step (f : Frame) (inner frames : List Frame) :
    ∃ inner', (step s o (f :: inner ++ frames) i).frames = inner' ++ frames := by
  unfold step
  simp only
  split
  · exact ⟨f :: inner, rfl⟩
  split
  · exact ⟨f :: inner, rfl⟩
  split
  · exact ⟨inner, rfl⟩
  split
  · exact ⟨f :: inner, rfl⟩
  · refine ⟨(readDeclaration s (scopeOf (f :: inner ++ frames)) i o i false).opened.toList ++
      f :: inner, ?_⟩
    rw [List.append_assoc]

theorem frames_readWithin (inner frames : List Frame) :
    (readWithin s frames.length o (inner ++ frames) i).frames = frames := by
  generalize hall : inner ++ frames = all
  fun_induction readWithin s frames.length o all i generalizing inner with
  | case1 o all i hle =>
    subst hall
    rw [List.length_append] at hle
    -- reading stops as soon as no more scopes are open than the outer ones
    have hnil : inner = [] := List.eq_nil_of_length_eq_zero (by omega)
    rw [hnil, List.nil_append]
  | case2 o all i hle hi r ih =>
    subst hall
    cases inner with
    | nil => exact absurd (Nat.le_refl _) hle
    | cons f inner =>
      obtain ⟨inner', hframes⟩ := frames_step f inner frames
      exact ih inner' hframes.symm
  | case3 o all i hle hi =>
    subst hall
    exact frames_closeWithin inner frames

/-- Behind a whole declaration the same scopes are open as in front of it. -/
theorem frames_readWhole : (readWhole s o frames start i templated).frames = frames :=
  frames_readWithin _ frames

/-- **Where a declaration begins, reading reads the whole of it**, and then what stands behind
it. -/
theorem readFrom_readWhole (hi : i < s.size) (hstarts : startsDeclaration s i = true) :
    readFrom s o frames i =
      readFrom s (readWhole s o frames i i false).outline frames
        (readWhole s o frames i i false).next := by
  have hframes : (readWhole s o frames i i false).frames = frames := frames_readWhole
  -- the step opens the body at most; what is read within it closes it again
  have hbody : readFrom s (step s o frames i).outline (step s o frames i).frames
      (step s o frames i).next =
      readFrom s (readWhole s o frames i i false).outline (readWhole s o frames i i false).frames
        (readWhole s o frames i i false).next := by
    rw [step_declaration o frames hstarts]
    exact readFrom_readWithin
  rw [readFrom_step _ hi, hbody, hframes]

/-- Reading comes to the end of the text step by step, and closes there what is open. -/
theorem exists_comes (r : Reading) :
    ∃ r', Comes s r r' ∧ s.size ≤ r'.next ∧
      readFrom s r.outline r.frames r.next = closeAll s r'.frames r'.outline r'.next := by
  generalize hleft : s.size - r.next = left
  induction left using Nat.strongRecOn generalizing r with
  | ind left ih =>
    by_cases hi : r.next < s.size
    · have hlt := lt_next_step r.outline r.frames hi
      obtain ⟨r', hcomes, hend, hread⟩ := ih (s.size - (step s r.outline r.frames r.next).next)
        (by omega) (step s r.outline r.frames r.next) rfl
      exact ⟨r', .step hi hcomes, hend, by rw [readFrom_step _ hi, hread]⟩
    · exact ⟨r, .refl r, Nat.le_of_not_lt hi, by rw [readFrom, if_neg hi]⟩

end Outline

/-! ## Searches end within the text -/

namespace Source

variable {s : Source} {i : Nat}

theorem angleEndFrom_lt {depth : Nat} {brackets : Int} (hs : 0 < s.size) :
    s.angleEndFrom depth brackets i < s.size := by
  fun_induction angleEndFrom s depth brackets i with
  | case1 depth brackets i h _ ih => exact ih
  | case2 depth brackets i h _ _ => omega
  | case3 depth brackets i h _ _ _ => exact h
  | case4 depth brackets i h _ _ _ ih => exact ih
  | case5 depth brackets i h => omega

theorem statementEnd_lt (hs : 0 < s.size) : (s.statementEnd i).index < s.size := by
  fun_induction statementEnd s i with
  | case1 i h _ => exact h
  | case2 i h _ _ r ih => exact ih
  | case3 i h _ _ _ => simp only; omega
  | case4 i h _ _ _ ih => exact ih
  | case5 i h => simp only; omega

theorem skipDecorations_le (macros : Macros) (hi : i ≤ s.size) :
    (s.skipDecorations macros i).index ≤ s.size := by
  fun_induction skipDecorations s macros i with
  | case1 i h _ r ih => exact ih (groupEnd_lt h)
  | case2 i h _ hp r ih =>
    simp only [Bool.and_eq_true] at hp
    exact ih (groupEnd_lt (lt_size_of_is hp.2))
  | case3 i h _ _ _ ih => exact ih h
  | case4 => exact hi
  | case5 => exact hi

theorem baseListEnd_le (hi : i ≤ s.size) : (s.baseListEnd i).index ≤ s.size := by
  fun_induction baseListEnd s i with
  | case1 => exact hi
  | case2 i h _ _ ih => exact ih (angleEndFrom_lt (Nat.zero_lt_of_lt h))
  | case3 i h _ _ _ r ih => exact ih (groupEnd_lt h)
  | case4 i h _ _ _ ih => exact ih h
  | case5 => exact hi

theorem enumeratorEnd_lt (hi : i < s.size) : (s.enumeratorEnd i).index < s.size := by
  fun_induction enumeratorEnd s i with
  | case1 => exact hi
  | case2 i h _ _ r ih => exact ih (groupEnd_lt h)
  | case3 i h _ _ ih => exact ih h
  | case4 => exact hi

theorem readEnumerators_le {id : CursorId} {o : Outline} (hi : i ≤ s.size) :
    (Outline.readEnumerators s id o i).2 ≤ s.size := by
  fun_induction Outline.readEnumerators s id o i with
  | case1 => exact hi
  | case2 o i h _ _ ih => exact ih (s.lineEnd_lt h)
  | case3 o i h _ _ _ e last ih => exact ih (enumeratorEnd_lt h)
  | case4 o i h _ _ _ ih => exact ih h
  | case5 => exact hi

theorem stop_shapeStep_lt {macros : Macros} {first : Nat} {st : ShapeState} {d : Shape}
    (hi : i < s.size) (hf : first ≤ i) (h : s.shapeStep macros first st i = .done d) :
    d.stop < s.size := by
  have hg := groupEnd_lt hi
  unfold shapeStep at h
  split at h
  · simp at h
  split at h
  · unfold angleStep skipGroup at h
    split at h <;> simp at h
  · unfold plainStep at h
    split at h <;> try simp only [ShapeStep.done.injEq, skipGroup, reduceCtorEq] at h
    · subst h
      exact hi
    · subst h
      simp only [ShapeState.finish]
      omega
    · unfold braceStep skipGroup at h
      (repeat' split at h) <;> simp only [ShapeStep.done.injEq, reduceCtorEq] at h
      subst h
      exact hg

theorem stop_shapeFrom_lt {macros : Macros} {first : Nat} {st : ShapeState} (hs : 0 < s.size)
    (hf : first ≤ i) : (s.shapeFrom macros first st i).stop < s.size := by
  fun_induction shapeFrom s macros first st i with
  | case1 st i hi d h => exact stop_shapeStep_lt hi hf h
  | case2 st i hi j st' h ih =>
    have hlt := lt_of_shapeStep hi h
    exact ih (by omega)
  | case3 st i hi =>
    simp only [ShapeState.finish]
    omega

theorem length_qualifierFrom (names : List String) (i : Nat) :
    (s.qualifierFrom names i).length ≤ names.length + i := by
  fun_induction qualifierFrom s names i with
  | case1 => exact Nat.le_add_right _ _
  | case2 names i _ _ first _ _ ih =>
    have hle : first ≤ i - 2 := angleStart_le 0 (i - 2)
    rw [List.length_cons] at ih
    omega
  | case3 => exact Nat.le_add_right _ _
  | case4 names i hqualified _ _ ih =>
    simp only [Bool.and_eq_true, decide_eq_true_eq] at hqualified
    rw [List.length_cons] at ih
    omega
  | case5 => exact Nat.le_add_right _ _
  | case6 => exact Nat.le_add_right _ _

/-- No more names stand in front of a name than lexemes do. -/
theorem length_qualifierOf (i : Nat) : (s.qualifierOf i).length ≤ i := by
  have hle := length_qualifierFrom (s := s) [] (if 0 < i && s.is (i - 1) "~" then i - 1 else i)
  rw [List.length_nil, Nat.zero_add] at hle
  refine Nat.le_trans hle ?_
  split <;> omega

end Source

/-! ## Places and slices -/

namespace LineTable

/-- Finding the place at an offset. -/
def placeDemands (lines : LineTable) (offset : Nat) : List Demand :=
  let line := boundary (· ≤ offset) lines.starts - 1
  [.index line lines.starts.size, .minus offset (lines.starts.getD line 0)]

/-- Halving ends just behind an element that fits, if it begins at one. -/
theorem boundaryFrom_sound {α : Type} {p : α → Bool} {xs : Array α} {base : Nat} (size : Nat)
    {x : α} (hx : xs[base]? = some x) (hp : p x = true) :
    ∃ k y, boundaryFrom p xs base size = k + 1 ∧ xs[k]? = some y ∧ p y = true := by
  fun_induction boundaryFrom p xs base size generalizing x with
  | case1 base size _ y hy hpy => exact ⟨base, y, rfl, hy, hpy⟩
  | case2 base size _ y hy hpy =>
    obtain rfl : x = y := Option.some.inj (hx.symm.trans hy)
    exact absurd hp hpy
  | case3 base size _ hnone => rw [hnone] at hx; cases hx
  | case4 base size hsize half base' =>
    rename_i ih
    by_cases hhalf : ∃ y, xs[base + half]? = some y ∧ p y = true
    · obtain ⟨y, hy, hpy⟩ := hhalf
      have hbase : base' = base + half := by simp [base', hy, hpy]
      rw [hbase] at ih ⊢
      exact ih hy hpy
    · have hbase : base' = base := by
        cases hy : xs[base + half]? with
        | none => simp [base', hy]
        | some y =>
          have hpy : ¬p y = true := fun hpy => hhalf ⟨y, hy, hpy⟩
          simp [base', hy, hpy]
      rw [hbase] at ih ⊢
      exact ih hx hp

/-- **Every offset has a place**: it stands on the last line that begins in front of it. -/
theorem allMet_placeDemands (cs : List Char) (offset : Nat) :
    AllMet ((LineTable.ofText cs).placeDemands offset) := by
  have hfirst : (LineTable.ofText cs).starts[0]? = some 0 := by
    simp [LineTable.ofText]
  obtain ⟨k, start, hk, hstart, hle⟩ := boundaryFrom_sound (p := (· ≤ offset))
    (LineTable.ofText cs).starts.size hfirst (decide_eq_true (Nat.zero_le offset))
  have hline : boundary (· ≤ offset) (LineTable.ofText cs).starts - 1 = k := by
    rw [boundary, hk, Nat.add_sub_cancel]
  have hlt : k < (LineTable.ofText cs).starts.size := (Array.getElem?_eq_some_iff.1 hstart).1
  have hget : (LineTable.ofText cs).starts.getD k 0 = start := by
    rw [Array.getD_eq_getD_getElem?, hstart, Option.getD_some]
  simp only [placeDemands, hline, hget]
  exact allMet_cons.2 ⟨hlt, allMet_minus (of_decide_eq_true hle)⟩

end LineTable

/-- From offset `first` up to `stop` something can be cut out of the text: both stand between two of
its characters. -/
def CutsOut (cs : List Char) (first stop : Nat) : Prop :=
  ∃ front mid back, cs = front ++ (mid ++ back) ∧ byteLength front = first ∧
    byteLength (front ++ mid) = stop

/-- What stands between two stretches can be cut out as well. -/
theorem CutsOut.between {cs : List Char} {a b c d : Nat} (h : CutsOut cs a b)
    (h' : CutsOut cs c d) (hle : b ≤ c) : CutsOut cs b c := by
  obtain ⟨front, mid, back, hcs, -, hb⟩ := h
  obtain ⟨front', mid', back', hcs', hc, -⟩ := h'
  have hfront : front ++ mid <+: cs := ⟨back, by rw [hcs, List.append_assoc]⟩
  have hfront' : front' <+: cs := ⟨mid' ++ back', hcs'.symm⟩
  rcases List.prefix_or_prefix_of_prefix hfront hfront' with ⟨gap, hgap⟩ | ⟨rest, hrest⟩
  · refine ⟨front ++ mid, gap, mid' ++ back', ?_, hb, ?_⟩
    · rw [← List.append_assoc, hgap, hcs']
    · rw [hgap, hc]
  · -- the second begins no earlier, so nothing stands between them
    have hlen : byteLength front' + byteLength rest = byteLength (front ++ mid) := by
      rw [← byteLength_append, hrest]
    have hnil : rest = [] := by
      rcases List.eq_nil_or_concat rest with hnil | ⟨rest', x, hne⟩
      · exact hnil
      · have hpos : 0 < byteLength rest := byteLength_pos (by simp [hne])
        omega
    rw [hnil, List.append_nil] at hrest
    exact ⟨front', [], mid' ++ back', hcs', by rw [hrest, hb], by rw [List.append_nil, hc]⟩

/-- A lexeme can be cut out of the text. -/
theorem cutsOut_lexeme {cs : List Char} {i : Nat} {t : Lexeme}
    (ht : (Source.ofText cs).lexemes[i]? = some t) : CutsOut cs t.start t.stop := by
  have hmem : t ∈ (Lexed.ofText cs).lexemes :=
    Array.mem_toList_iff.2 (Array.mem_of_getElem? ht)
  obtain ⟨-, front, back, hchars, hstart⟩ := Lexed.placed_of_mem hmem
  rw [Lexer.chars_stretches] at hchars
  have hsize : t.spelling.utf8ByteSize = byteLength t.spelling.toList := by
    rw [← utf8ByteSize_ofList, String.ofList_toList]
  refine ⟨front, t.spelling.toList, back, hchars, by omega, ?_⟩
  rw [byteLength_append, Lexeme.stop, hsize]
  omega

/-! ## Every text -/

/-- Every search ends within the text, and no earlier than it began. -/
structure Source.Searches (s : Source) : Prop where
  groups : ∀ i < s.size, i ≤ s.groupEnd i ∧ s.groupEnd i < s.size
  angles : ∀ i < s.size, i ≤ s.angleEnd i ∧ s.angleEnd i < s.size
  /-- A statement may end with the lexeme in front of where it is looked for. -/
  statements : ∀ start < s.size, ∀ i > start,
    start ≤ (s.statementEnd i).index ∧ (s.statementEnd i).index < s.size
  decorations : ∀ (macros : Macros), ∀ i ≤ s.size,
    i ≤ (s.skipDecorations macros i).index ∧ (s.skipDecorations macros i).index ≤ s.size
  bases : ∀ i ≤ s.size, i ≤ (s.baseListEnd i).index ∧ (s.baseListEnd i).index ≤ s.size
  enumerators : ∀ i < s.size, i ≤ (s.enumeratorEnd i).index ∧ (s.enumeratorEnd i).index < s.size
  bodies : ∀ (id : CursorId) (o : Outline), ∀ i ≤ s.size,
    i ≤ (Outline.readEnumerators s id o i).2 ∧ (Outline.readEnumerators s id o i).2 ≤ s.size
  shapes : ∀ (macros : Macros), ∀ i < s.size,
    i ≤ (s.shape macros i).stop ∧ (s.shape macros i).stop < s.size
  lines : ∀ i < s.size, i ≤ s.lineEnd i ∧ s.lineEnd i < s.size
  qualifiers : ∀ i, (s.qualifierOf i).length ≤ i

theorem Source.searches (s : Source) : s.Searches where
  groups _ hi := ⟨le_groupEnd hi, groupEnd_lt hi⟩
  angles _ hi := ⟨le_angleEnd hi, angleEndFrom_lt (Nat.zero_lt_of_lt hi)⟩
  statements _ hs _ hi := ⟨le_statementEnd hs hi, statementEnd_lt (Nat.zero_lt_of_lt hs)⟩
  decorations macros i hi := ⟨le_skipDecorations macros i, skipDecorations_le macros hi⟩
  bases i hi := ⟨le_baseListEnd i, baseListEnd_le hi⟩
  enumerators i hi := ⟨le_enumeratorEnd i, enumeratorEnd_lt hi⟩
  bodies id o i hi := ⟨Outline.le_next_readEnumerators id o i, readEnumerators_le hi⟩
  shapes macros i hi :=
    ⟨le_stop_shape macros hi (Nat.le_refl i),
      stop_shapeFrom_lt (Nat.zero_lt_of_lt hi) (Nat.le_refl i)⟩
  lines i hi := ⟨le_lineEnd i, s.lineEnd_lt hi⟩
  qualifiers := length_qualifierOf

/-- What can be relied on while a text is read. -/
structure Source.Progress (s : Source) (cs : List Char) : Prop where
  /-- A step goes on behind the lexeme that it is taken at. -/
  step : ∀ (o : Outline) (frames : List Frame), ∀ i < s.size, i < (Outline.step s o frames i).next
  /-- Steps lead to the end of the text, from wherever they are taken. -/
  run : ∀ r : Reading, ∃ r', Outline.Comes s r r' ∧ s.size ≤ r'.next ∧
    Outline.readFrom s r.outline r.frames r.next =
      Outline.closeAll s r'.frames r'.outline r'.next
  /-- A declaration, with all that is written in it, ends behind the lexeme that it begins with,
  whatever stands in front of its own words, and no scope is left open by it. -/
  declaration : ∀ (o : Outline) (frames : List Frame) (start i : Nat) (templated : Bool),
    start ≤ i → start < s.size →
      start < (Outline.readWhole s o frames start i templated).next ∧
        (Outline.readWhole s o frames start i templated).frames = frames
  /-- That is how a text is read where a declaration begins. -/
  whole : ∀ (o : Outline) (frames : List Frame), ∀ i < s.size,
    Outline.startsDeclaration s i = true →
      Outline.readFrom s o frames i =
        Outline.readFrom s (Outline.readWhole s o frames i i false).outline frames
          (Outline.readWhole s o frames i i false).next
  searches : s.Searches
  /-- Lexemes, and what stands between neighbours, can be cut out of the text. -/
  lexemes : ∀ (i : Nat) (t : Lexeme), s.lexemes[i]? = some t → CutsOut cs t.start t.stop ∧
    ∀ u, s.lexemes[i + 1]? = some u → CutsOut cs t.stop u.start
  places : ∀ offset, AllMet (s.lines.placeDemands offset)
  /-- Nothing is looked at that does not exist, and nothing is counted below zero. -/
  demands : ∀ (fileName : String) (macros : Macros),
    AllMet (Outline.sourceDemands s fileName macros)

/-- **Every text is read with progress and without trouble**, whatever is known to be a macro. -/
theorem progress_ofText (cs : List Char) : (Source.ofText cs).Progress cs where
  step o frames _ hi := Outline.lt_next_step o frames hi
  run := Outline.exists_comes
  declaration _ _ _ _ _ hi hs := ⟨Outline.lt_next_readWhole hs hi, Outline.frames_readWhole⟩
  whole _ _ _ hi hstarts := Outline.readFrom_readWhole hi hstarts
  searches := (Source.ofText cs).searches
  lexemes i t ht := by
    refine ⟨cutsOut_lexeme ht, fun u hu => ?_⟩
    have hle := (Source.ordered_ofText cs).stop_le (Nat.lt_succ_self i) ht hu
    exact (cutsOut_lexeme ht).between (cutsOut_lexeme hu) hle
  places := LineTable.allMet_placeDemands cs
  demands := Outline.allMet_sourceDemands (Source.ofText cs)

end DocIndex
