import DocIndex.Proofs.Layout.Reading
import DocIndex.Proofs.Progress.Demands

/-!
# What reading a text demands

The demands of each declaration, of a step, and of a whole text (`Outline.sourceDemands`). Besides
lexemes, reading looks at owners, where lexemes are claimed, and at cursors, where a scope is closed
or a qualifier means one. That all of these exist is part of the outline's being laid out
(`Outline.Laid`).

* `allMet_stepDemands` — the demands of one step are met.
* `allMet_sourceDemands` — **the demands of a whole text are met.**
-/

namespace DocIndex

namespace Source

variable (s : Source)

/-! ## Heads and enumerators -/

/-- Finding the end of a list of base classes. -/
def baseListDemands (i : Nat) : List Demand :=
  if h : i < s.size then
    if s.is i "\x7b" || s.is i ";" then []
    else if s.is i "<" then s.angleDemands ++ baseListDemands (s.angleEnd i + 1)
    else if s.is i "(" then s.groupDemands i ++ baseListDemands (s.groupEnd i + 1)
    else baseListDemands (i + 1)
  else []
termination_by s.size - i
decreasing_by
  · have := le_angleEnd h; omega
  · have := le_groupEnd h; omega
  · omega

/-- Finding the last lexeme of an enumerator. -/
def enumeratorDemands (i : Nat) : List Demand :=
  if h : i + 1 < s.size then
    if s.is (i + 1) "," || s.is (i + 1) "\x7d" then []
    else if s.opensGroup (i + 1) then
      s.groupDemands (i + 1) ++ enumeratorDemands (s.groupEnd (i + 1))
    else enumeratorDemands (i + 1)
  else []
termination_by s.size - i
decreasing_by
  · have := le_groupEnd h; omega
  · omega

/-- Finding the declarators behind the body of a class or an enumeration. -/
def declaratorDemands (i : Nat) : List Demand :=
  if s.is i ";" then []
  else if s.isIdentifier i || s.is i "*" || s.is i "&" || s.is i "&&" || s.is i "[" then
    s.statementDemands i
  else []

variable {s}

theorem allMet_baseListDemands (i : Nat) : AllMet (s.baseListDemands i) := by
  fun_induction baseListDemands s i with
  | case1 => exact allMet_nil
  | case2 i hi _ _ ih =>
    exact allMet_append.2 ⟨allMet_angleDemands (Nat.zero_lt_of_lt hi), ih⟩
  | case3 i hi _ _ hparen ih =>
    have hopens := opensGroup_of_is hparen (.inl rfl)
    exact allMet_append.2 ⟨allMet_groupDemands hopens, ih⟩
  | case4 i hi _ _ _ ih => exact ih
  | case5 => exact allMet_nil

theorem allMet_enumeratorDemands (i : Nat) : AllMet (s.enumeratorDemands i) := by
  fun_induction enumeratorDemands s i with
  | case1 => exact allMet_nil
  | case2 i hi _ hopens ih => exact allMet_append.2 ⟨allMet_groupDemands hopens, ih⟩
  | case3 i hi _ _ ih => exact ih
  | case4 => exact allMet_nil

theorem allMet_declaratorDemands (hs : 0 < s.size) (i : Nat) : AllMet (s.declaratorDemands i) := by
  unfold declaratorDemands
  split
  · exact allMet_nil
  split
  · exact allMet_statementDemands hs i
  · exact allMet_nil

end Source

namespace Outline

variable (s : Source) (scope : Scope) (o : Outline)

/-! ## Claims and preprocessor lines -/

/-- Claiming lexemes: their owners are cut out of all owners, as far as they exist. -/
def claimDemands (first last : Nat) : List Demand :=
  let stop := min (last + 1) s.size
  [.slice (min first stop) stop o.owners.size]

/-- Looking at a cursor, or changing it. -/
def cursorDemands (id : CursorId) : List Demand :=
  [.index id o.drafts.size]

/-- A preprocessor line. -/
def directiveDemands (hash : Nat) : List Demand :=
  let last := s.lastCode hash (s.lineEnd hash)
  s.lineDemands hash ++
    if s.spelling (hash + 1) = "define" && hash + 1 < last then
      (if s.is (hash + 3) "(" then [.index (hash + 2) s.size, .index (hash + 3) s.size] else []) ++
        claimDemands s o hash (hash + 1) ++ claimDemands s o (hash + 2) last
    else claimDemands s o hash last

/-! ## Declarations -/

/-- A function or a variable. -/
def plainDemands (start i : Nat) : List Demand :=
  let d := s.shape o.macros i
  s.shapeDemands o.macros i ++
    (match d.name with
      | none => []
      | some nameAt =>
        s.qualifierDemands nameAt ++
          match o.resolve scope.path (s.qualifierOf nameAt) with
          | some id => o.cursorDemands id
          | none => []) ++
    claimDemands s o start d.stop

/-- A declaration whose first word alone decides its kind. -/
def simpleDemands (start i : Nat) : List Demand :=
  s.shapeDemands o.macros (i + 1) ++ claimDemands s o start (s.shape o.macros (i + 1)).stop

/-- A module declaration or an import. -/
def moduleDemands (start i : Nat) : List Demand :=
  s.statementDemands (i + 1) ++ claimDemands s o start (s.statementEnd (i + 1)).index

/-- An alias, a using declaration or a using directive. -/
def usingDemands (start i : Nat) : List Demand :=
  s.statementDemands (i + 1) ++ s.decorationDemands o.macros (i + 2) ++
    claimDemands s o start (s.statementEnd (i + 1)).index

/-- What is left of a type definition. -/
def typedefRestDemands (start i : Nat) : List Demand :=
  s.statementDemands i ++ claimDemands s o start (s.statementEnd i).index

/-- A namespace alias or the head of a namespace. -/
def namespaceDemands (start i : Nat) : List Demand :=
  let j := (s.namespaceNames [] (i + 1)).2
  let r := s.skipBrackets j
  s.bracketDemands j ++
    if s.is r.index "=" then
      s.statementDemands r.index ++ claimDemands s o start (s.statementEnd r.index).index
    else if s.is r.index "\x7b" then claimDemands s o start r.index
    else plainDemands s scope (o.note r.notes) start r.index

/-- A class, as far as the brace that opens its body. -/
def recordDemands (start key : Nat) (outer : Option Nat) : List Demand :=
  let j := (s.recordHead o.macros (key + 1)).2
  s.decorationDemands o.macros (key + 1) ++ s.angleDemands ++
    if s.is j "\x7b" then claimDemands s o start j
    else if s.is j ":" then
      let brace := (s.baseListEnd (j + 1)).index
      s.baseListDemands (j + 1) ++
        if s.is brace "\x7b" then claimDemands s o start brace
        else .minus s.size 1 :: claimDemands s o start (min brace (s.size - 1))
    else if outer.isSome then []
    else if s.is j ";" then claimDemands s o start j
    else plainDemands s scope o start key

/-- The body of an enumeration, from `i` on. -/
def enumeratorsDemands (id : CursorId) (o : Outline) (i : Nat) : List Demand :=
  if i < s.size then
    if s.is i "\x7d" then []
    else if s.is i "#" && s.startsLine i then
      s.startsLineDemands i ++ directiveDemands s o i ++
        enumeratorsDemands id (o.readDirective s i) (s.lineEnd i + 1)
    else if s.isIdentifier i then
      let e := s.enumeratorEnd i
      let last := s.lastCode i e.index
      s.enumeratorDemands i ++ claimDemands s o i last ++
        enumeratorsDemands id ((o.note e.notes).add .enumConstantDecl (s.spelling i) i last id)
          (e.index + 1)
    else
      (if s.is i "#" then s.startsLineDemands i else []) ++ claimDemands s o i i ++
        enumeratorsDemands id (o.claim i i id) (i + 1)
  else []
termination_by s.size - i
decreasing_by
  · have := Source.le_lineEnd (s := s) i; omega
  · have := Source.le_enumeratorEnd (s := s) i; omega
  · omega

/-- An enumeration with its body. -/
def enumerationDemands (start key : Nat) (inTypedef : Bool) : List Demand :=
  let j := (s.enumHead o.macros key).2
  s.decorationDemands o.macros (s.enumKeyEnd key) ++
    if s.is j "\x7b" then
      let r := (o.note (s.skipDecorations o.macros (s.enumKeyEnd key)).notes).declare .enumDecl
        (s.enumHead o.macros key).1 start j scope.parent
      let body := readEnumerators s r.2 (r.1.claim start j r.2) (j + 1)
      let last := (enumEnd s inTypedef body.2).index
      claimDemands s o start j ++ enumeratorsDemands s r.2 (r.1.claim start j r.2) (j + 1) ++
        (if inTypedef then [] else s.declaratorDemands (body.2 + 1)) ++
        claimDemands s body.1 (min body.2 last) last ++ body.1.cursorDemands r.2
    else if inTypedef then []
    else if s.is j ";" then claimDemands s o start j
    else plainDemands s scope o start key

/-- A type definition, as far as the brace that opens the body of a class. -/
def typedefDemands (start i : Nat) : List Demand :=
  if startsRecord s (i + 1) then
    let r := o.readRecord s scope (i + 1) (i + 1) false (some start)
    recordDemands s scope o (i + 1) (i + 1) (some start) ++
      if r.opened.isSome then [] else typedefRestDemands s r.outline start r.next
  else if s.is (i + 1) "enum" then
    let r := o.readEnumeration s scope (i + 1) (i + 1) true
    enumerationDemands s scope o (i + 1) (i + 1) true ++
      typedefRestDemands s r.outline start r.next
  else typedefRestDemands s o start (i + 1)

/-- The call of a macro, and the comparison of the line it ends on with the next one. -/
def macroCallDemands (i : Nat) : List Demand :=
  let last := s.macroCallEnd o.macros i
  (if o.macros.lookup (s.spelling i) == some true && s.is (i + 1) "(" then s.groupDemands (i + 1)
    else []) ++
    claimDemands s o i last ++
    if s.is (last + 1) ";" then claimDemands s o (last + 1) (last + 1)
    else if s.size ≤ last + 1 || s.is (last + 1) "\x7d" then []
    else [.index (last + 1) s.size, .index last s.size]

set_option linter.unusedVariables false in
/-- A declaration, as far as the brace that opens its body. -/
def declarationDemands (start : Nat) (o : Outline) (i : Nat) (templated : Bool) : List Demand :=
  if h : i < s.size then
    if s.is i "\x7d" && start < i then .minus i 1 :: claimDemands s o start (i - 1)
    else if s.isMacroCall o.macros i then
      let last := s.macroCallEnd o.macros i
      macroCallDemands s o i ++
        if s.is (last + 1) ";" || s.standsAlone last then []
        else declarationDemands start (o.addMacroCall s i).1 (last + 1) templated
    else
      match ha : s.announced start i with
      | .namespaceHead keyword => namespaceDemands s scope o start keyword
      | .linkage brace => claimDemands s o start brace
      | .exported => declarationDemands start o (i + 1) templated
      | .moduleLine => moduleDemands s o start i
      | .templateHead =>
        s.angleDemands ++ declarationDemands start o (s.angleEnd (i + 1) + 1) true
      | .access => claimDemands s o start (i + 1)
      | .record => recordDemands s scope o start i none
      | .enumeration => enumerationDemands s scope o start i false
      | .usingLine => usingDemands s o start i
      | .typedefLine => typedefDemands s scope o start i
      | .simple kind => simpleDemands s o start i
      | .plain => plainDemands s scope o start i
  else []
termination_by s.size - i
decreasing_by
  · have := Source.le_macroCallEnd s o.macros i; omega
  · omega
  · have := Source.le_angleEnd (Source.lt_size_of_is (Source.is_of_announced ha)); omega

/-! ## Steps -/

/-- Closing a scope whose body ends in front of lexeme `after`. -/
def closingDemands (closing : Closing) (after : Nat) : List Demand :=
  match closing with
  | .linkage id _ => o.cursorDemands id
  | .namespaces ids _ => ids.flatMap o.cursorDemands
  | .record id _ =>
    let last := (declaratorsEnd s after).index
    s.declaratorDemands after ++ claimDemands s o (min after last) last ++ o.cursorDemands id
  | .typedefRecord id start outer =>
    let o' := (o.claim (min after (after - 1)) (after - 1) id).reachTo id (max (after - 1) start)
    claimDemands s o (min after (after - 1)) (after - 1) ++ o.cursorDemands id ++
      typedefRestDemands s o' outer (after - 1 + 1)

/-- One step, at lexeme `i`. -/
def stepDemands (frames : List Frame) (i : Nat) : List Demand :=
  if s.isComment i then claimDemands s o i i
  else
    (if s.is i "#" then s.startsLineDemands i else []) ++
      if s.is i "#" && s.startsLine i then directiveDemands s o i
      else if s.is i "\x7d" then
        match frames with
        | [] => []
        | f :: _ =>
          claimDemands s o i i ++
            closingDemands s (o.claim i i (scopeOf frames).owner) f.closing (i + 1)
      else if s.is i ";" then claimDemands s o i i
      else declarationDemands s (scopeOf frames) i o i false

/-- Closing the scopes that are open where the text ends. -/
def closeAllDemands : List Frame → Outline → Nat → List Demand
  | [], _, _ => []
  | f :: around, o, i =>
    let o := o.note [⟨i, .noClosingBrace⟩]
    let r := close s (scopeOf around) f.closing o i
    closingDemands s o f.closing i ++ closeAllDemands around r.1 r.2

/-- Reading from lexeme `i` on. -/
def readDemands (o : Outline) (frames : List Frame) (i : Nat) : List Demand :=
  if i < s.size then
    let r := step s o frames i
    stepDemands s o frames i ++ readDemands r.outline r.frames r.next
  else closeAllDemands s frames o i
termination_by s.size - i
decreasing_by
  have := lt_next_step o frames ‹_›
  omega

/-- Reading a whole text. -/
def sourceDemands (fileName : String) (macros : Macros) : List Demand :=
  readDemands s (.start fileName s.size macros) [] 0

/-! ## All of it is met -/

section

variable {s scope o} {edges : List Edge} {next i start : Nat} {id : CursorId}

open Source

theorem allMet_claimDemands (h : o.owners.size = s.size) (first last : Nat) :
    AllMet (claimDemands s o first last) := by
  simp only [claimDemands, allMet_cons, Demand.Met, h]
  exact ⟨by omega, allMet_nil⟩

theorem allMet_cursorDemands (h : id < o.drafts.size) : AllMet (o.cursorDemands id) :=
  allMet_cons.2 ⟨h, allMet_nil⟩

theorem allMet_directiveDemands (h : o.owners.size = s.size) (hash : Nat) :
    AllMet (directiveDemands s o hash) := by
  unfold directiveDemands
  refine allMet_append.2 ⟨allMet_lineDemands hash, ?_⟩
  split
  · refine allMet_append.2 ⟨allMet_append.2 ⟨?_, allMet_claimDemands h _ _⟩,
      allMet_claimDemands h _ _⟩
    split
    · rename_i hparen
      have hlt := lt_size_of_is hparen
      exact allMet_cons.2 ⟨Nat.lt_of_succ_lt hlt, allMet_cons.2 ⟨hlt, allMet_nil⟩⟩
    · exact allMet_nil
  · exact allMet_claimDemands h _ _

theorem allMet_plainDemands (h : o.Laid s edges next) (start i : Nat) :
    AllMet (plainDemands s scope o start i) := by
  unfold plainDemands
  refine allMet_append.2 ⟨allMet_append.2 ⟨allMet_shapeDemands _ i, ?_⟩,
    allMet_claimDemands h.size _ _⟩
  split
  · exact allMet_nil
  · refine allMet_append.2 ⟨allMet_qualifierDemands _, ?_⟩
    split
    · exact allMet_cursorDemands (h.lt_size_of_resolve ‹_›)
    · exact allMet_nil

theorem allMet_simpleDemands (h : o.Laid s edges next) (start i : Nat) :
    AllMet (simpleDemands s o start i) :=
  allMet_append.2 ⟨allMet_shapeDemands _ _, allMet_claimDemands h.size _ _⟩

theorem allMet_moduleDemands (h : o.Laid s edges next) (hs : 0 < s.size) (start i : Nat) :
    AllMet (moduleDemands s o start i) :=
  allMet_append.2 ⟨allMet_statementDemands hs _, allMet_claimDemands h.size _ _⟩

theorem allMet_usingDemands (h : o.Laid s edges next) (hs : 0 < s.size) (start i : Nat) :
    AllMet (usingDemands s o start i) :=
  allMet_append.2 ⟨allMet_append.2 ⟨allMet_statementDemands hs _, allMet_decorationDemands _ _⟩,
    allMet_claimDemands h.size _ _⟩

theorem allMet_typedefRestDemands (h : o.Laid s edges next) (hs : 0 < s.size) (start i : Nat) :
    AllMet (typedefRestDemands s o start i) :=
  allMet_append.2 ⟨allMet_statementDemands hs i, allMet_claimDemands h.size _ _⟩

theorem allMet_namespaceDemands (h : o.Laid s edges next) (hs : 0 < s.size) (start i : Nat) :
    AllMet (namespaceDemands s scope o start i) := by
  unfold namespaceDemands
  refine allMet_append.2 ⟨allMet_bracketDemands _, ?_⟩
  split
  · exact allMet_append.2 ⟨allMet_statementDemands hs _, allMet_claimDemands h.size _ _⟩
  split
  · exact allMet_claimDemands h.size _ _
  · exact allMet_plainDemands (h.note _) _ _

theorem allMet_recordDemands (h : o.Laid s edges next) (hs : 0 < s.size) (start key : Nat)
    (outer : Option Nat) : AllMet (recordDemands s scope o start key outer) := by
  unfold recordDemands
  refine allMet_append.2 ⟨allMet_append.2 ⟨allMet_decorationDemands _ _, allMet_angleDemands hs⟩,
    ?_⟩
  split
  · exact allMet_claimDemands h.size _ _
  split
  · refine allMet_append.2 ⟨allMet_baseListDemands _, ?_⟩
    split
    · exact allMet_claimDemands h.size _ _
    · exact allMet_cons.2 ⟨hs, allMet_claimDemands h.size _ _⟩
  split
  · exact allMet_nil
  split
  · exact allMet_claimDemands h.size _ _
  · exact allMet_plainDemands h _ _

theorem allMet_enumeratorsDemands (h : o.Laid s (⟨start, [id]⟩ :: edges) i) :
    AllMet (enumeratorsDemands s id o i) := by
  fun_induction enumeratorsDemands s id o i with
  | case1 => exact allMet_nil
  | case2 o i hi _ _ ih =>
    exact allMet_append.2 ⟨allMet_append.2 ⟨allMet_startsLineDemands hi,
      allMet_directiveDemands h.size i⟩, ih (laid_readDirective h hi)⟩
  | case3 o i hi _ _ _ e last ih =>
    exact allMet_append.2 ⟨allMet_append.2 ⟨allMet_enumeratorDemands i,
      allMet_claimDemands h.size _ _⟩, ih (laid_addEnumerator h hi)⟩
  | case4 o i hi _ _ _ ih =>
    refine allMet_append.2 ⟨allMet_append.2 ⟨?_, allMet_claimDemands h.size _ _⟩,
      ih (h.claim_next (List.mem_cons_of_mem 0 List.mem_cons_self))⟩
    split
    · exact allMet_startsLineDemands hi
    · exact allMet_nil
  | case5 => exact allMet_nil

theorem allMet_enumerationDemands {inTypedef : Bool} (h : o.Laid s (⟨start, []⟩ :: edges) next)
    (hscope : scope.Within edges) (hstart : start ≤ i) (hnext : next ≤ i) :
    AllMet (enumerationDemands s scope o start i inTypedef) := by
  have hs : 0 < s.size := Nat.zero_lt_of_lt (h.reached _ List.mem_cons_self).2
  unfold enumerationDemands
  refine allMet_append.2 ⟨allMet_decorationDemands _ _, ?_⟩
  split
  · have hlt := s.lt_enumHead o.macros i
    have hp := parent_lt_size h hscope
    have hhead := (h.note (s.skipDecorations o.macros (s.enumKeyEnd i)).notes).head .enumDecl
      (s.enumHead o.macros i).1 hp (show start ≤ (s.enumHead o.macros i).2 by omega)
      (by omega)
    have hbody := laid_readEnumerators hhead
    have hid := hbody.lt_size_of_opened (List.mem_cons_of_mem 0 List.mem_cons_self)
    refine allMet_append.2 ⟨allMet_append.2 ⟨allMet_append.2 ⟨allMet_append.2
      ⟨allMet_claimDemands h.size _ _, allMet_enumeratorsDemands hhead⟩, ?_⟩,
      allMet_claimDemands hbody.size _ _⟩, allMet_cursorDemands hid⟩
    split
    · exact allMet_nil
    · exact allMet_declaratorDemands hs _
  split
  · exact allMet_nil
  split
  · exact allMet_claimDemands h.size _ _
  · exact allMet_plainDemands h _ _

theorem allMet_typedefDemands (h : o.Laid s (⟨start, []⟩ :: edges) next)
    (hscope : scope.Within edges) (hnext : next ≤ i) :
    AllMet (typedefDemands s scope o start i) := by
  have hs : 0 < s.size := Nat.zero_lt_of_lt (h.reached _ List.mem_cons_self).2
  have hm := h.mono (show min next s.size ≤ i + 1 by omega)
  unfold typedefDemands
  split
  · rename_i hkey
    have hlt := lt_size_of_startsRecord hkey
    refine allMet_append.2 ⟨allMet_recordDemands h hs _ _ _, ?_⟩
    have hr : LaidRecord s edges (some start)
        (o.readRecord s scope (i + 1) (i + 1) false (some start)) :=
      laid_readRecord (hm.push hlt) hscope (Nat.le_refl _) (Nat.le_refl _)
    split
    · exact allMet_nil
    · rename_i hopened
      rcases hr with ⟨hsome, -⟩ | ⟨-, hr⟩
      · exact absurd hsome hopened
      · exact allMet_typedefRestDemands hr hs _ _
  split
  · rename_i hkey
    have hr : (o.readEnumeration s scope (i + 1) (i + 1) true).Laid s (⟨start, []⟩ :: edges) :=
      laid_readEnumeration (hm.push (lt_size_of_is hkey)) (Scope.within_cons hscope _)
        (Nat.le_refl _) (Nat.le_refl _)
    have henum : AllMet (enumerationDemands s scope o (i + 1) (i + 1) true) :=
      allMet_enumerationDemands (hm.push (lt_size_of_is hkey)) (Scope.within_cons hscope _)
        (Nat.le_refl _) (Nat.le_refl _)
    exact allMet_append.2 ⟨henum, allMet_typedefRestDemands hr.outline hs _ _⟩
  · exact allMet_typedefRestDemands h hs _ _

theorem allMet_macroCallDemands (h : o.Laid s edges next) (hi : i < s.size) :
    AllMet (macroCallDemands s o i) := by
  have hlast : s.macroCallEnd o.macros i < s.size := macroCallEnd_lt hi
  unfold macroCallDemands
  refine allMet_append.2 ⟨allMet_append.2 ⟨?_, allMet_claimDemands h.size _ _⟩, ?_⟩
  · split
    · rename_i hcall
      simp only [Bool.and_eq_true] at hcall
      exact allMet_groupDemands (opensGroup_of_is hcall.2 (.inl rfl))
    · exact allMet_nil
  split
  · exact allMet_claimDemands h.size _ _
  split
  · exact allMet_nil
  · rename_i hend
    simp only [Bool.or_eq_true, decide_eq_true_eq, not_or] at hend
    exact allMet_cons.2 ⟨Nat.lt_of_not_le hend.1, allMet_cons.2 ⟨hlast, allMet_nil⟩⟩

/-- **A declaration is read without trouble.** -/
theorem allMet_declarationDemands {templated : Bool} (h : o.Laid s (⟨start, []⟩ :: edges) i)
    (hscope : scope.Within edges) (hstart : start ≤ i) :
    AllMet (declarationDemands s scope start o i templated) := by
  have hs : 0 < s.size := Nat.zero_lt_of_lt (h.reached _ List.mem_cons_self).2
  fun_induction declarationDemands s scope start o i templated with
  | case1 o i templated hi hb =>
    simp only [Bool.and_eq_true, decide_eq_true_eq] at hb
    exact allMet_cons.2 ⟨Nat.one_le_of_lt hb.2, allMet_claimDemands h.size _ _⟩
  | case2 o i templated hi _ _ last ih =>
    refine allMet_append.2 ⟨allMet_macroCallDemands h hi, ?_⟩
    split
    · exact allMet_nil
    · have hle : i ≤ last := s.le_macroCallEnd o.macros i
      exact ih (laid_addMacroCall h hi) (by omega)
  | case3 => exact allMet_namespaceDemands h hs _ _
  | case4 => exact allMet_claimDemands h.size _ _
  | case5 o i templated hi _ _ ha ih =>
    exact ih (h.mono (show min i s.size ≤ i + 1 by omega)) (by omega)
  | case6 => exact allMet_moduleDemands h hs _ _
  | case7 o i templated hi _ _ ha ih =>
    have hle := le_angleEnd (lt_size_of_is (is_of_announced ha))
    exact allMet_append.2 ⟨allMet_angleDemands hs, ih (h.mono (by omega)) (by omega)⟩
  | case8 => exact allMet_claimDemands h.size _ _
  | case9 => exact allMet_recordDemands h hs _ _ _
  | case10 => exact allMet_enumerationDemands h hscope hstart (Nat.le_refl _)
  | case11 => exact allMet_usingDemands h hs _ _
  | case12 => exact allMet_typedefDemands h hscope (Nat.le_refl _)
  | case13 => exact allMet_simpleDemands h _ _
  | case14 => exact allMet_plainDemands h _ _
  | case15 => exact allMet_nil

/-! ## Steps and runs -/

/-- **A scope is closed without trouble**: the cursors that reach to its end exist. -/
theorem allMet_closingDemands {closing : Closing} {after : Nat}
    (h : o.Laid s (closing.edges ++ edges) after) (hs : 0 < s.size) :
    AllMet (closingDemands s o closing after) := by
  cases closing with
  | linkage id start =>
    exact allMet_cursorDemands (h.lt_size_of_opened (List.mem_cons_of_mem 0 List.mem_cons_self))
  | namespaces ids start =>
    intro d hd
    obtain ⟨id, hid, hd⟩ := List.mem_flatMap.1 hd
    have hopened : id ∈ 0 :: Edge.opened (⟨start, ids⟩ :: edges) :=
      List.mem_cons_of_mem 0 (List.mem_append_left _ hid)
    exact allMet_cursorDemands (h.lt_size_of_opened hopened) d hd
  | record id start =>
    have hid := h.lt_size_of_opened (List.mem_cons_of_mem 0 List.mem_cons_self)
    exact allMet_append.2 ⟨allMet_append.2 ⟨allMet_declaratorDemands hs _,
      allMet_claimDemands h.size _ _⟩, allMet_cursorDemands hid⟩
  | typedefRecord id start outer =>
    have hid := h.lt_size_of_opened (List.mem_cons_of_mem 0 List.mem_cons_self)
    have hover := laid_typedefRecord h
    exact allMet_append.2 ⟨allMet_append.2 ⟨allMet_claimDemands h.size _ _,
      allMet_cursorDemands hid⟩, allMet_typedefRestDemands hover hs _ _⟩

/-- **One step is taken without trouble.** -/
theorem allMet_stepDemands {frames : List Frame} (h : o.Laid s (Frame.edges frames) i)
    (hframes : Frame.Nested frames) (hi : i < s.size) : AllMet (stepDemands s o frames i) := by
  have hs : 0 < s.size := Nat.zero_lt_of_lt hi
  have hscope := within_scopeOf hframes
  unfold stepDemands
  split
  · exact allMet_claimDemands h.size _ _
  refine allMet_append.2 ⟨?_, ?_⟩
  · split
    · exact allMet_startsLineDemands hi
    · exact allMet_nil
  split
  · exact allMet_directiveDemands h.size i
  split
  · cases frames with
    | nil => exact allMet_nil
    | cons f around =>
      exact allMet_append.2 ⟨allMet_claimDemands h.size _ _,
        allMet_closingDemands (h.claim_next hscope.owner) hs⟩
  split
  · exact allMet_claimDemands h.size _ _
  · exact allMet_declarationDemands (h.push hi) hscope (Nat.le_refl i)

theorem allMet_closeAllDemands {frames : List Frame} (h : o.Laid s (Frame.edges frames) i)
    (hframes : Frame.Nested frames) (hs : frames ≠ [] → 0 < s.size) :
    AllMet (closeAllDemands s frames o i) := by
  induction frames generalizing o i with
  | nil => exact allMet_nil
  | cons f around ih =>
    have hpos : 0 < s.size := hs (List.cons_ne_nil f around)
    have hclose := laid_close (h.note [⟨i, .noClosingBrace⟩]) (within_scopeOf hframes.2)
    exact allMet_append.2 ⟨allMet_closingDemands (h.note _) hpos,
      ih hclose hframes.2 fun _ => hpos⟩

theorem allMet_readDemands {frames : List Frame} (h : o.Laid s (Frame.edges frames) i)
    (hframes : Frame.Nested frames) (hs : frames ≠ [] → 0 < s.size) :
    AllMet (readDemands s o frames i) := by
  fun_induction readDemands s o frames i with
  | case1 o frames i hi r ih =>
    obtain ⟨hout, hnested⟩ := laid_step h hframes hi
    exact allMet_append.2 ⟨allMet_stepDemands h hframes hi,
      ih hout hnested fun _ => Nat.zero_lt_of_lt hi⟩
  | case2 o frames i hi => exact allMet_closeAllDemands h hframes hs

variable (s) in
/-- **A whole text is read without trouble**: every lexeme, owner and cursor that is looked at
exists, and nothing is counted below zero. -/
theorem allMet_sourceDemands (fileName : String) (macros : Macros) :
    AllMet (sourceDemands s fileName macros) :=
  allMet_readDemands (laid_start s fileName macros) trivial fun hne => absurd rfl hne

end

end Outline

end DocIndex
