import DocIndex.Outline.Declarator
import DocIndex.Outline.Preprocessor
import DocIndex.Outline.Scope

/-!
# Declarations

`Outline.readDeclaration` reads one declaration: its cursor, its lexemes, and, if it is a scope, as
far as the brace that opens its body. What the first word announces decides how it is read
(`Source.announced`); in front of it may stand macros, `export` and template heads.

Reading always goes on behind the first lexeme of the declaration (`lt_next_readDeclaration`).
-/

namespace DocIndex

variable (s : Source) (scope : Scope) (o : Outline)

/-! ## Functions and variables -/

namespace Outline

/-- The class that a declaration is a member of: the scope it is resolved to, if that is a class, or
else the class it stands in. -/
def recordOf (resolved : Option CursorId) : Option String :=
  match resolved with
  | some id =>
    match o.drafts[id]? with
    | some d => if d.kind.isRecord then some d.spelling else none
    | none => none
  | none => scope.record

/-- The kind of a function called `name`, in a class or not. -/
def functionKind (d : Shape) (record : Option String) (templated : Bool) (name : String) :
    CursorKind :=
  if d.isDestructor then .destructor
  else if record.isSome && d.isConversion then .conversionFunction
  else if record = some name then .constructor
  else if templated then .functionTemplate
  else if record.isSome then .method
  else .functionDecl

/-- Reads a function or a variable that begins at `start`; its own words begin at `i`. -/
def readPlain (start i : Nat) (templated : Bool) : Outcome :=
  let d := s.shape o.macros i
  let o := o.note d.notes
  match d.name with
  | none =>
    -- nothing is named, so the lexemes get an owner that no comment is attached to
    (o.add .unexposedDecl "" start d.stop scope.parent).done (d.stop + 1)
  | some nameAt =>
    let resolved := o.resolve scope.path (s.qualifierOf nameAt)
    let parent := resolved.getD scope.parent
    let record := o.recordOf scope resolved
    let o :=
      if d.isFunction then
        let name := d.operator.getD (s.spelling nameAt)
        let kind := functionKind d record templated name
        o.add kind (if d.isDestructor then "~" ++ name else name) start d.stop parent
      else
        -- a static member is a variable, and so is one that is defined outside of its class
        let isField := record.isSome && resolved.isNone && !d.isStatic
        o.add (if isField then .fieldDecl else .varDecl) (s.spelling nameAt) start d.stop parent
    o.done (d.stop + 1)

/-- Reads a declaration whose first word at `i` alone decides its kind. -/
def readSimple (kind : CursorKind) (start i : Nat) : Outcome :=
  let d := s.shape o.macros (i + 1)
  let name := (d.name.map s.spelling).getD ""
  ((o.note d.notes).add kind name start d.stop scope.parent).done (d.stop + 1)

end Outline

/-! ## Modules, aliases and type definitions -/

namespace Source

/-- The spellings of the `n` lexemes from `first` on, one after the other. -/
def concatFrom (first : Nat) : Nat → String
  | 0 => ""
  | n + 1 => s.spelling first ++ concatFrom (first + 1) n

end Source

namespace Outline

/-- Reads a module declaration or an import, whose keyword stands at `i`. -/
def readModule (start i : Nat) : Outcome :=
  let r := s.statementEnd (i + 1)
  let name := s.concatFrom (i + 1) (r.index - (i + 1))
  let isNamed := !name.isEmpty && name.toList.head? != some ':'
  let o := o.note r.notes
  let o := if isNamed && s.spelling i = "module" then o.nameModule name else o
  let kind := if isNamed then .moduleImportDecl else .unexposedDecl
  (o.add kind name start r.index scope.parent).done (r.index + 1)

/-- Reads an alias, a using declaration or a using directive, whose keyword stands at `i`. -/
def readUsing (start i : Nat) (templated : Bool) : Outcome :=
  let r := s.statementEnd (i + 1)
  -- attributes may stand between the name of an alias and its `=`
  let a := s.skipDecorations o.macros (i + 2)
  let o := o.note (r.notes ++ a.notes)
  let last := s.spelling (r.index - 1)
  let o :=
    if s.is (i + 1) "namespace" then o.add .usingDirective last start r.index scope.parent
    else if s.isIdentifier (i + 1) && s.is a.index "=" then
      o.add (if templated then .typeAliasTemplateDecl else .typeAliasDecl) (s.spelling (i + 1))
        start r.index scope.parent
    else o.add .usingDeclaration last start r.index scope.parent
  o.done (r.index + 1)

/-- Reads what is left of a type definition behind its class or enumeration, from `i` on. -/
def readTypedefRest (start i : Nat) : Outcome :=
  let r := s.statementEnd i
  let name := ((s.declaredName? i r.index).map s.spelling).getD ""
  ((o.note r.notes).add .typedefDecl name start r.index scope.parent).done (r.index + 1)

end Outline

/-! ## Scopes -/

namespace Source

/-- Behind an `inline` at `i`, or `i` itself. -/
def skipInline (i : Nat) : Nat :=
  if s.is i "inline" then i + 1 else i

theorem le_skipInline {s : Source} (i : Nat) : i ≤ s.skipInline i := by
  unfold skipInline
  split <;> omega

/-- The names of a namespace head from `i` on, behind `names`, and where they end. -/
def namespaceNames (names : List String) (i : Nat) : List String × Nat :=
  let j := s.skipInline i
  if s.isIdentifier j then
    if s.is (j + 1) "::" then namespaceNames (names ++ [s.spelling j]) (j + 2)
    else (names ++ [s.spelling j], j + 1)
  else (names, j)
termination_by s.size - i
decreasing_by
  have := lt_size_of_isIdentifier ‹_›
  have := le_skipInline (s := s) i
  omega

/-- The name in a class head. -/
structure RecordName where
  qualifier : List String
  name : String
  /-- Template arguments follow some part of the name. -/
  isSpecialized : Bool
  /-- Where the name ends. -/
  index : Nat

/-- Reads the name in a class head from `i` on. -/
def recordName (qualifier : List String) (isSpecialized : Bool) (i : Nat) : RecordName :=
  if s.isIdentifier i then
    let hasArguments := s.is (i + 1) "<"
    let j := if hasArguments then s.angleEnd (i + 1) + 1 else i + 1
    if s.is j "::" then
      recordName (qualifier ++ [s.spelling i]) (isSpecialized || hasArguments) (j + 1)
    else ⟨qualifier, s.spelling i, isSpecialized || hasArguments, j⟩
  else ⟨qualifier, "", isSpecialized, i⟩
termination_by s.size - i
decreasing_by
  have hi := lt_size_of_isIdentifier ‹_›
  split
  · have := le_angleEnd (lt_size_of_is ‹_›); omega
  · omega

/-- Where the list of base classes ends that is read from `i` on: at a brace or a `;`. -/
def baseListEnd (i : Nat) : Reach :=
  if h : i < s.size then
    if s.is i "\x7b" || s.is i ";" then ⟨i, []⟩
    else if s.is i "<" then baseListEnd (s.angleEnd i + 1)
    else if s.is i "(" then
      let r := baseListEnd (s.groupEnd i + 1)
      ⟨r.index, s.groupNotes i ++ r.notes⟩
    else baseListEnd (i + 1)
  else ⟨i, []⟩
termination_by s.size - i
decreasing_by
  · have := le_angleEnd h; omega
  · have := le_groupEnd h; omega
  · omega

end Source

namespace Outline

/-- Reads the head of a linkage or export block, whose brace stands at `brace`. -/
def readLinkage (start brace : Nat) : Outcome :=
  let (o, id) := o.declare .unexposedDecl "" start brace scope.parent
  (o.claim start brace id).enter (brace + 1) (scope.ownedBy id) (.linkage id start)

/-- Adds the cursors of nested namespaces, the outer one first. -/
def openNamespaces (start brace : Nat) (parent : CursorId) (path : List String)
    (ids : List CursorId) : List String → Outline → Outline × List CursorId × CursorId × List String
  | [], o => (o, ids, parent, path)
  | name :: names, o =>
    let (o, id) := o.declare .namespaceDecl name start brace parent
    -- a namespace without a name adds nothing to the path, and no qualifier means it
    if name.isEmpty then openNamespaces start brace id path (ids ++ [id]) names o
    else
      openNamespaces start brace id (path ++ [name]) (ids ++ [id]) names (o.openScope path name id)

/-- Reads a namespace alias or the head of a namespace, whose keyword stands at `i`. -/
def readNamespace (start i : Nat) : Outcome :=
  let (names, j) := s.namespaceNames [] (i + 1)
  let r := s.skipBrackets j
  let o := o.note r.notes
  if s.is r.index "=" then
    let e := s.statementEnd r.index
    let name := names.headD ""
    ((o.note e.notes).add .namespaceAlias name start e.index scope.parent).done (e.index + 1)
  else if s.is r.index "\x7b" then
    let names := if names.isEmpty then [""] else names
    let (o, ids, id, path) := openNamespaces start r.index scope.parent scope.path [] names o
    (o.claim start r.index id).enter (r.index + 1) (.ofNamespace id path) (.namespaces ids start)
  else (o.note [⟨r.index, .noNamespaceBody⟩]).readPlain s scope start r.index false

/-- The kind of a class, by its key, and whether it is a template or a specialisation. -/
def recordKind (templated isSpecialized : Bool) (key : String) : CursorKind :=
  if templated then
    if isSpecialized then .classTemplatePartialSpecialization else .classTemplate
  else if key = "class" then .classDecl
  else if key = "union" then .unionDecl
  else .structDecl

/-- Reads the head of a class whose key stands at `key`. A class that is the first part of a type
definition, begun at lexeme `outer`, ends in front of what it is not. -/
def readRecord (start key : Nat) (templated : Bool) (outer : Option Nat) : Outcome :=
  let a := s.skipDecorations o.macros (key + 1)
  let n := s.recordName [] false a.index
  let j := if s.is n.index "final" then n.index + 1 else n.index
  let kind := recordKind templated n.isSpecialized (s.spelling key)
  let parent := (o.resolve scope.path n.qualifier).getD scope.parent
  let o := o.note a.notes
  let enterAt (o : Outline) (brace : Nat) : Outcome :=
    let (o, id) := o.declare kind n.name start brace parent
    let o := o.claim start brace id
    let path := scope.path ++ n.qualifier
    let closing :=
      match outer with
      | none => .record id start
      | some outer => .typedefRecord id start outer
    -- no qualifier means a class without a name
    if n.name.isEmpty then o.enter (brace + 1) (.ofRecord id n.name path) closing
    else
      let inside := Scope.ofRecord id n.name (path ++ [n.name])
      (o.openScope path n.name id).enter (brace + 1) inside closing
  if s.is j "\x7b" then enterAt o j
  else if s.is j ":" then
    let b := s.baseListEnd (j + 1)
    let o := o.note b.notes
    if s.is b.index "\x7b" then enterAt o b.index
    else
      let last := min b.index (s.size - 1)
      ((o.note [⟨b.index, .noClassBody⟩]).add kind n.name start last parent).done (last + 1)
  else if outer.isSome then
    -- `typedef struct tag name;` declares no class, and the caller reads the rest
    o.done j
  else if s.is j ";" then (o.add kind n.name start j parent).done (j + 1)
  else
    -- `struct tag name;` declares a variable, whose type the class key begins
    o.readPlain s scope start key templated

end Outline

/-! ## Enumerations -/

namespace Source

/-- The last lexeme of the enumerator that `i` belongs to: the next one is a comma, a closing brace
or the end of the text. -/
def enumeratorEnd (i : Nat) : Reach :=
  if h : i + 1 < s.size then
    if s.is (i + 1) "," || s.is (i + 1) "\x7d" then ⟨i, []⟩
    else if s.opensGroup (i + 1) then
      let r := enumeratorEnd (s.groupEnd (i + 1))
      ⟨r.index, s.groupNotes (i + 1) ++ r.notes⟩
    else enumeratorEnd (i + 1)
  else ⟨i, []⟩
termination_by s.size - i
decreasing_by
  · have := le_groupEnd h; omega
  · omega

theorem le_enumeratorEnd {s : Source} (i : Nat) : i ≤ (s.enumeratorEnd i).index := by
  fun_induction enumeratorEnd s i with
  | case1 => exact Nat.le_refl _
  | case2 i h _ _ r ih =>
    have := le_groupEnd h
    have : s.groupEnd (i + 1) ≤ r.index := ih
    exact Nat.le_trans (by omega) this
  | case3 i h _ _ ih => omega
  | case4 => exact Nat.le_refl _

/-- Where the underlying type of an enumeration ends that is read from `i` on. -/
def underlyingEnd (i : Nat) : Nat :=
  if i < s.size then
    if s.is i "\x7b" || s.is i ";" then i else underlyingEnd (i + 1)
  else i
termination_by s.size - i

end Source

namespace Outline

/-- Reads the body of the enumeration `id` from `i` on, up to its closing brace. -/
def readEnumerators (id : CursorId) (o : Outline) (i : Nat) : Outline × Nat :=
  if i < s.size then
    if s.is i "\x7d" then (o, i)
    else if s.is i "#" && s.startsLine i then
      readEnumerators id (o.readDirective s i) (s.lineEnd i + 1)
    else if s.isIdentifier i then
      let e := s.enumeratorEnd i
      let last := s.lastCode i e.index
      readEnumerators id ((o.note e.notes).add .enumConstantDecl (s.spelling i) i last id)
        (e.index + 1)
    else readEnumerators id (o.claim i i id) (i + 1)
  else (o, i)
termination_by s.size - i
decreasing_by
  · have := Source.le_lineEnd (s := s) i; omega
  · have := Source.le_enumeratorEnd (s := s) i; omega
  · omega

/-- Behind the body of a class or an enumeration: the last lexeme of the declarators that follow,
or the brace in front. -/
def declaratorsEnd (i : Nat) : Reach :=
  if s.is i ";" then ⟨i, []⟩
  else if s.isIdentifier i || s.is i "*" || s.is i "&" || s.is i "&&" || s.is i "[" then
    s.statementEnd i
  else ⟨i - 1, []⟩

/-- Reads the body of the enumeration `id`, whose brace stands at `brace`, and what follows it. -/
def readEnumBody (id : CursorId) (start brace : Nat) (inTypedef : Bool) : Outcome :=
  let r := readEnumerators s id o (brace + 1)
  -- a body that is not closed reaches to the end of the text
  let o := if s.size ≤ r.2 then r.1.note [⟨r.2, .noClosingBrace⟩] else r.1
  let e := if inTypedef then ⟨min r.2 (s.size - 1), []⟩ else declaratorsEnd s (r.2 + 1)
  let o := (o.note e.notes).claim (min r.2 e.index) e.index id
  (o.reachTo id (max e.index start)).done (e.index + 1)

/-- Reads an enumeration whose keyword stands at `key`, as `readRecord` does a class. -/
def readEnumeration (start key : Nat) (inTypedef : Bool) : Outcome :=
  let j := if s.is (key + 1) "class" || s.is (key + 1) "struct" then key + 2 else key + 1
  let a := s.skipDecorations o.macros j
  let o := o.note a.notes
  let name := if s.isIdentifier a.index then s.spelling a.index else ""
  let j := if s.isIdentifier a.index then a.index + 1 else a.index
  let j := if s.is j ":" then s.underlyingEnd j else j
  if s.is j "\x7b" then
    let (o, id) := o.declare .enumDecl name start j scope.parent
    (o.claim start j id).readEnumBody s id start j inTypedef
  else if inTypedef then o.done j
  else if s.is j ";" then (o.add .enumDecl name start j scope.parent).done (j + 1)
  else o.readPlain s scope start key false

/-- Reads a type definition, whose keyword stands at `i`. A class or an enumeration in front is
read first. -/
def readTypedef (start i : Nat) : Outcome :=
  if s.is (i + 1) "struct" || s.is (i + 1) "class" || s.is (i + 1) "union" then
    let r := o.readRecord s scope (i + 1) (i + 1) false (some start)
    match r.opened with
    | some _ => r
    | none => r.outline.readTypedefRest s scope start r.next
  else if s.is (i + 1) "enum" then
    let r := o.readEnumeration s scope (i + 1) (i + 1) true
    r.outline.readTypedefRest s scope start r.next
  else o.readTypedefRest s scope start (i + 1)

end Outline

/-! ## All declarations -/

/-- What the first word of a declaration announces. -/
inductive Announced
  | namespaceHead (keyword : Nat)
  | linkage (brace : Nat)
  | exported
  | moduleLine
  | templateHead
  | access
  | record
  | enumeration
  | usingLine
  | typedefLine
  | simple (kind : CursorKind)
  | plain
  deriving DecidableEq, Repr

/-- What the word at `i` announces for a declaration that begins at `start`. -/
def Source.announced (start i : Nat) : Announced :=
  match s.spelling i with
  | "namespace" => .namespaceHead i
  | "inline" => if s.is (i + 1) "namespace" then .namespaceHead (i + 1) else .plain
  | "extern" =>
    if s.kind? (i + 1) == some .literal && s.is (i + 2) "\x7b" then .linkage (i + 2) else .plain
  | "export" => if s.is (i + 1) "\x7b" then .linkage (i + 1) else .exported
  | "module" | "import" =>
    if start == i || s.spelling start == "export" then .moduleLine else .plain
  | "template" => if s.is (i + 1) "<" then .templateHead else .plain
  | "public" | "private" | "protected" => if s.is (i + 1) ":" then .access else .plain
  | "struct" | "class" | "union" => .record
  | "enum" => .enumeration
  | "using" => .usingLine
  | "typedef" => .typedefLine
  | "friend" => .simple .friendDecl
  | "concept" => .simple .conceptDecl
  | "static_assert" => .simple .staticAssert
  | _ => .plain

theorem Source.is_of_announced {s : Source} {start i : Nat}
    (h : s.announced start i = .templateHead) : s.is (i + 1) "<" = true := by
  unfold announced at h
  split at h <;> (try split at h) <;> simp_all

/-- The name at `i` is a known macro. -/
def Source.isMacroCall (macros : Macros) (i : Nat) : Bool :=
  s.isIdentifier i && (macros.lookup (s.spelling i)).isSome

/-- The last lexeme of the macro call at `i`, its arguments included. -/
def Source.macroCallEnd (macros : Macros) (i : Nat) : Nat :=
  if macros.lookup (s.spelling i) == some true && s.is (i + 1) "(" then s.groupEnd (i + 1) else i

/-- What is wrong with the arguments of the macro call at `i`. -/
def Source.macroCallNotes (macros : Macros) (i : Nat) : List Note :=
  if macros.lookup (s.spelling i) == some true && s.is (i + 1) "(" then s.groupNotes (i + 1)
  else []

theorem Source.le_macroCallEnd (s : Source) (macros : Macros) (i : Nat) :
    i ≤ s.macroCallEnd macros i := by
  unfold macroCallEnd
  split
  · rename_i h
    simp only [Bool.and_eq_true] at h
    have := le_groupEnd (lt_size_of_is h.2)
    omega
  · exact Nat.le_refl i

/-- A macro call that ends at `last` stands alone: no declaration goes on behind it on its line. -/
def Source.standsAlone (last : Nat) : Bool :=
  decide (s.size ≤ last + 1) || s.is (last + 1) "\x7d" ||
    decide (s.stopLine last < s.startLine (last + 1))

namespace Outline

/-- Adds the cursor of the macro call at `i`. -/
def addMacroCall (i : Nat) : Outline × CursorId :=
  let last := s.macroCallEnd o.macros i
  let (o, id) := (o.note (s.macroCallNotes o.macros i)).declare .macroInstantiation (s.spelling i)
    i last 0
  (o.claim i last id, id)

set_option linter.unusedVariables false in
/-- Reads the declaration that begins at `start` and is not decided by what stands before `i`. -/
def readDeclaration (start : Nat) (o : Outline) (i : Nat) (templated : Bool) : Outcome :=
  if h : i < s.size then
    if s.is i "\x7d" && start < i then
      -- macros or a template head with nothing behind them
      (o.add .unexposedDecl "" start (i - 1) scope.parent).done i
    else if s.isMacroCall o.macros i then
      let last := s.macroCallEnd o.macros i
      let (o', id) := o.addMacroCall s i
      if s.is (last + 1) ";" then (o'.claim (last + 1) (last + 1) id).done (last + 2)
      else if s.standsAlone last then o'.done (last + 1)
      else
        -- the call decorates what follows on its line, which is one declaration with it
        readDeclaration start o' (last + 1) templated
    else
      match ha : s.announced start i with
      | .namespaceHead keyword => o.readNamespace s scope start keyword
      | .linkage brace => o.readLinkage scope start brace
      | .exported => readDeclaration start o (i + 1) templated
      | .moduleLine => o.readModule s scope start i
      | .templateHead => readDeclaration start o (s.angleEnd (i + 1) + 1) true
      | .access => (o.add .accessSpecifier "" start (i + 1) scope.parent).done (i + 2)
      | .record => o.readRecord s scope start i templated none
      | .enumeration => o.readEnumeration s scope start i false
      | .usingLine => o.readUsing s scope start i templated
      | .typedefLine => o.readTypedef s scope start i
      | .simple kind => o.readSimple s scope kind start i
      | .plain => o.readPlain s scope start i templated
  else o.done i
termination_by s.size - i
decreasing_by
  · have := Source.le_macroCallEnd s o.macros i; omega
  · omega
  · have := Source.le_angleEnd (Source.lt_size_of_is (Source.is_of_announced ha)); omega

end Outline

end DocIndex
