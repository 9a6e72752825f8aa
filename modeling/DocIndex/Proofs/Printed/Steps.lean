import DocIndex.Outline.Reading
import DocIndex.Proofs.Printed.Rows
import DocIndex.Proofs.Source.Tokens

/-!
# Reading a printed line

What one step of reading makes of each line of a printed tree, while no macro is known.
-/

namespace DocIndex

namespace Printed

/-! ## Names -/

theorem Name.ne_of_keyword (n : Name) {word : String} (h : isKeyword word = true) :
    n.text ≠ word := by
  rintro rfl
  rw [n.notKeyword] at h
  cases h

theorem Name.ne_of_head (n : Name) {c : Char} {cs : List Char} (hc : Lexer.isWordStart c = false) :
    n.text ≠ String.ofList (c :: cs) := by
  intro h
  obtain ⟨d, rest, hd, hstart, -⟩ := n.isWord
  rw [h, String.toList_ofList] at hd
  obtain ⟨rfl, -⟩ := List.cons.inj hd
  rw [hc] at hstart
  cases hstart

/-- A name is no word or punctuator that decides how a declaration is read. -/
theorem Name.ne_special (n : Name) :
    (n.text ≠ ";" ∧ n.text ≠ "," ∧ n.text ≠ ":" ∧ n.text ≠ "=" ∧ n.text ≠ "<" ∧ n.text ≠ ">" ∧
      n.text ≠ ">>" ∧ n.text ≠ "(" ∧ n.text ≠ ")" ∧ n.text ≠ "[" ∧ n.text ≠ "]" ∧
      n.text ≠ "\x7b" ∧ n.text ≠ "\x7d") ∧
    n.text ≠ "operator" ∧ n.text ≠ "static" ∧ n.text ≠ "inline" ∧ n.text ≠ "namespace" ∧
      n.text ≠ "class" ∧ n.text ≠ "struct" ∧ n.text ≠ "export" ∧ n.text ≠ "union" ∧
      n.text ≠ "using" ∧ n.text ≠ "typedef" := by
  refine ⟨⟨?_, ?_, ?_, ?_, ?_, ?_, ?_, ?_, ?_, ?_, ?_, ?_, ?_⟩,
    ?_, ?_, ?_, ?_, ?_, ?_, ?_, ?_, ?_, ?_⟩
  all_goals first
    | exact n.ne_of_keyword (by decide)
    | exact n.ne_of_head (by decide)

theorem Name.mark_text (n : Name) : Mark.of n.text = .other := by
  have h := n.ne_special
  unfold Mark.of
  split <;> simp_all

theorem Name.text_ne_empty (n : Name) : n.text ≠ "" := by
  intro h
  obtain ⟨c, rest, hc, -⟩ := n.isWord
  rw [h] at hc
  cases hc

theorem Name.wordKind (n : Name) : Lexer.wordKind n.text.toList = .identifier := by
  simp [Lexer.wordKind, n.notKeyword]

theorem note_nil (o : Outline) : o.note [] = o := by
  simp [Outline.note]

section Lines

variable {s : Source} {o : Outline} {scope : Scope} {macros : Macros} {first i j : Nat}
  {st st' : ShapeState} {d : Shape} {n m : Name} {g : Gap}

theorem isIdentifier_name (h : s.At i (letters n.text g)) : s.isIdentifier i = true := by
  rw [h.isIdentifier_eq, letters, n.wordKind]
  rfl

/-! ## Shapes -/

theorem shapeStep_int (h : s.At i (letters "int" g)) (ha : st.angles = 0) :
    s.shapeStep macros first st i = .next (i + 1) st := by
  have hmark : s.mark i = .other := by rw [Source.mark, h.spelling_letters]; rfl
  have hcomment : s.isComment i = false := h.isComment_eq
  have hword : s.isIdentifier i = false := h.isIdentifier_eq
  simp [Source.shapeStep, Source.plainStep, hcomment, ha, hmark, hword]

theorem shapeStep_name (h : s.At i (letters n.text g)) (ha : st.angles = 0)
    (ho : st.isOpen = true) :
    s.shapeStep macros first st i = .next (i + 1) (st.withIdentifier i) := by
  have hmark : s.mark i = .other := by rw [Source.mark, h.spelling_letters, n.mark_text]
  have hword := isIdentifier_name h
  have hcomment : s.isComment i = false := by rw [h.isComment_eq, letters, n.wordKind]; rfl
  simp [Source.shapeStep, Source.plainStep, hcomment, ha, hmark, hword, ho]

theorem shapeStep_semicolon (h : s.At i (mark ';' g)) (ha : st.angles = 0) :
    s.shapeStep macros first st i = .done (st.finish i) := by
  have hmark : s.mark i = .semicolon := by rw [Source.mark, h.spelling]; rfl
  have hcomment : s.isComment i = false := h.isComment_eq
  simp [Source.shapeStep, Source.plainStep, hcomment, ha, hmark]

/-- The parameters of a function reach up to their `)`. -/
theorem close?_parameters (h : s.Shows i [mark '(' .none, letters "int" .space,
    letters m.text .none, mark ')' .none]) : s.close? i = some (i + 3) := by
  obtain ⟨h₀, h₁, h₂, h₃, -⟩ := h
  have e₀ : s.spelling i = "(" := h₀.spelling
  have e₁ : s.spelling (i + 1) = "int" := h₁.spelling
  have e₂ : s.spelling (i + 1 + 1) = m.text := h₂.spelling_letters
  have e₃ : s.spelling (i + 1 + 1 + 1) = ")" := h₃.spelling
  obtain ⟨⟨-, -, -, -, -, -, -, hopen, hclose, -⟩, -⟩ := m.ne_special
  -- one parenthesis is open from here to the last lexeme
  have hopening : s.openingAt i = "(" := by rw [Source.openingAt, e₀]; rfl
  have hclosing : Source.closingOf "(" = ")" := rfl
  rw [Source.close?, hopening, hclosing, Source.closeFrom, if_pos h₀.lt, if_pos e₀,
    Source.closeFrom, if_pos h₁.lt, e₁, if_neg (by decide), if_neg (by decide),
    Source.closeFrom, if_pos h₂.lt, e₂, if_neg hopen, if_neg hclose,
    Source.closeFrom, if_pos h₃.lt, e₃, if_neg (by decide), if_pos rfl, if_pos (by decide)]

/-- The `(` behind the name of a function. -/
theorem shapeStep_parameters (hm : macros = []) (ha : st.angles = 0) (ho : st.isOpen = true)
    (hop : st.operatorAt = none)
    (h : s.Shows i [letters "int" .space, letters n.text .none, mark '(' .none,
      letters "int" .space, letters m.text .none, mark ')' .none]) :
    s.shapeStep macros first st (i + 2) =
      .next (i + 6) ((st.nameFunction (i + 1) false).note []) := by
  obtain ⟨h₀, h₁, hrest⟩ := h
  have h₂ := hrest.1
  have hclose := close?_parameters hrest
  have hmark : s.mark (i + 2) = .openParen := by rw [Source.mark, h₂.spelling]; rfl
  have hcomment : s.isComment (i + 2) = false := h₂.isComment_eq
  have hname : s.isComment (i + 1) = false := by rw [h₁.isComment_eq, letters, n.wordKind]; rfl
  have hprevious : s.previous? (i + 2) = some (i + 1) := by
    rw [Source.previous?, hname]; rfl
  have hmay : s.mayNameFunction macros (i + 1) = true := by
    rw [Source.mayNameFunction, isIdentifier_name h₁, h₁.spelling_letters, n.notSpecifier, hm]
    rfl
  have htilde : s.is i "~" = false := h₀.is_eq _
  have hnamed : s.nameAtParen macros st (i + 2) = st.nameFunction (i + 1) false := by
    simp [Source.nameAtParen, hop, hprevious, hmay, htilde]
  simp [Source.shapeStep, Source.plainStep, hcomment, ha, hmark, ho, hnamed, Source.skipGroup,
    Source.groupEnd, Source.groupNotes, hclose]

theorem shape_variable (h : s.Shows i (Leaf.variable n).words) :
    s.shape macros i = { Shape.empty with stop := i + 2, name := some (i + 1) } := by
  obtain ⟨h₀, h₁, h₂, -⟩ := h
  rw [Source.shape, Source.shapeFrom_next h₀.lt (shapeStep_int h₀ rfl),
    Source.shapeFrom_next h₁.lt (shapeStep_name h₁ rfl rfl),
    Source.shapeFrom_done h₂.lt (shapeStep_semicolon h₂ rfl)]
  rfl

theorem shape_function (hm : macros = []) (h : s.Shows i (Leaf.function n m).words) :
    s.shape macros i =
      { Shape.empty with stop := i + 6, name := some (i + 1), isFunction := true } := by
  obtain ⟨h₀, h₁, h₂, h₃, h₄, h₅, h₆, -⟩ := h
  have hparen : s.shapeStep macros i (ShapeState.empty.withIdentifier (i + 1)) (i + 2) = _ :=
    shapeStep_parameters hm rfl rfl rfl ⟨h₀, h₁, h₂, h₃, h₄, h₅, trivial⟩
  rw [Source.shape, Source.shapeFrom_next h₀.lt (shapeStep_int h₀ rfl),
    Source.shapeFrom_next h₁.lt (shapeStep_name h₁ rfl rfl), Source.shapeFrom_next h₂.lt hparen,
    Source.shapeFrom_done h₆.lt (shapeStep_semicolon h₆ rfl)]
  rfl

/-! ## Declarations -/

theorem resolve_name (h₀ : s.At i (letters "int" g)) :
    o.resolve scope.path (s.qualifierOf (i + 1)) = none := by
  have htilde : s.is i "~" = false := h₀.is_eq _
  have hcolons : s.is i "::" = false := h₀.is_eq _
  have hqualifier : s.qualifierOf (i + 1) = [] := by
    rw [Source.qualifierOf, Nat.add_sub_cancel, htilde, Bool.and_false, if_neg (by decide),
      Source.qualifierFrom, Nat.add_sub_cancel, hcolons, Bool.and_false, if_neg (by decide)]
  rw [hqualifier]
  rfl

theorem readPlain_variable (h : s.Shows i (Leaf.variable n).words) :
    o.readPlain s scope i i false =
      (o.add ((Leaf.variable n).kind scope.record) n.text i (i + 2) scope.parent).done (i + 3) := by
  have hresolve : o.resolve scope.path (s.qualifierOf (i + 1)) = none := resolve_name h.1
  have hname : s.spelling (i + 1) = n.text := h.2.1.spelling_letters
  simp [Outline.readPlain, shape_variable h, Shape.empty, note_nil, hresolve, hname,
    Outline.recordOf, Leaf.kind]

theorem readPlain_function (hm : o.macros = []) (h : s.Shows i (Leaf.function n m).words) :
    o.readPlain s scope i i false =
      (o.add ((Leaf.function n m).kind scope.record) n.text i (i + 6) scope.parent).done
        (i + 7) := by
  have hresolve : o.resolve scope.path (s.qualifierOf (i + 1)) = none := resolve_name h.1
  have hname : s.spelling (i + 1) = n.text := h.2.1.spelling_letters
  simp [Outline.readPlain, shape_function hm h, Shape.empty, note_nil, hresolve, hname,
    Outline.recordOf, Outline.functionKind, Leaf.kind]

theorem statementEnd_alias (h : s.Shows i [letters n.text .space, mark '=' .space,
    letters "int" .none, mark ';' .line]) : s.statementEnd i = ⟨i + 3, []⟩ := by
  obtain ⟨h₀, h₁, h₂, h₃, -⟩ := h
  have e₀ : s.spelling i = n.text := h₀.spelling_letters
  have e₁ : s.spelling (i + 1) = "=" := h₁.spelling
  have e₂ : s.spelling (i + 1 + 1) = "int" := h₂.spelling
  have e₃ : s.spelling (i + 1 + 1 + 1) = ";" := h₃.spelling
  obtain ⟨⟨hsemicolon, -, -, -, -, -, -, hparen, -, hbracket, -, hbrace, hclose⟩, -⟩ :=
    n.ne_special
  have g₀ : s.opensGroup i = false := by
    simp [Source.opensGroup, Source.is, e₀, hparen, hbracket, hbrace]
  have g₁ : s.opensGroup (i + 1) = false := by simp [Source.opensGroup, Source.is, e₁]
  have g₂ : s.opensGroup (i + 1 + 1) = false := by simp [Source.opensGroup, Source.is, e₂]
  rw [Source.statementEnd, if_pos h₀.lt, e₀, if_neg hsemicolon, g₀, if_neg (by decide),
    if_neg hclose, Source.statementEnd, if_pos h₁.lt, e₁, if_neg (by decide), g₁,
    if_neg (by decide), if_neg (by decide), Source.statementEnd, if_pos h₂.lt, e₂,
    if_neg (by decide), g₂, if_neg (by decide), if_neg (by decide), Source.statementEnd,
    if_pos h₃.lt, if_pos e₃]

/-- Where neither brackets nor parentheses follow, and no macro is known, nothing is skipped. -/
theorem skipDecorations_eq (hm : macros = []) (hbracket : s.spelling i ≠ "[")
    (hspecifier : Source.specifiers.contains (s.spelling i) = false) :
    s.skipDecorations macros i = ⟨i, []⟩ := by
  subst hm
  rw [Source.skipDecorations]
  split
  · have h : s.is i "[" = false := by simp [Source.is, hbracket]
    rw [h, Bool.false_and, if_neg (by decide), dif_neg (by rw [hspecifier]; simp), if_neg]
    simp
  · rfl

theorem readUsing_alias (hm : o.macros = []) (h : s.Shows i (Leaf.typeAlias n).words) :
    o.readUsing s scope i i false =
      (o.add ((Leaf.typeAlias n).kind scope.record) n.text i (i + 4) scope.parent).done
        (i + 5) := by
  obtain ⟨-, h₁, h₂, hrest⟩ := h
  have hend : s.statementEnd (i + 1) = ⟨i + 4, []⟩ := statementEnd_alias ⟨h₁, h₂, hrest⟩
  have e₂ : s.spelling (i + 2) = "=" := h₂.spelling
  have hskip : s.skipDecorations o.macros (i + 2) = ⟨i + 2, []⟩ :=
    skipDecorations_eq hm (by rw [e₂]; decide) (by rw [e₂]; decide)
  have hname : s.spelling (i + 1) = n.text := h₁.spelling_letters
  obtain ⟨-, -, -, -, hnamespace, -⟩ := n.ne_special
  have hword : s.is (i + 1) "namespace" = false := by simp [Source.is, hname, hnamespace]
  have hequals : s.is (i + 2) "=" = true := h₂.is_eq _
  simp [Outline.readUsing, hend, hskip, hword, isIdentifier_name h₁, hequals, note_nil, hname,
    Leaf.kind]

/-- A declaration that begins with a keyword is read as the keyword announces. -/
theorem readDeclaration_keyword {text : String} (h : s.At i (letters text g))
    (hk : isKeyword text = true) :
    Outline.readDeclaration s scope i o i false =
      match s.announced i i with
      | .namespaceHead keyword => o.readNamespace s scope i keyword
      | .linkage brace => o.readLinkage scope i brace
      | .record => o.readRecord s scope i i false none
      | .usingLine => o.readUsing s scope i i false
      | .plain => o.readPlain s scope i i false
      | _ => Outline.readDeclaration s scope i o i false := by
  have hword : s.isIdentifier i = false := by
    rw [h.isIdentifier_eq, letters, Lexer.wordKind, String.ofList_toList, hk]
    rfl
  -- a keyword calls no macro
  have hcall : s.isMacroCall o.macros i = false := by
    rw [Source.isMacroCall, hword, Bool.false_and]
  cases ha : s.announced i i <;> simp only
  all_goals
    rw [Outline.readDeclaration, dif_pos h.lt, if_neg (by simp), if_neg (by simp [hcall])]
    split <;> simp_all

theorem announced_int (h : s.At i (letters "int" g)) : s.announced i i = .plain := by
  rw [Source.announced, h.spelling_letters]
  rfl

theorem announced_using (h : s.At i (letters "using" g)) : s.announced i i = .usingLine := by
  rw [Source.announced, h.spelling_letters]
  rfl

theorem announced_record {key : RecordKey} (h : s.At i (letters key.text g)) :
    s.announced i i = .record := by
  rw [Source.announced, h.spelling_letters]
  cases key <;> rfl

theorem announced_namespace (h : s.At i (letters "namespace" g)) :
    s.announced i i = .namespaceHead i := by
  rw [Source.announced, h.spelling_letters]
  rfl

theorem announced_linkage (h : s.Shows i CodeLine.openLinkage.words) :
    s.announced i i = .linkage (i + 2) := by
  obtain ⟨h₀, h₁, h₂, -⟩ := h
  have hkind : s.kind? (i + 1) = some .literal := h₁.kind
  have hbrace : s.is (i + 2) "\x7b" = true := h₂.is_eq _
  rw [Source.announced, h₀.spelling_letters]
  simp [hkind, hbrace]

/-- The name that a leaf declares. -/
def Leaf.name : Leaf → Name
  | .variable name => name
  | function name _ => name
  | typeAlias name => name

/-- A leaf is read as one declaration, which owns its words. -/
theorem readDeclaration_leaf (hm : o.macros = []) {l : Leaf} (h : s.Shows i l.words) :
    Outline.readDeclaration s scope i o i false =
      (o.add (l.kind scope.record) l.name.text i (i + (l.words.length - 1)) scope.parent).done
        (i + l.words.length) := by
  cases l with
  | «variable» name =>
    rw [readDeclaration_keyword h.1 (by decide), announced_int h.1]
    exact readPlain_variable h
  | function name parameter =>
    rw [readDeclaration_keyword h.1 (by decide), announced_int h.1]
    exact readPlain_function hm h
  | typeAlias name =>
    rw [readDeclaration_keyword h.1 (by decide), announced_using h.1]
    exact readUsing_alias hm h

/-! ## Heads of scopes -/

theorem readRecord_head {key : RecordKey} (hm : o.macros = [])
    (h : s.Shows i (CodeLine.openRecord key n).words) :
    o.readRecord s scope i i false none =
      ((o.add key.kind n.text i (i + 2) scope.parent).openScope scope.path n.text
          o.drafts.size).enter (i + 3)
        (.ofRecord o.drafts.size n.text (scope.path ++ [n.text])) (.record o.drafts.size i) := by
  obtain ⟨h₀, h₁, h₂, -⟩ := h
  have hkey : s.spelling i = key.text := h₀.spelling_letters
  have hname : s.spelling (i + 1) = n.text := h₁.spelling_letters
  have hword := isIdentifier_name h₁
  obtain ⟨⟨-, -, -, -, -, -, -, -, -, hbracket, -⟩, -⟩ := n.ne_special
  have hskip : s.skipDecorations o.macros (i + 1) = ⟨i + 1, []⟩ :=
    skipDecorations_eq hm (by rwa [hname]) (by rw [hname]; exact n.notSpecifier)
  -- the name has no arguments and no qualifier
  have hless : s.is (i + 1 + 1) "<" = false := h₂.is_eq _
  have hcolons : s.is (i + 1 + 1) "::" = false := h₂.is_eq _
  have hrecord : s.recordName [] false (i + 1) = ⟨[], n.text, false, i + 2⟩ := by
    rw [Source.recordName, if_pos hword, hless, hname]
    simp [hcolons]
  have hfinal : s.is (i + 2) "final" = false := h₂.is_eq _
  have hbrace : s.is (i + 2) "\x7b" = true := h₂.is_eq _
  have hkind : Outline.recordKind false false key.text = key.kind := by cases key <;> rfl
  have hresolve : o.resolve scope.path [] = none := rfl
  simp [Outline.readRecord, hskip, hrecord, hfinal, hbrace, hkind, note_nil, hresolve, hkey,
    n.text_ne_empty]
  rfl

theorem openScope_claim (o : Outline) (path : List String) (name : String) (id owner : CursorId)
    (a b : Nat) :
    (o.openScope path name id).claim a b owner = (o.claim a b owner).openScope path name id := by
  unfold Outline.openScope
  simp only [Outline.claim]
  split <;> rfl

theorem skipBrackets_eq (h : s.is i "[" = false) : s.skipBrackets i = ⟨i, []⟩ := by
  rw [Source.skipBrackets, h]
  rfl

theorem readNamespace_named (h : s.Shows i (CodeLine.openNamespace (some n)).words) :
    o.readNamespace s scope i i =
      ((o.add .namespaceDecl n.text i (i + 2) scope.parent).openScope scope.path n.text
          o.drafts.size).enter (i + 3)
        (.ofNamespace o.drafts.size (scope.path ++ [n.text])) (.namespaces [o.drafts.size] i) := by
  obtain ⟨-, h₁, h₂, -⟩ := h
  have hname : s.spelling (i + 1) = n.text := h₁.spelling_letters
  have hword := isIdentifier_name h₁
  obtain ⟨-, -, -, hinline, -⟩ := n.ne_special
  have hskip : s.skipInline (i + 1) = i + 1 := by
    simp [Source.skipInline, Source.is, hname, hinline]
  have hcolons : s.is (i + 2) "::" = false := h₂.is_eq _
  have hnames : s.namespaceNames [] (i + 1) = ([n.text], i + 2) := by
    rw [Source.namespaceNames, hskip, if_pos hword, hname]
    simp [hcolons]
  have hbracket : s.is (i + 2) "[" = false := h₂.is_eq _
  have hbrackets := skipBrackets_eq hbracket
  have hequals : s.is (i + 2) "=" = false := h₂.is_eq _
  have hbrace : s.is (i + 2) "\x7b" = true := h₂.is_eq _
  simp [Outline.readNamespace, hnames, hbrackets, hequals, hbrace, note_nil, Outline.openNamespaces,
    n.text_ne_empty, openScope_claim]
  rfl

theorem readNamespace_unnamed (h : s.Shows i (CodeLine.openNamespace none).words) :
    o.readNamespace s scope i i =
      (o.add .namespaceDecl "" i (i + 1) scope.parent).enter (i + 2)
        (.ofNamespace o.drafts.size scope.path) (.namespaces [o.drafts.size] i) := by
  obtain ⟨-, h₁, -⟩ := h
  have hskip : s.skipInline (i + 1) = i + 1 := by
    rw [Source.skipInline, h₁.is_eq]
    rfl
  have hword : s.isIdentifier (i + 1) = false := h₁.isIdentifier_eq
  have hnames : s.namespaceNames [] (i + 1) = ([], i + 1) := by
    rw [Source.namespaceNames, hskip, hword]
    rfl
  have hbracket : s.is (i + 1) "[" = false := h₁.is_eq _
  have hbrackets := skipBrackets_eq hbracket
  have hequals : s.is (i + 1) "=" = false := h₁.is_eq _
  have hbrace : s.is (i + 1) "\x7b" = true := h₁.is_eq _
  simp [Outline.readNamespace, hnames, hbrackets, hequals, hbrace, note_nil, Outline.openNamespaces]
  rfl

/-! ## Steps -/

variable {frames : List Frame}

theorem step_comment {t : DocText} (h : s.At i t.word) :
    Outline.step s o frames i =
      ⟨o.claim i i (Outline.scopeOf frames).owner, frames, i + 1⟩ := by
  have hcomment : s.isComment i = true := h.isComment_eq
  simp [Outline.step, hcomment]

/-- A line that begins with a keyword is read as a declaration. -/
theorem step_declaration {text : String} (h : s.At i (letters text g))
    (hk : isKeyword text = true) :
    Outline.step s o frames i =
      let r := Outline.readDeclaration s (Outline.scopeOf frames) i o i false
      ⟨r.outline, r.opened.toList ++ frames, r.next⟩ := by
  have hkind : (letters text g).kind = .keyword := by
    rw [letters, Lexer.wordKind, String.ofList_toList, if_pos hk]
  have hcomment : s.isComment i = false := by rw [h.isComment_eq, hkind]; rfl
  have hne : ∀ word, isKeyword word = false → s.is i word = false := by
    intro word hword
    rw [Source.is, h.spelling_letters]
    simp only [Bool.and_eq_false_imp, beq_eq_false_iff_ne]
    rintro - rfl
    rw [hk] at hword
    cases hword
  simp [Outline.step, hcomment, hne "#" (by decide), hne "\x7d" (by decide), hne ";" (by decide)]

theorem step_leaf (hm : o.macros = []) {l : Leaf} (h : s.Shows i l.words) :
    Outline.step s o frames i =
      ⟨o.add (l.kind (Outline.scopeOf frames).record) l.name.text i (i + (l.words.length - 1))
        (Outline.scopeOf frames).parent, frames, i + l.words.length⟩ := by
  have hkey : ∃ text g, isKeyword text = true ∧ s.At i (letters text g) := by
    cases l with
    | «variable» name => exact ⟨"int", .space, by decide, h.1⟩
    | function name parameter => exact ⟨"int", .space, by decide, h.1⟩
    | typeAlias name => exact ⟨"using", .space, by decide, h.1⟩
  obtain ⟨text, g, hk, hat⟩ := hkey
  rw [step_declaration hat hk, readDeclaration_leaf hm h]
  rfl

theorem step_openRecord {key : RecordKey} (hm : o.macros = [])
    (h : s.Shows i (CodeLine.openRecord key n).words) :
    let scope := Outline.scopeOf frames
    Outline.step s o frames i =
      ⟨(o.add key.kind n.text i (i + 2) scope.parent).openScope scope.path n.text o.drafts.size,
        ⟨.ofRecord o.drafts.size n.text (scope.path ++ [n.text]), .record o.drafts.size i⟩ ::
          frames, i + 3⟩ := by
  have hk : isKeyword key.text = true := by cases key <;> decide
  simp only
  rw [step_declaration h.1 hk, readDeclaration_keyword h.1 hk, announced_record h.1]
  simp only
  rw [readRecord_head hm h]
  rfl

theorem step_openNamespace_named (h : s.Shows i (CodeLine.openNamespace (some n)).words) :
    let scope := Outline.scopeOf frames
    Outline.step s o frames i =
      ⟨(o.add .namespaceDecl n.text i (i + 2) scope.parent).openScope scope.path n.text
          o.drafts.size,
        ⟨.ofNamespace o.drafts.size (scope.path ++ [n.text]), .namespaces [o.drafts.size] i⟩ ::
          frames, i + 3⟩ := by
  simp only
  rw [step_declaration h.1 (by decide), readDeclaration_keyword h.1 (by decide),
    announced_namespace h.1]
  simp only
  rw [readNamespace_named h]
  rfl

theorem step_openNamespace_unnamed (h : s.Shows i (CodeLine.openNamespace none).words) :
    let scope := Outline.scopeOf frames
    Outline.step s o frames i =
      ⟨o.add .namespaceDecl "" i (i + 1) scope.parent,
        ⟨.ofNamespace o.drafts.size scope.path, .namespaces [o.drafts.size] i⟩ :: frames,
        i + 2⟩ := by
  simp only
  rw [step_declaration h.1 (by decide), readDeclaration_keyword h.1 (by decide),
    announced_namespace h.1]
  simp only
  rw [readNamespace_unnamed h]
  rfl

theorem step_openLinkage (h : s.Shows i CodeLine.openLinkage.words) :
    let scope := Outline.scopeOf frames
    Outline.step s o frames i =
      ⟨o.add .unexposedDecl "" i (i + 2) scope.parent,
        ⟨scope.ownedBy o.drafts.size, .linkage o.drafts.size i⟩ :: frames, i + 3⟩ := by
  simp only
  rw [step_declaration h.1 (by decide), readDeclaration_keyword h.1 (by decide),
    announced_linkage h]
  rfl

theorem step_closeBrace {f : Frame} (h : s.At i (mark '\x7d' g)) :
    Outline.step s o (f :: frames) i =
      let r := Outline.close s (Outline.scopeOf frames) f.closing (o.claim i i f.scope.owner)
        (i + 1)
      ⟨r.1, frames, r.2⟩ := by
  have hcomment : s.isComment i = false := h.isComment_eq
  have hhash : s.is i "#" = false := h.is_eq _
  have hbrace : s.is i "\x7d" = true := h.is_eq _
  simp [Outline.step, hcomment, hhash, hbrace, Outline.scopeOf]

end Lines

end Printed

end DocIndex
