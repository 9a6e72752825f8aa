import DocIndex.Comment.Signature
import DocIndex.Proofs.Printed.Tree
import DocIndex.Proofs.Source.Words

/-!
# Printed declarations, line by line

A printed tree is a list of rows: a line of code with the documentation lines in front of it. Rows
are made of words, so the text is cut into just these.

* `Item.rowsOf` — the rows of some items.
* `print_eq` — the printed text, from the rows.
* `documented_items` — what is documented, from the rows.
* `readable_wordsOf` — the words of the rows are cut off from one another.
-/

namespace DocIndex

namespace Printed

/-! ## Lines of code -/

/-- A line of code in a printed tree. -/
inductive CodeLine
  | openNamespace (name : Option Name)
  | openLinkage
  | openRecord (key : RecordKey) (name : Name)
  | leaf (leaf : Leaf)
  | closeBrace
  | closeRecord

/-- The language of a linkage block. -/
def quotedC : Word :=
  { kind := .literal, chars := ['"', 'C', '"'], gap := .space }

/-- A documentation line as a word. -/
def DocText.word (t : DocText) : Word :=
  { kind := .comment, chars := t.line.toList, gap := .line }

namespace Leaf

/-- The words of the declaration. -/
def words : Leaf → List Word
  | .variable name => [letters "int" .space, letters name.text .none, mark ';' .line]
  | function name parameter =>
    [letters "int" .space, letters name.text .none, mark '(' .none, letters "int" .space,
      letters parameter.text .none, mark ')' .none, mark ';' .line]
  | typeAlias name =>
    [letters "using" .space, letters name.text .space, mark '=' .space, letters "int" .none,
      mark ';' .line]

/-- What is declared, directly in the class `record` or elsewhere. -/
def kind (record : Option String) : Leaf → CursorKind
  | .variable _ => if record.isSome then .fieldDecl else .varDecl
  | function name _ =>
    if record = some name.text then .constructor
    else if record.isSome then .method
    else .functionDecl
  | typeAlias _ => .typeAliasDecl

end Leaf

/-- What a class key declares. -/
def RecordKey.kind : RecordKey → CursorKind
  | structKey => .structDecl
  | classKey => .classDecl
  | unionKey => .unionDecl

namespace CodeLine

/-- The words of a line of code. -/
def words : CodeLine → List Word
  | openNamespace (some name) =>
    [letters "namespace" .space, letters name.text .space, mark '\x7b' .line]
  | openNamespace none => [letters "namespace" .space, mark '\x7b' .line]
  | openLinkage => [letters "extern" .space, quotedC, mark '\x7b' .line]
  | openRecord key name =>
    [letters key.text .space, letters name.text .space, mark '\x7b' .line]
  | leaf l => l.words
  | closeBrace => [mark '\x7d' .line]
  | closeRecord => [mark '\x7d' .none, mark ';' .line]

/-- The line declares something that can be documented. -/
def Declarative : CodeLine → Prop
  | openRecord _ _ | leaf _ => True
  | _ => False

/-- The signature of what the line declares. -/
def signature : CodeLine → String
  | openRecord _ name => name.text
  | leaf l => l.signature
  | _ => ""

end CodeLine

/-! ## Rows -/

/-- A line of code with its documentation, what it declares, and the scopes that it stands in. -/
structure Row where
  docs : List DocText
  code : CodeLine
  kind : CursorKind
  path : List String

namespace Row

/-- A line of code that nothing is said of. -/
def plain (code : CodeLine) : Row :=
  { docs := [], code, kind := .unexposedDecl, path := [] }

/-- The words of a row. -/
def words (r : Row) : List Word :=
  r.docs.map DocText.word ++ r.code.words

/-- The row declares something that there is a directive for. -/
structure Sound (r : Row) : Prop where
  declarative : r.code.Declarative
  directive : ∃ directive, (Category.ofKind r.kind).directive? = some directive
  notMacro : r.kind ≠ .macroDefinition

/-- What a row documents. -/
def documented? (r : Row) : Option Documented :=
  if r.docs.isEmpty then none
  else
    (Category.ofKind r.kind).directive?.map fun directive =>
      documentation r.docs directive r.path r.code.signature

end Row

/-- The words of some rows. -/
def wordsOf (rows : List Row) : List Word :=
  rows.flatMap Row.words

@[simp] theorem wordsOf_nil : wordsOf [] = [] := rfl

@[simp] theorem wordsOf_cons (r : Row) (rs : List Row) :
    wordsOf (r :: rs) = r.words ++ wordsOf rs := rfl

@[simp] theorem wordsOf_append (rs qs : List Row) :
    wordsOf (rs ++ qs) = wordsOf rs ++ wordsOf qs := by
  simp [wordsOf]

mutual

/-- The rows of a member that stands in the scopes of a path, directly in the class `record` or in
none. -/
def Member.rows (path : List String) (record : Option String) : Member → List Row
  | .record docs key name body =>
    { docs, code := .openRecord key name, kind := key.kind, path } ::
      (Member.rowsOf (path ++ [name.text]) (some name.text) body ++ [.plain .closeRecord])
  | .leaf first more l =>
    [{ docs := first :: more, code := .leaf l, kind := l.kind record, path }]

/-- The rows of some members. -/
def Member.rowsOf (path : List String) (record : Option String) : List Member → List Row
  | [] => []
  | member :: members => member.rows path record ++ Member.rowsOf path record members

end

mutual

/-- The rows of an item that stands in the scopes of a path. -/
def Item.rows (path : List String) : Item → List Row
  | .namespace (some name) body =>
    .plain (.openNamespace (some name)) ::
      (Item.rowsOf (path ++ [name.text]) body ++ [.plain .closeBrace])
  | .namespace none body =>
    .plain (.openNamespace none) :: (Item.rowsOf path body ++ [.plain .closeBrace])
  | .linkage body => .plain .openLinkage :: (Item.rowsOf path body ++ [.plain .closeBrace])
  | .member m => m.rows path none

/-- The rows of some items. -/
def Item.rowsOf (path : List String) : List Item → List Row
  | [] => []
  | item :: items => item.rows path ++ Item.rowsOf path items

end

/-! ## The text of the rows -/

/-- The characters of some lines, each with its end. -/
def charsOf (lines : List String) : List Char :=
  lines.flatMap fun l => l.toList ++ ['\n']

@[simp] theorem charsOf_cons (l : String) (ls : List String) :
    charsOf (l :: ls) = l.toList ++ '\n' :: charsOf ls := by
  simp [charsOf]

@[simp] theorem charsOf_append (ls ks : List String) :
    charsOf (ls ++ ks) = charsOf ls ++ charsOf ks := by
  simp [charsOf]

theorem charsOf_docs (docs : List DocText) :
    charsOf (docs.map DocText.line) = spell (docs.map DocText.word) := by
  induction docs with
  | nil => rfl
  | cons t docs ih => simp [ih, DocText.word, Gap.chars]

mutual

theorem charsOf_member (path : List String) (record : Option String) :
    ∀ m : Member, charsOf m.lines = spell (wordsOf (m.rows path record))
  | .record docs key name body => by
    have ih := charsOf_members (path ++ [name.text]) (some name.text) body
    simp [Member.lines, Member.rows, Row.words, CodeLine.words, letters, mark, charsOf_docs,
      Row.plain, Gap.chars, ih]
    rfl
  | .leaf first more l => by
    cases l <;>
      simp [Member.lines, Member.rows, Row.words, CodeLine.words, Leaf.words, Leaf.text, letters,
        mark, charsOf_docs, Gap.chars, DocText.word] <;> rfl

theorem charsOf_members (path : List String) (record : Option String) :
    ∀ ms : List Member, charsOf (Member.linesOf ms) = spell (wordsOf (Member.rowsOf path record ms))
  | [] => rfl
  | m :: ms => by
    rw [Member.linesOf, Member.rowsOf, charsOf_append, wordsOf_append, spell_append,
      charsOf_member path record m, charsOf_members path record ms]

end

mutual

theorem charsOf_item (path : List String) :
    ∀ item : Item, charsOf item.lines = spell (wordsOf (item.rows path))
  | .namespace (some name) body => by
    have ih := charsOf_items (path ++ [name.text]) body
    simp [Item.lines, Item.rows, Row.words, CodeLine.words, letters, mark, Row.plain, Gap.chars, ih]
    rfl
  | .namespace none body => by
    have ih := charsOf_items path body
    simp [Item.lines, Item.rows, Row.words, CodeLine.words, letters, mark, Row.plain, Gap.chars, ih]
    rfl
  | .linkage body => by
    have ih := charsOf_items path body
    simp [Item.lines, Item.rows, Row.words, CodeLine.words, letters, mark, quotedC, Row.plain,
      Gap.chars, ih]
    rfl
  | .member m => charsOf_member path none m

theorem charsOf_items (path : List String) :
    ∀ items : List Item, charsOf (Item.linesOf items) = spell (wordsOf (Item.rowsOf path items))
  | [] => rfl
  | item :: items => by
    rw [Item.linesOf, Item.rowsOf, charsOf_append, wordsOf_append, spell_append,
      charsOf_item path item, charsOf_items path items]

end

/-- **A printed text is spelled by the words of its rows.** -/
theorem print_eq (items : List Item) :
    (print items).toList = spell (wordsOf (Item.rowsOf [] items)) := by
  rw [← charsOf_items]
  unfold print
  induction Item.linesOf items with
  | nil => rfl
  | cons l ls ih =>
    rw [List.map_cons, String.join_cons, String.toList_append, ih, charsOf_cons,
      String.toList_append, List.append_assoc]
    rfl

/-! ## What the rows document -/

theorem documented?_plain (code : CodeLine) : (Row.plain code).documented? = none := rfl

/-- The lines around a body document nothing. -/
theorem filterMap_enclosed (opening closing : CodeLine) (rows : List Row) :
    (Row.plain opening :: (rows ++ [Row.plain closing])).filterMap Row.documented? =
      rows.filterMap Row.documented? := by
  rw [List.filterMap_cons_none (documented?_plain opening), List.filterMap_append,
    List.filterMap_cons_none (documented?_plain closing), List.filterMap_nil, List.append_nil]

theorem directive?_leaf (l : Leaf) (record : Option String) :
    (Category.ofKind (l.kind record)).directive? = some (l.directive record.isSome) := by
  cases l with
  | «variable» name => cases record <;> rfl
  | function name parameter =>
    simp only [Leaf.kind]
    split
    · rfl
    · split <;> rfl
  | typeAlias name => rfl

theorem sound_leaf (docs : List DocText) (l : Leaf) (record : Option String) (path : List String) :
    Row.Sound { docs, code := .leaf l, kind := l.kind record, path } where
  declarative := trivial
  directive := ⟨_, directive?_leaf l record⟩
  notMacro h := by
    have hd := directive?_leaf l record
    rw [show l.kind record = .macroDefinition from h] at hd
    cases l with
    | «variable» name => cases record <;> cases hd
    | function name parameter => cases hd
    | typeAlias name => cases hd

theorem directive?_record (key : RecordKey) :
    (Category.ofKind key.kind).directive? = some .struct := by
  cases key <;> rfl

theorem sound_record (docs : List DocText) (key : RecordKey) (name : Name) (path : List String) :
    Row.Sound { docs, code := .openRecord key name, kind := key.kind, path } where
  declarative := trivial
  directive := ⟨_, directive?_record key⟩
  notMacro := by cases key <;> exact CursorKind.noConfusion

mutual

theorem documented_member (path : List String) (record : Option String) :
    ∀ m : Member, m.documented path record.isSome = (m.rows path record).filterMap Row.documented?
  | .record docs key name body => by
    have ih := documented_members (path ++ [name.text]) (some name.text) body
    have hrow : Row.documented? { docs, code := .openRecord key name, kind := key.kind, path } =
        if docs.isEmpty then none else some (documentation docs .struct path name.text) := by
      simp [Row.documented?, directive?_record key, CodeLine.signature]
    rw [Member.documented, Member.rows, List.filterMap_cons, hrow, List.filterMap_append, ← ih]
    cases docs with
    | nil => simp [documented?_plain]
    | cons t docs => simp [documented?_plain]
  | .leaf first more l => by
    simp [Member.documented, Member.rows, Row.documented?, directive?_leaf, CodeLine.signature]

theorem documented_members (path : List String) (record : Option String) :
    ∀ ms : List Member,
      Member.documentedOf path record.isSome ms =
        (Member.rowsOf path record ms).filterMap Row.documented?
  | [] => rfl
  | m :: ms => by
    rw [Member.documentedOf, Member.rowsOf, List.filterMap_append,
      documented_member path record m, documented_members path record ms]

end

mutual

theorem documented_item (path : List String) :
    ∀ item : Item, item.documented path = (item.rows path).filterMap Row.documented?
  | .namespace (some name) body => by
    rw [Item.documented, Item.rows, filterMap_enclosed, documented_items (path ++ [name.text]) body]
  | .namespace none body => by
    rw [Item.documented, Item.rows, filterMap_enclosed, documented_items path body]
  | .linkage body => by
    rw [Item.documented, Item.rows, filterMap_enclosed, documented_items path body]
  | .member m => documented_member path none m

/-- What items document is what their rows do. -/
theorem documented_items (path : List String) :
    ∀ items : List Item,
      Item.documentedOf path items = (Item.rowsOf path items).filterMap Row.documented?
  | [] => rfl
  | item :: items => by
    rw [Item.documentedOf, Item.rowsOf, List.filterMap_append, documented_item path item,
      documented_items path items]

end

/-! ## The words of the rows -/

theorem DocText.word_eq (t : DocText) :
    t.word = lineComment ('/' :: '/' :: ' ' :: t.text.toList) := by
  simp [DocText.word, DocText.line, lineComment]

theorem isWord_namespace : IsWord "namespace".toList := isWord_of_all rfl (by decide) (by decide)

theorem isWord_extern : IsWord "extern".toList := isWord_of_all rfl (by decide) (by decide)

theorem isWord_int : IsWord "int".toList := isWord_of_all rfl (by decide) (by decide)

theorem isWord_using : IsWord "using".toList := isWord_of_all rfl (by decide) (by decide)

theorem RecordKey.isWord (key : RecordKey) : IsWord key.text.toList := by
  cases key <;> exact isWord_of_all rfl (by decide) (by decide)

section

variable {rest : List Word}

theorem endsBlank_docs (docs : List DocText) (h : EndsBlank (spell rest)) :
    EndsBlank (spell (docs.map DocText.word ++ rest)) := by
  cases docs with
  | nil => exact h
  | cons t docs =>
    rw [List.map_cons, List.cons_append, DocText.word_eq]
    rintro d hd
    cases hd
    decide

theorem endsBlank_code (code : CodeLine) : EndsBlank (spell (code.words ++ rest)) := by
  cases code with
  | openNamespace name => cases name <;> exact endsBlank_letters isWord_namespace
  | openLinkage => exact endsBlank_letters isWord_extern
  | openRecord key name => exact endsBlank_letters key.isWord
  | leaf l =>
    cases l with
    | «variable» name => exact endsBlank_letters isWord_int
    | function name parameter => exact endsBlank_letters isWord_int
    | typeAlias name => exact endsBlank_letters isWord_using
  | closeBrace => exact endsBlank_mark (by decide)
  | closeRecord => exact endsBlank_mark (by decide)

theorem readable_code (code : CodeLine) (hb : EndsBlank (spell rest)) (h : Readable rest) :
    Readable (code.words ++ rest) := by
  -- a last mark, and a mark that touches the next word
  have hlast {c : Char} (hc : c ∈ ['\x7b', '\x7d', '(', ')', ';', ',']) :
      (mark c .line).Reads (spell rest) := reads_mark hc fun _ => hb
  have hmark {c : Char} {ws : List Word} (hc : c ∈ ['\x7b', '\x7d', '(', ')', ';', ',']) :
      (mark c .none).Reads (spell ws) := reads_mark hc (absurd rfl)
  have hspaced {text : String} {ws : List Word} (hw : IsWord text.toList)
      (he : EndsBlank (spell ws)) : (letters text .space).Reads (spell ws) :=
    reads_letters hw (fun _ => he) nofun
  have htight {text : String} {c : Char} {g : Gap} {ws : List Word} (hw : IsWord text.toList)
      (hc : Lexer.isWordPart c = false ∧ c ≠ '"' ∧ c ≠ '\'') :
      (letters text .none).Reads (spell (mark c g :: ws)) :=
    reads_letters hw (absurd rfl) fun _ => endsWord_mark hc
  cases code with
  | openNamespace name =>
    cases name with
    | none =>
      exact ⟨hspaced isWord_namespace (endsBlank_mark (by decide)), hlast (by decide), h⟩
    | some name =>
      exact ⟨hspaced isWord_namespace (endsBlank_letters name.isWord),
        hspaced name.isWord (endsBlank_mark (by decide)), hlast (by decide), h⟩
  | openLinkage =>
    have hquoted : quotedC.Reads (spell (mark '\x7b' .line :: rest)) :=
      ⟨by decide, ⟨'"', ['C', '"'], rfl, front_quoted⟩, fun _ => endsBlank_mark (by decide)⟩
    have hbefore : EndsBlank (spell (quotedC :: mark '\x7b' .line :: rest)) := by
      rintro d hd
      cases hd
      decide
    exact ⟨hspaced isWord_extern hbefore, hquoted, hlast (by decide), h⟩
  | openRecord key name =>
    exact ⟨hspaced key.isWord (endsBlank_letters name.isWord),
      hspaced name.isWord (endsBlank_mark (by decide)), hlast (by decide), h⟩
  | leaf l =>
    cases l with
    | «variable» name =>
      exact ⟨hspaced isWord_int (endsBlank_letters name.isWord), htight name.isWord (by decide),
        hlast (by decide), h⟩
    | function name parameter =>
      exact ⟨hspaced isWord_int (endsBlank_letters name.isWord), htight name.isWord (by decide),
        hmark (by decide), hspaced isWord_int (endsBlank_letters parameter.isWord),
        htight parameter.isWord (by decide), hmark (by decide), hlast (by decide), h⟩
    | typeAlias name =>
      exact ⟨hspaced isWord_using (endsBlank_letters name.isWord),
        hspaced name.isWord (endsBlank_mark (by decide)),
        reads_equals (endsBlank_letters isWord_int), htight isWord_int (by decide),
        hlast (by decide), h⟩
  | closeBrace => exact ⟨hlast (by decide), h⟩
  | closeRecord => exact ⟨hmark (by decide), hlast (by decide), h⟩

theorem readable_docs (docs : List DocText) (hb : EndsBlank (spell rest)) (h : Readable rest) :
    Readable (docs.map DocText.word ++ rest) := by
  induction docs with
  | nil => exact h
  | cons t docs ih =>
    refine ⟨?_, ih⟩
    rw [DocText.word_eq]
    refine reads_lineComment (fun d hd => ?_) (endsBlank_docs docs hb)
    simp only [List.mem_cons] at hd
    rcases hd with rfl | rfl | hd
    · decide
    · decide
    · exact t.oneLine d hd

end

/-- **The words of the rows are cut off from one another.** -/
theorem readable_wordsOf (rows : List Row) :
    Readable (wordsOf rows) ∧ EndsBlank (spell (wordsOf rows)) := by
  induction rows with
  | nil => exact ⟨trivial, nofun⟩
  | cons r rows ih =>
    have hcode := readable_code r.code ih.2 ih.1
    have hblank : EndsBlank (spell (r.code.words ++ wordsOf rows)) := endsBlank_code r.code
    rw [wordsOf_cons, Row.words, List.append_assoc]
    exact ⟨readable_docs r.docs hblank hcode, endsBlank_docs r.docs hblank⟩

end Printed

end DocIndex
