import DocIndex.Comment.Basic
import DocIndex.Outline.Groups
import DocIndex.Proofs.Source.Words

/-!
# Printed declarations

A tree of documented declarations, how it is printed, and what it documents.

* `Member` — what may stand in a class: a class, or something that is declared.
* `Item` — what may stand outside of classes: a namespace, a linkage block or a member.
* `print` — the text of some items, with every opening, leaf and closing on a line of its own.
* `Item.documentedOf` — what the items document, in order.
-/

namespace DocIndex

namespace Printed

/-! ## Names and documentation -/

/-- An identifier that is neither a keyword nor a specifier with arguments. -/
structure Name where
  text : String
  isWord : IsWord text.toList
  notKeyword : isKeyword text = false
  notSpecifier : Source.specifiers.contains text = false

/-- What one documentation line says. -/
structure DocText where
  text : String
  oneLine : ∀ c ∈ text.toList, c ≠ '\r' ∧ c ≠ '\n'

/-- The documentation line. -/
def DocText.line (t : DocText) : String :=
  "/// " ++ t.text

/-! ## Trees -/

/-- The key that a class is declared with. -/
inductive RecordKey
  | structKey
  | classKey
  | unionKey

/-- How a key is written. -/
def RecordKey.text : RecordKey → String
  | structKey => "struct"
  | classKey => "class"
  | unionKey => "union"

/-- What is declared without a body. -/
inductive Leaf
  | variable (name : Name)
  | function (name parameter : Name)
  | typeAlias (name : Name)

namespace Leaf

/-- The declaration without its semicolon. -/
def text : Leaf → String
  | .variable name => "int " ++ name.text
  | function name parameter => "int " ++ name.text ++ "(int " ++ parameter.text ++ ")"
  | typeAlias name => "using " ++ name.text ++ " = int"

/-- The signature that the declaration is documented under. -/
def signature : Leaf → String
  | .variable name => "int " ++ name.text
  | function name parameter => "int " ++ name.text ++ "(int " ++ parameter.text ++ ")"
  | typeAlias name => name.text ++ " = int"

/-- The directive that it is documented with, directly in a class or elsewhere. -/
def directive (inRecord : Bool) : Leaf → Directive
  | .variable _ => if inRecord then .member else .variable
  | function _ _ => .function
  | typeAlias _ => .typeAlias

end Leaf

/-- What may stand in a class. A class need not be documented; everything else is. -/
inductive Member
  | record (docs : List DocText) (key : RecordKey) (name : Name) (body : List Member)
  | leaf (first : DocText) (more : List DocText) (leaf : Leaf)

/-- What may stand outside of classes. -/
inductive Item
  | namespace (name : Option Name) (body : List Item)
  | linkage (body : List Item)
  | member (member : Member)

/-! ## Printing -/

mutual

/-- The lines of a member. -/
def Member.lines : Member → List String
  | .record docs key name body =>
    docs.map DocText.line ++ [key.text ++ " " ++ name.text ++ " \x7b"] ++ Member.linesOf body ++
      ["\x7d;"]
  | .leaf first more l => (first :: more).map DocText.line ++ [l.text ++ ";"]

/-- The lines of some members. -/
def Member.linesOf : List Member → List String
  | [] => []
  | member :: members => member.lines ++ Member.linesOf members

end

mutual

/-- The lines of an item. -/
def Item.lines : Item → List String
  | .namespace (some name) body =>
    ["namespace " ++ name.text ++ " \x7b"] ++ Item.linesOf body ++ ["\x7d"]
  | .namespace none body => ["namespace \x7b"] ++ Item.linesOf body ++ ["\x7d"]
  | .linkage body => ["extern \"C\" \x7b"] ++ Item.linesOf body ++ ["\x7d"]
  | .member m => m.lines

/-- The lines of some items. -/
def Item.linesOf : List Item → List String
  | [] => []
  | item :: items => item.lines ++ Item.linesOf items

end

/-- The text of some items. -/
def print (items : List Item) : String :=
  String.join ((Item.linesOf items).map (· ++ "\n"))

/-! ## What is documented -/

/-- Something that is documented: where, and by which lines. -/
structure Documented where
  context : DocContext
  signature : String
  text : List String
  deriving DecidableEq, Repr

/-- What documentation lines say of something within the scopes of a path. -/
def documentation (docs : List DocText) (directive : Directive) (path : List String)
    (signature : String) : Documented :=
  { context := { directive, namespacePath := "::".intercalate path, moduleName := "" }
    signature
    text := docs.map DocText.line }

mutual

/-- What a member documents within the scopes of a path. -/
def Member.documented (path : List String) (inRecord : Bool) : Member → List Documented
  | .record docs _ name body =>
    (if docs.isEmpty then [] else [documentation docs .struct path name.text]) ++
      Member.documentedOf (path ++ [name.text]) true body
  | .leaf first more l =>
    [documentation (first :: more) (l.directive inRecord) path l.signature]

/-- What some members document. -/
def Member.documentedOf (path : List String) (inRecord : Bool) : List Member → List Documented
  | [] => []
  | member :: members =>
    member.documented path inRecord ++ Member.documentedOf path inRecord members

end

mutual

/-- What an item documents within the scopes of a path. A namespace without a name and a linkage
block add nothing to the path. -/
def Item.documented (path : List String) : Item → List Documented
  | .namespace (some name) body => Item.documentedOf (path ++ [name.text]) body
  | .namespace none body => Item.documentedOf path body
  | .linkage body => Item.documentedOf path body
  | .member m => m.documented path false

/-- What some items document. -/
def Item.documentedOf (path : List String) : List Item → List Documented
  | [] => []
  | item :: items => item.documented path ++ Item.documentedOf path items

end

end Printed

end DocIndex
