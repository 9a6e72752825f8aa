import DocIndex.Comment.Directive
import DocIndex.Source.Unit

/-!
# Signatures

How a declaration is written behind its directive: its own tokens up to the body, without comments
and without the keywords that the directive already says, joined as they stood in the source.
-/

namespace DocIndex

/-- The kinds of documentation that a declaration can have. -/
inductive Category
  | macroDefinition
  | member
  | typeAlias
  | struct
  | function
  | variable
  | unsupported
  deriving DecidableEq, Repr

namespace Category

/-- The category of a kind of cursor. -/
def ofKind : CursorKind → Category
  | .macroDefinition => macroDefinition
  | .fieldDecl => member
  | .typedefDecl | .typeAliasDecl | .typeAliasTemplateDecl => typeAlias
  | .structDecl | .classDecl | .unionDecl | .classTemplate
  | .classTemplatePartialSpecialization => struct
  | .functionDecl | .functionTemplate | .method | .constructor | .destructor
  | .conversionFunction => function
  | .varDecl => .variable
  | _ => unsupported

/-- The directive of a category. -/
def directive? : Category → Option Directive
  | macroDefinition => some .macroDefinition
  | member => some .member
  | typeAlias => some .typeAlias
  | struct => some .struct
  | function => some .function
  | .variable => some .variable
  | unsupported => none

end Category

/-- A comment may be attached to a cursor of this kind. -/
def CursorKind.canBeDocumented (k : CursorKind) : Bool :=
  k == .macroDefinition ||
    (k.isDeclaration && k != .namespaceDecl && k != .unexposedDecl)

/-- Spellings with a space wherever two neighbours did not touch in the source. -/
def textOfTokens : List Token → String
  | [] => ""
  | [t] => t.spelling
  | t :: u :: rest => t.spelling ++ (if t.touches u then "" else " ") ++ textOfTokens (u :: rest)

/-- Keywords that are no part of a signature. -/
def silentKeywords : List String :=
  ["class", "struct", "export", "union", "using", "typedef"]

/-- The depth of brackets behind a token. -/
def Token.bracketsAfter (t : Token) (brackets : Nat) : Nat :=
  if t.spelling = "(" || t.spelling = "[" then brackets + 1
  else if t.spelling = ")" || t.spelling = "]" then brackets - 1
  else brackets

/-- The depth of template parameters behind a token, `previous` being the spelling in front. Angle
brackets count from behind the keyword `template`. -/
def Token.anglesAfter (t : Token) (angles : Nat) (previous : Option String) : Nat :=
  if t.spelling = "<" then
    if 0 < angles || previous = some "template" then angles + 1 else angles
  else if t.spelling = ">" then angles - 1
  else if t.spelling = ">>" then angles - 2
  else angles

/-- The tokens of a signature, read from within brackets and template parameters of the given
depths: up to the first `{` or `;` outside of brackets, without comments, and outside of both
without the keywords that are left out. -/
def headFrom (brackets angles : Nat) (previous : Option String) : List Token → List Token
  | [] => []
  | t :: ts =>
    if t.kind = .comment then headFrom brackets angles previous ts
    else if brackets = 0 && (t.spelling = "\x7b" || t.spelling = ";") then []
    else
      let brackets' := t.bracketsAfter brackets
      let angles' := t.anglesAfter angles previous
      let rest := headFrom brackets' angles' (some t.spelling) ts
      -- within parameters a keyword such as `struct` is part of a type
      if brackets' = 0 && angles' = 0 && silentKeywords.contains t.spelling then rest
      else t :: rest

/-- The tokens of a declaration's signature. -/
def headTokens (ts : List Token) : List Token :=
  headFrom 0 0 none ts

/-- The tokens up to and with the first `)`. -/
def throughParen : List Token → List Token
  | [] => []
  | t :: ts => if t.spelling = ")" then [t] else t :: throughParen ts

/-- The tokens of a macro's signature: its name, and its parameters if it has some. -/
def macroHeadTokens : List Token → List Token
  | [] => []
  | [name] => [name]
  | name :: t :: ts =>
    if t.spelling = "(" && name.touches t then name :: throughParen (t :: ts) else [name]

end DocIndex
