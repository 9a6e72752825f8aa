import DocIndex.Source.Place

/-!
# Cursors

A cursor is something that a source text declares or holds: a function, a class, a preprocessor
line, the file itself. `CursorKind` lists what there is, with the upper-case names that cursors are
shown and stored by.
-/

namespace DocIndex

/-- What a cursor stands for. -/
inductive CursorKind
  | wholeFile
  | invalidFile
  | unexposedDecl
  | preprocessingDirective
  | macroDefinition
  | macroInstantiation
  | namespaceDecl
  | namespaceAlias
  | namespaceRef
  | templateRef
  | structDecl
  | classDecl
  | unionDecl
  | classTemplate
  | classTemplatePartialSpecialization
  | enumDecl
  | enumConstantDecl
  | fieldDecl
  | functionDecl
  | functionTemplate
  | method
  | constructor
  | destructor
  | conversionFunction
  | varDecl
  | typedefDecl
  | typeAliasDecl
  | typeAliasTemplateDecl
  | conceptDecl
  | usingDeclaration
  | usingDirective
  | friendDecl
  | accessSpecifier
  | staticAssert
  | moduleImportDecl
  deriving DecidableEq, Repr, Inhabited

namespace CursorKind

/-- Every kind. -/
def all : List CursorKind :=
  [wholeFile, invalidFile, unexposedDecl, preprocessingDirective, macroDefinition,
    macroInstantiation, namespaceDecl, namespaceAlias, namespaceRef, templateRef, structDecl,
    classDecl, unionDecl, classTemplate, classTemplatePartialSpecialization, enumDecl,
    enumConstantDecl, fieldDecl, functionDecl, functionTemplate, method, constructor, destructor,
    conversionFunction, varDecl, typedefDecl, typeAliasDecl, typeAliasTemplateDecl, conceptDecl,
    usingDeclaration, usingDirective, friendDecl, accessSpecifier, staticAssert, moduleImportDecl]

/-- The name that a kind is shown and stored by. -/
def name : CursorKind → String
  | wholeFile => "TRANSLATION_UNIT"
  | invalidFile => "INVALID_FILE"
  | unexposedDecl => "UNEXPOSED_DECL"
  | preprocessingDirective => "PREPROCESSING_DIRECTIVE"
  | macroDefinition => "MACRO_DEFINITION"
  | macroInstantiation => "MACRO_INSTANTIATION"
  | namespaceDecl => "NAMESPACE"
  | namespaceAlias => "NAMESPACE_ALIAS"
  | namespaceRef => "NAMESPACE_REF"
  | templateRef => "TEMPLATE_REF"
  | structDecl => "STRUCT_DECL"
  | classDecl => "CLASS_DECL"
  | unionDecl => "UNION_DECL"
  | classTemplate => "CLASS_TEMPLATE"
  | classTemplatePartialSpecialization => "CLASS_TEMPLATE_PARTIAL_SPECIALIZATION"
  | enumDecl => "ENUM_DECL"
  | enumConstantDecl => "ENUM_CONSTANT_DECL"
  | fieldDecl => "FIELD_DECL"
  | functionDecl => "FUNCTION_DECL"
  | functionTemplate => "FUNCTION_TEMPLATE"
  | method => "CXX_METHOD"
  | constructor => "CONSTRUCTOR"
  | destructor => "DESTRUCTOR"
  | conversionFunction => "CONVERSION_FUNCTION"
  | varDecl => "VAR_DECL"
  | typedefDecl => "TYPEDEF_DECL"
  | typeAliasDecl => "TYPE_ALIAS_DECL"
  | typeAliasTemplateDecl => "TYPE_ALIAS_TEMPLATE_DECL"
  | conceptDecl => "CONCEPT_DECL"
  | usingDeclaration => "USING_DECLARATION"
  | usingDirective => "USING_DIRECTIVE"
  | friendDecl => "FRIEND_DECL"
  | accessSpecifier => "CXX_ACCESS_SPEC_DECL"
  | staticAssert => "STATIC_ASSERT"
  | moduleImportDecl => "MODULE_IMPORT_DECL"

/-- The kind with a given name. -/
def ofName? (s : String) : Option CursorKind :=
  all.find? fun k => k.name == s

/-- The kind stands for a declaration, in the widest sense. -/
def isDeclaration : CursorKind → Bool
  | wholeFile | invalidFile | preprocessingDirective | macroDefinition | macroInstantiation
  | namespaceRef | templateRef => false
  | _ => true

/-- The kind is a class, a struct, a union or a template of one. -/
def isRecord : CursorKind → Bool
  | structDecl | classDecl | unionDecl | classTemplate | classTemplatePartialSpecialization => true
  | _ => false

end CursorKind

/-- Cursors are known by their number in the order of creation; the file itself is number 0. -/
abbrev CursorId := Nat

/-- Something that a source text declares or holds. -/
structure Cursor where
  kind : CursorKind
  spelling : String
  extent : Extent
  /-- The scope that the cursor belongs to by meaning, wherever it is written. -/
  parent : Option CursorId
  deriving DecidableEq, Repr, Inhabited

end DocIndex
