/-!
# Lexemes

The pieces that a C or C++ text is cut into. Comments are lexemes like any other: they are read
in order with the code that they document.
-/

namespace DocIndex

/-- The classes of lexemes. -/
inductive LexemeKind
  | comment
  | identifier
  | keyword
  | literal
  | punctuation
  deriving DecidableEq, Repr, Inhabited

/-- One piece of source text, from offset `start` on. -/
structure Lexeme where
  kind : LexemeKind
  spelling : String
  start : Nat
  /-- The text between the lexeme before this one and this one. -/
  gap : String
  deriving DecidableEq, Repr, Inhabited

namespace Lexeme

/-- The offset just past the last byte. -/
def stop (t : Lexeme) : Nat :=
  t.start + t.spelling.utf8ByteSize

/-- The lexeme is a comment, documentation or not. -/
def isComment (t : Lexeme) : Bool :=
  t.kind == .comment

end Lexeme

/-- The words that no declaration can be named by. -/
def keywords : List String :=
  ["alignas", "alignof", "asm", "auto", "bool", "break", "case", "catch", "char", "char8_t",
    "char16_t", "char32_t", "class", "co_await", "co_return", "co_yield", "concept", "const",
    "consteval", "constexpr", "constinit", "const_cast", "continue", "decltype", "default",
    "delete", "do", "double", "dynamic_cast", "else", "enum", "explicit", "export", "extern",
    "false", "float", "for", "friend", "goto", "if", "import", "inline", "int", "long", "module",
    "mutable", "namespace", "new", "noexcept", "nullptr", "operator", "private", "protected",
    "public", "register", "reinterpret_cast", "requires", "return", "short", "signed", "sizeof",
    "static", "static_assert", "static_cast", "struct", "switch", "template", "this",
    "thread_local", "throw", "true", "try", "typedef", "typeid", "typename", "union", "unsigned",
    "using", "virtual", "void", "volatile", "wchar_t", "while"]

/-- The word is a keyword. -/
def isKeyword (word : String) : Bool :=
  keywords.contains word

end DocIndex
