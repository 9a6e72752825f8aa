import DocIndex.Source.Basic

/-!
# Marks

The few spellings that decide how far a declaration reaches and what it declares. Everything else
is `Mark.other`.
-/

namespace DocIndex

/-- A spelling that decides something inside of a declaration. -/
inductive Mark
  | semicolon
  | comma
  | colon
  | equals
  | less
  | greater
  | shiftRight
  | openParen
  | openBracket
  | openBrace
  | closeBrace
  | operatorWord
  | staticWord
  | other
  deriving DecidableEq, Repr

/-- What a spelling decides. -/
def Mark.of (word : String) : Mark :=
  match word with
  | ";" => .semicolon
  | "," => .comma
  | ":" => .colon
  | "=" => .equals
  | "<" => .less
  | ">" => .greater
  | ">>" => .shiftRight
  | "(" => .openParen
  | "[" => .openBracket
  | "\x7b" => .openBrace
  | "\x7d" => .closeBrace
  | "operator" => .operatorWord
  | "static" => .staticWord
  | _ => .other

/-- What a lexeme decides. -/
def Source.mark (s : Source) (i : Nat) : Mark :=
  Mark.of (s.spelling i)

end DocIndex
