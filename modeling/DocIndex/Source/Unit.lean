import DocIndex.Path
import DocIndex.Source.Cursor
import DocIndex.Source.Lexeme

/-!
# Source units

A file as the reader of comments sees it: all of its tokens, comments included, each with the
cursor that owns it, and the cursors themselves.

* `Token` — a lexeme with its places and its owner.
* `SourceUnit.tokensOf` — the tokens that start within a cursor's extent.
* `SourceUnit.scopes` — the scopes around a cursor, from the inside out.
-/

namespace DocIndex

/-- A lexeme with its places, and the cursor that it belongs to. -/
structure Token where
  spelling : String
  kind : LexemeKind
  extent : Extent
  cursor : CursorId
  deriving DecidableEq, Repr, Inhabited

namespace Token

/-- `t` starts exactly where `s` ends. -/
def touches (s t : Token) : Bool :=
  s.extent.stop.offset == t.extent.start.offset

/-- The token is a comment that documents: it starts with three slashes. -/
def isDocLine (t : Token) : Bool :=
  t.kind == .comment && "///".toList.isPrefixOf t.spelling.toList

end Token

/-- One file, read. The first cursor is the file itself. -/
structure SourceUnit where
  path : Path
  tokens : Array Token
  cursors : Array Cursor
  diagnostics : List String
  moduleName : Option String
  deriving Repr, Inhabited

namespace SourceUnit

/-- The cursor with a number; numbers out of range stand for the file itself. -/
def cursor (u : SourceUnit) (id : CursorId) : Cursor :=
  u.cursors.getD id (u.cursors.getD 0 default)

/-- The tokens that start within a cursor's extent: the number of the first, and the number behind
the last. -/
def tokenRange (u : SourceUnit) (id : CursorId) : Nat × Nat :=
  let extent := (u.cursor id).extent
  let first := boundary (fun t => t.extent.start.offset < extent.start.offset) u.tokens
  let last := boundary (fun t => t.extent.start.offset < extent.stop.offset) u.tokens
  (first, max first last)

/-- The tokens that start within a cursor's extent. -/
def tokensOf (u : SourceUnit) (id : CursorId) : List Token :=
  let range := u.tokenRange id
  (u.tokens.extract range.1 range.2).toList

/-- The first `n` of the cursors around `id`, from the inside out, without the file itself. -/
def scopesWithin (u : SourceUnit) : Nat → CursorId → List CursorId
  | 0, _ => []
  | n + 1, id =>
    match (u.cursor id).parent with
    | none => []
    | some p => if p = 0 then [] else p :: u.scopesWithin n p

/-- The cursors around `id`, from the inside out, without the file itself. No cursor occurs twice
on the way out, so there are no more of them than cursors. -/
def scopes (u : SourceUnit) (id : CursorId) : List CursorId :=
  u.scopesWithin u.cursors.size id

/-- The names of the scopes around a cursor from the outside in, joined by `::`. Scopes without a
name do not count. -/
def scopePath (u : SourceUnit) (id : CursorId) : String :=
  let names := (u.scopes id).map fun s => (u.cursor s).spelling
  "::".intercalate (names.filter (!·.isEmpty)).reverse

end SourceUnit

end DocIndex
