import DocIndex.Comment.Run
import DocIndex.Comment.Signature
import DocIndex.Log

/-!
# The declaration that a comment documents

`nextDeclaration` looks for the first declaration that starts no earlier than the next token, names
it, and takes the stream to the line behind its signature. It finds none where another documentation
comment comes first, which is then the next token.
-/

namespace DocIndex

/-- A declaration, as it is documented. -/
structure Declaration where
  category : Category
  signature : String
  /-- The scopes around, joined by `::`. -/
  namespacePath : String
  kind : CursorKind
  deriving DecidableEq, Repr

/-- What looking for a declaration leads to: the declaration, if there is one, what comes behind it,
and what is told of it. -/
structure Attachment where
  declaration : Option Declaration
  stream : TokenStream
  logs : List LogLine
  deriving Repr

/-- Puts a token back. -/
def putBack (t : Token) (ts : TokenStream) : Except ScanError TokenStream :=
  (ts.pushBack? t).mapError ScanError.occupied

/-- Takes the tokens that end on or before a line. -/
def skipThrough (line : Nat) (ts : TokenStream) : Except ScanError TokenStream :=
  match _h : ts.next? with
  | none => .ok ts
  | some (t, ts') => if line < t.extent.stop.line then putBack t ts' else skipThrough line ts'
termination_by ts.length
decreasing_by exact TokenStream.length_next? ‹_›

namespace SourceUnit

variable (u : SourceUnit)

/-- Takes tokens up to the first one whose cursor can be documented and starts no earlier than
`offset`. A documentation comment on the way is put back instead. -/
def findDeclaration (offset : Nat) (ts : TokenStream) :
    Except ScanError (Option Token × TokenStream) :=
  match _h : ts.next? with
  | none => .ok (none, ts)
  | some (t, ts') =>
    if t.isDocLine then (putBack t ts').map fun ts'' => (none, ts'')
    else
      -- a token may belong to a declaration around, such as a return type that names its class
      if offset ≤ (u.cursor t.cursor).extent.start.offset &&
          (u.cursor t.cursor).kind.canBeDocumented then
        .ok (some t, ts')
      else findDeclaration offset ts'
termination_by ts.length
decreasing_by exact TokenStream.length_next? ‹_›

/-- The tokens of the signature of a cursor. -/
def keptTokens (id : CursorId) : List Token :=
  if (u.cursor id).kind = .macroDefinition then macroHeadTokens (u.tokensOf id)
  else headTokens (u.tokensOf id)

/-- The signature of a cursor: its kept tokens, or its spelling if there are none. -/
def signature (id : CursorId) : String :=
  if (u.keptTokens id).isEmpty then (u.cursor id).spelling else textOfTokens (u.keptTokens id)

/-- The declaration that a cursor stands for. -/
def declaration (id : CursorId) : Declaration :=
  { category := Category.ofKind (u.cursor id).kind
    signature := u.signature id
    namespacePath := u.scopePath id
    kind := (u.cursor id).kind }

/-- What is told of a cursor that no directive is for. -/
def unsupportedLog (first : Token) : List LogLine :=
  let kind := (u.cursor first.cursor).kind
  if Category.ofKind kind = .unsupported then
    [{ level := .error
       message :=
         (Location.mk u.path first.extent.start.line).text ++ ": no directive for " ++ kind.name ++
           " declarations" }]
  else []

/-- Looks for the first declaration from the next token on. -/
def nextDeclaration (ts : TokenStream) : Except ScanError Attachment := do
  let (peeked, ts) ← ts.peek?.mapError ScanError.occupied
  match peeked with
  | none => return { declaration := none, stream := ts, logs := [] }
  | some next =>
    let (found, ts) ← u.findDeclaration next.extent.start.offset ts
    match found with
    | none => return { declaration := none, stream := ts, logs := [] }
    | some first =>
      let last := (u.keptTokens first.cursor).getLastD first
      let ts ← skipThrough last.extent.stop.line ts
      return { declaration := some (u.declaration first.cursor), stream := ts,
               logs := u.unsupportedLog first }

end SourceUnit

end DocIndex
