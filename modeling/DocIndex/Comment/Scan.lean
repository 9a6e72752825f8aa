import DocIndex.Comment.Declaration
import DocIndex.Fallible

/-!
# Scanning a file

`SourceUnit.scan` pairs every documentation comment of a file with the declaration that it
documents. A comment goes one of three ways (`Filed`):

* it documents something: its first line spells out a directive, or it is attached to a declaration
  that there is a directive for;
* it floats: nothing follows it, or an empty line does;
* it is dropped, and the log says so.
-/

namespace DocIndex

/-- What can be chosen about scanning. -/
structure ScanOptions where
  /-- An explicit directive belongs to the namespace of the declaration behind it; otherwise it
  belongs to none. -/
  explicitNamespace : Bool
  deriving DecidableEq, Repr, Inhabited

/-- Which way a comment goes. -/
inductive Filed
  | directive (d : DirectiveComment)
  | floating (c : Comment)
  | dropped
  deriving DecidableEq, Repr

/-- A comment that went its way, what was told of it, and what comes behind it. -/
structure FiledComment where
  filed : Filed
  logs : List LogLine
  stream : TokenStream
  deriving Repr

/-- What is told of a comment that is dropped. -/
def dropLog (c : Comment) : LogLine :=
  { level := .error, message := "could not infer directive from " ++ c.location.text }

/-- What is told of a comment whose first line sets out to spell out a directive but does not. -/
def malformedLog (c : Comment) : List LogLine :=
  match c.malformedDirective? with
  | some line =>
    [{ level := .warn
       message := c.location.text ++ ": ignoring malformed explicit directive `" ++ line ++ "`" }]
  | none => []

/-- Which way a comment goes that is attached to a declaration or to none. -/
def fileComment (options : ScanOptions) (moduleName : String) (c : Comment) (floating : Bool)
    (declaration : Option Declaration) : Filed :=
  let kind := declaration.map Declaration.kind
  match c.explicit? with
  | some (explicit, c) =>
    -- the comment says itself what it documents; a declaration lends it the namespace alone
    let namespacePath :=
      match declaration with
      | some d => if options.explicitNamespace then d.namespacePath else ""
      | none => ""
    .directive
      { context := { directive := explicit.directive, namespacePath, moduleName }
        signature := explicit.argument
        comment := { c with kind } }
  | none =>
    match declaration with
    | some d =>
      match d.category.directive? with
      | some directive =>
        .directive
          { context := { directive, namespacePath := d.namespacePath, moduleName }
            signature := d.signature
            comment := { c with kind } }
      | none => .dropped
    -- attached, but another comment or the end of the file comes before any declaration
    | none => if floating then .floating { c with kind } else .dropped

/-- The comment floats: nothing comes behind it, or only after an empty line. -/
def isFloating (c : Comment) (next : Option Token) : Bool :=
  match next with
  | none => true
  | some t => c.nextLine < t.extent.start.line

namespace SourceUnit

variable (u : SourceUnit)

/-- The declaration that a comment is attached to, looked for unless the comment floats. -/
def attach (floating : Bool) (ts : TokenStream) : Except ScanError Attachment :=
  if floating then .ok { declaration := none, stream := ts, logs := [] } else u.nextDeclaration ts

/-- Reads the next comment and files it. -/
def fileNext? (options : ScanOptions) (ts : TokenStream) :
    Except ScanError (Option FiledComment) := do
  match ← nextRun? u.path ts with
  | none => return none
  | some (c, ts) =>
    let (next, ts) ← ts.peek?.mapError ScanError.occupied
    let floating := isFloating c next
    let found ← u.attach floating ts
    let filed := fileComment options (u.moduleName.getD "") c floating found.declaration
    let dropped := if filed = .dropped then [dropLog c] else []
    return some { filed, logs := found.logs ++ malformedLog c ++ dropped, stream := found.stream }

end SourceUnit

/-! ## Each comment takes tokens off the stream -/

theorem length_putBack {t : Token} {ts ts' : TokenStream} (h : putBack t ts = .ok ts') :
    ts'.length = ts.length + 1 :=
  length_pushBack? (Fallible.mapError_eq_ok.1 h)

theorem length_skipThrough {line : Nat} {ts ts' : TokenStream}
    (h : skipThrough line ts = .ok ts') : ts'.length ≤ ts.length := by
  fun_induction skipThrough line ts with
  | case1 ts hn => cases h; exact Nat.le_refl _
  | case2 ts t r hn _ =>
    have := TokenStream.length_next? hn
    have := length_putBack h
    omega
  | case3 ts t r hn _ ih => have := TokenStream.length_next? hn; have := ih h; omega

theorem length_peek? {ts : TokenStream} {r : Option Token × TokenStream}
    (h : ts.peek? = .ok r) : r.2.length = ts.length := by
  unfold TokenStream.peek? at h
  split at h
  · cases h; rfl
  · rename_i t u hn
    obtain ⟨v, hu, rfl⟩ := Fallible.map_eq_ok.1 h
    have h₁ := length_pushBack? hu
    have h₂ := congrArg List.length (TokenStream.toList_next? hn)
    simp only [List.length_cons] at h₂
    simp only [TokenStream.length] at h₁ ⊢
    omega

namespace SourceUnit

variable {u : SourceUnit}

theorem length_findDeclaration {offset : Nat} {ts : TokenStream} {r : Option Token × TokenStream}
    (h : u.findDeclaration offset ts = .ok r) : r.2.length ≤ ts.length := by
  fun_induction findDeclaration u offset ts with
  | case1 ts hn => cases h; exact Nat.le_refl _
  | case2 ts t v hn _ =>
    obtain ⟨w, hp, rfl⟩ := Fallible.map_eq_ok.1 h
    have h₁ := TokenStream.length_next? hn
    have h₂ := length_putBack hp
    simp only
    omega
  | case3 ts t v hn _ _ =>
    cases h
    exact Nat.le_of_lt (TokenStream.length_next? hn)
  | case4 ts t v hn _ _ ih => have := TokenStream.length_next? hn; have := ih h; omega

theorem length_nextDeclaration {ts : TokenStream} {r : Attachment}
    (h : u.nextDeclaration ts = .ok r) : r.stream.length ≤ ts.length := by
  obtain ⟨⟨next, ts₁⟩, hp, h⟩ := Fallible.bind_eq_ok.1 h
  have h₁ := length_peek? (Fallible.mapError_eq_ok.1 hp)
  simp only at h₁ h
  split at h
  · cases h
    exact Nat.le_of_eq h₁
  obtain ⟨⟨found, ts₂⟩, hf, h⟩ := Fallible.bind_eq_ok.1 h
  have h₂ := length_findDeclaration hf
  simp only at h₂ h
  split at h
  · cases h
    simp only
    omega
  obtain ⟨ts₃, hs, h⟩ := Fallible.bind_eq_ok.1 h
  have h₃ := length_skipThrough hs
  cases h
  simp only
  omega

theorem length_attach {floating : Bool} {ts : TokenStream} {r : Attachment}
    (h : u.attach floating ts = .ok r) : r.stream.length ≤ ts.length := by
  unfold attach at h
  split at h
  · cases h; exact Nat.le_refl _
  · exact length_nextDeclaration h

/-- A comment that is filed was read, looked behind, and attached to what was found there. -/
theorem of_fileNext? {options : ScanOptions} {ts : TokenStream} {f : FiledComment}
    (h : u.fileNext? options ts = .ok (some f)) :
    ∃ c ts₁ next ts₂ found, nextRun? u.path ts = .ok (some (c, ts₁)) ∧
      ts₁.peek? = .ok (next, ts₂) ∧ u.attach (isFloating c next) ts₂ = .ok found ∧
        f.filed =
          fileComment options (u.moduleName.getD "") c (isFloating c next) found.declaration ∧
        f.logs = found.logs ++ malformedLog c ++ (if f.filed = .dropped then [dropLog c] else []) ∧
        f.stream = found.stream := by
  obtain ⟨r, hr, h⟩ := Fallible.bind_eq_ok.1 h
  cases r with
  | none => cases h
  | some r =>
    obtain ⟨c, ts₁⟩ := r
    obtain ⟨⟨next, ts₂⟩, hp, h⟩ := Fallible.bind_eq_ok.1 h
    obtain ⟨found, ha, h⟩ := Fallible.bind_eq_ok.1 h
    cases h
    exact ⟨c, ts₁, next, ts₂, found, hr, Fallible.mapError_eq_ok.1 hp, ha, rfl, rfl, rfl⟩

/-- Filing a comment takes at least its first line off the stream. -/
theorem length_fileNext? {options : ScanOptions} {ts : TokenStream} {f : FiledComment}
    (h : u.fileNext? options ts = .ok (some f)) : f.stream.length < ts.length := by
  obtain ⟨c, ts₁, next, ts₂, found, hr, hp, ha, -, -, hstream⟩ := of_fileNext? h
  have h₁ := length_nextRun? hr
  have h₂ := length_peek? hp
  have h₃ := length_attach ha
  rw [hstream]
  simp only at h₁ h₂ h₃
  omega

end SourceUnit

/-! ## The whole file -/

/-- The comments filed so far, and what was told of them. -/
structure ScanState where
  directiveComments : List DirectiveComment
  floatingComments : List Comment
  logs : List LogLine
  deriving Repr

/-- The state with one more comment filed. -/
def ScanState.add (st : ScanState) (f : FiledComment) : ScanState :=
  let logs := st.logs ++ f.logs
  match f.filed with
  | .directive d => { st with directiveComments := st.directiveComments ++ [d], logs }
  | .floating c => { st with floatingComments := st.floatingComments ++ [c], logs }
  | .dropped => { st with logs }

/-- What the scan of a file leads to, and what was told on the way. -/
structure Scan where
  result : Except ScanError FileComments
  logs : List LogLine

namespace SourceUnit

variable (u : SourceUnit)

/-- Files the comments to come; the second part tells why it stopped early. -/
def scanFrom (options : ScanOptions) (st : ScanState) (ts : TokenStream) :
    ScanState × Option ScanError :=
  match _h : u.fileNext? options ts with
  | .error e => (st, some e)
  | .ok none => (st, none)
  | .ok (some f) => scanFrom options (st.add f) f.stream
termination_by ts.length
decreasing_by exact length_fileNext? ‹_›

/-- What the scan starts from: the diagnostics are told as warnings. -/
def scanStart : ScanState :=
  { directiveComments := []
    floatingComments := []
    logs := u.diagnostics.map fun d => { level := .warn, message := d } }

/-- Pairs every documentation comment with the declaration that it documents. -/
def scan (modified : Timestamp) (options : ScanOptions) : Scan :=
  match u.scanFrom options u.scanStart (.ofList u.tokens.toList) with
  | (st, some e) => { result := .error e, logs := st.logs }
  | (st, none) =>
    let summary : LogLine :=
      { level := .debug
        message :=
          "scanned " ++ u.path.text ++ ": " ++ toString st.directiveComments.length ++
            " directive comments, " ++ toString st.floatingComments.length ++ " floating" }
    { result :=
        .ok
          { moduleName := u.moduleName.getD ""
            directiveComments := st.directiveComments
            floatingComments := st.floatingComments
            diagnostics := u.diagnostics
            modified }
      logs := st.logs ++ [summary] }

end SourceUnit

end DocIndex
