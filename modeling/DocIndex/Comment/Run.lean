import DocIndex.Comment.Basic
import DocIndex.Comment.Stream

/-!
# Runs of documentation lines

`nextRun?` takes the next run of documentation lines off a stream. A run ends in front of the
first token that is no comment, and in front of a comment that starts more than one line below the
one before it; plain line comments within a run are passed over, block comments are refused.
-/

namespace DocIndex

/-- Why the reading of a file stops. -/
inductive ScanError
  /-- A block comment stands within a run of documentation lines. -/
  | interleaved (location : Location)
  /-- A token was put back while another one was. -/
  | occupied (pending : Token)
  deriving DecidableEq, Repr

set_option linter.unusedVariables false in
/-- The next documentation token, and what comes behind it. -/
def nextDocumentation? (ts : TokenStream) : Option (Token × TokenStream) :=
  match h : ts.next? with
  | none => none
  | some (t, ts') => if t.isDocLine then some (t, ts') else nextDocumentation? ts'
termination_by ts.length
decreasing_by exact TokenStream.length_next? h

/-- The token is a comment between `/*` and its end. -/
def Token.isBlock (t : Token) : Bool :=
  ['/', '*'].isPrefixOf t.spelling.toList

/-- Puts a token back into the stream that a comment was read from. -/
def endRun (c : Comment) (t : Token) (ts : TokenStream) :
    Except ScanError (Comment × TokenStream) :=
  match ts.pushBack? t with
  | .ok ts' => .ok (c, ts')
  | .error u => .error (.occupied u)

set_option linter.unusedVariables false in
/-- Reads on in a run of which `c` has been read. -/
def readRun (c : Comment) (ts : TokenStream) : Except ScanError (Comment × TokenStream) :=
  match h : ts.next? with
  | none => .ok (c, ts)
  | some (t, ts') =>
    -- code ends the run, and so does a comment behind an empty line
    if t.kind ≠ .comment || c.nextLine < t.extent.start.line then endRun c t ts'
    else if t.isDocLine then
      readRun { c with text := c.text ++ [t.spelling], nextLine := t.extent.stop.line + 1 } ts'
    else if t.isBlock then .error (.interleaved ⟨c.file, t.extent.start.line⟩)
    -- a plain line comment adds no text, but the run goes on below it
    else readRun { c with nextLine := t.extent.stop.line + 1 } ts'
termination_by ts.length
decreasing_by all_goals exact TokenStream.length_next? h

/-- Reads the next run of documentation lines of a file. -/
def nextRun? (file : Path) (ts : TokenStream) :
    Except ScanError (Option (Comment × TokenStream)) :=
  match nextDocumentation? ts with
  | none => .ok none
  | some (t, ts') =>
    let c : Comment :=
      { file, nextLine := t.extent.stop.line + 1, text := [t.spelling], kind := none }
    (readRun c ts').map some

theorem length_nextDocumentation? {ts ts' : TokenStream} {t : Token}
    (h : nextDocumentation? ts = some (t, ts')) : ts'.length < ts.length := by
  fun_induction nextDocumentation? ts with
  | case1 => simp at h
  | case2 ts u ts'' hn _ =>
    simp only [Option.some.injEq, Prod.mk.injEq] at h
    obtain ⟨-, rfl⟩ := h
    exact TokenStream.length_next? hn
  | case3 ts u ts'' hn _ ih => exact Nat.lt_trans (ih h) (TokenStream.length_next? hn)

theorem length_pushBack? {ts ts' : TokenStream} {t : Token} (h : ts.pushBack? t = .ok ts') :
    ts'.length = ts.length + 1 := by
  obtain ⟨pending, rest⟩ := ts
  cases pending with
  | some u => simp [TokenStream.pushBack?] at h
  | none =>
    simp only [TokenStream.pushBack?, Except.ok.injEq] at h
    subst h
    simp [TokenStream.length, TokenStream.toList]

theorem length_endRun {c c' : Comment} {t : Token} {ts ts' : TokenStream}
    (h : endRun c t ts = .ok (c', ts')) : ts'.length = ts.length + 1 := by
  unfold endRun at h
  split at h
  · rename_i u hu
    simp only [Except.ok.injEq, Prod.mk.injEq] at h
    obtain ⟨-, rfl⟩ := h
    exact length_pushBack? hu
  · simp at h

theorem length_readRun {c c' : Comment} {ts ts' : TokenStream}
    (h : readRun c ts = .ok (c', ts')) : ts'.length ≤ ts.length := by
  fun_induction readRun c ts with
  | case1 c ts _ =>
    simp only [Except.ok.injEq, Prod.mk.injEq] at h
    obtain ⟨-, rfl⟩ := h
    exact Nat.le_refl _
  | case2 c ts t ts'' hn _ =>
    have := TokenStream.length_next? hn
    have := length_endRun h
    omega
  | case3 c ts t ts'' hn _ _ ih => have := TokenStream.length_next? hn; have := ih h; omega
  | case4 => simp at h
  | case5 c ts t ts'' hn _ _ _ ih => have := TokenStream.length_next? hn; have := ih h; omega

/-- A comment takes at least its first line off the stream. -/
theorem length_nextRun? {file : Path} {c : Comment} {ts ts' : TokenStream}
    (h : nextRun? file ts = .ok (some (c, ts'))) : ts'.length < ts.length := by
  unfold nextRun? at h
  split at h
  · simp at h
  · rename_i t u hd
    have h₁ := length_nextDocumentation? hd
    cases hr : readRun
        { file, nextLine := t.extent.stop.line + 1, text := [t.spelling], kind := none } u with
    | error e => simp [hr, Except.map] at h
    | ok r =>
      simp only [hr, Except.map, Except.ok.injEq, Option.some.injEq] at h
      subst h
      have := length_readRun hr
      omega

end DocIndex
