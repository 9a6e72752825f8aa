import DocIndex.Comment.Scan

/-!
# What is read off a stream

What the readers of comments make of a stream is told by the tokens that are still to come, whether
or not one of them has been put back.

* `nextRun?_eq` — a run of documentation lines in front of a declaration.
* `fileNext?_eq` — a run is filed under the declaration whose first line follows.
-/

namespace DocIndex

namespace TokenStream

variable {ts : TokenStream} {t : Token} {rest : List Token}

theorem next?_eq (h : ts.toList = t :: rest) :
    ∃ ts', ts.next? = some (t, ts') ∧ ts'.toList = rest ∧ ts'.pending = none := by
  obtain ⟨pending, after⟩ := ts
  cases pending with
  | some v =>
    cases h
    exact ⟨_, rfl, rfl, rfl⟩
  | none =>
    cases after with
    | nil => cases h
    | cons v after =>
      cases h
      exact ⟨_, rfl, rfl, rfl⟩

theorem next?_nil (h : ts.toList = []) : ts.next? = none := by
  obtain ⟨pending, after⟩ := ts
  cases pending with
  | some v => cases h
  | none =>
    cases after with
    | nil => rfl
    | cons v after => cases h

theorem pushBack?_eq (h : ts.pending = none) (t : Token) :
    ∃ ts', ts.pushBack? t = .ok ts' ∧ ts'.toList = t :: ts.toList := by
  obtain ⟨pending, after⟩ := ts
  cases h
  exact ⟨_, rfl, rfl⟩

theorem peek?_eq (h : ts.toList = t :: rest) :
    ∃ ts', ts.peek? = .ok (some t, ts') ∧ ts'.toList = t :: rest := by
  obtain ⟨ts₁, hn, hrest, hpending⟩ := next?_eq h
  obtain ⟨ts₂, hp, hback⟩ := pushBack?_eq hpending t
  refine ⟨ts₂, ?_, by rw [hback, hrest]⟩
  rw [peek?, hn]
  simp only [hp]
  rfl

end TokenStream

open TokenStream

variable {ts : TokenStream} {t : Token} {rest skipped : List Token} {c : Comment}

/-! ## Runs -/

theorem nextDocumentation?_eq (hskipped : ∀ v ∈ skipped, v.isDocLine = false)
    (ht : t.isDocLine = true) (h : ts.toList = skipped ++ t :: rest) :
    ∃ ts', nextDocumentation? ts = some (t, ts') ∧ ts'.toList = rest := by
  induction skipped generalizing ts with
  | nil =>
    obtain ⟨ts', hn, hrest, -⟩ := next?_eq h
    refine ⟨ts', ?_, hrest⟩
    rw [nextDocumentation?]
    split
    · simp_all
    · rename_i v ts'' hn'
      cases hn.symm.trans hn'
      rw [if_pos ht]
  | cons v skipped ih =>
    obtain ⟨ts', hn, hrest, -⟩ := next?_eq h
    obtain ⟨ts'', hd, hrest'⟩ := ih (fun w hw => hskipped w (List.mem_cons_of_mem _ hw)) hrest
    refine ⟨ts'', ?_, hrest'⟩
    rw [nextDocumentation?]
    split
    · simp_all
    · rename_i w ts₃ hn'
      cases hn.symm.trans hn'
      rw [if_neg (by rw [hskipped v List.mem_cons_self]; decide), hd]

theorem nextDocumentation?_none (h : ∀ v ∈ ts.toList, v.isDocLine = false) :
    nextDocumentation? ts = none := by
  fun_induction nextDocumentation? ts with
  | case1 => rfl
  | case2 ts t ts' hn ht =>
    rw [toList_next? hn] at h
    rw [h t List.mem_cons_self] at ht
    cases ht
  | case3 ts t ts' hn ht ih =>
    rw [toList_next? hn] at h
    exact ih fun v hv => h v (List.mem_cons_of_mem _ hv)

/-- Documentation lines that follow one another from some line on. -/
def Consecutive : Nat → List Token → Prop
  | _, [] => True
  | line, t :: ts =>
    t.isDocLine = true ∧ t.extent.start.line = line ∧ t.extent.stop.line = line ∧
      Consecutive (line + 1) ts

theorem kind_of_isDocLine (h : t.isDocLine = true) : t.kind = .comment := by
  simp only [Token.isDocLine, Bool.and_eq_true, beq_iff_eq] at h
  exact h.1

/-- A run goes on through the lines that follow, and ends in front of code. -/
theorem readRun_eq {docs : List Token} (hdocs : Consecutive c.nextLine docs)
    (ht : t.kind ≠ .comment) (h : ts.toList = docs ++ t :: rest) :
    ∃ ts', readRun c ts =
        .ok ({ c with
                text := c.text ++ docs.map Token.spelling
                nextLine := c.nextLine + docs.length }, ts') ∧
      ts'.toList = t :: rest := by
  induction docs generalizing c ts with
  | nil =>
    obtain ⟨ts₁, hn, hrest, hpending⟩ := next?_eq h
    obtain ⟨ts₂, hp, hback⟩ := pushBack?_eq hpending t
    refine ⟨ts₂, ?_, by rw [hback, hrest]⟩
    rw [readRun]
    split
    · simp_all
    · rename_i v ts₃ hn'
      cases hn.symm.trans hn'
      rw [if_pos (by simp [ht]), endRun, hp]
      simp
  | cons d docs ih =>
    obtain ⟨hdoc, hstart, hstop, hnext⟩ := hdocs
    obtain ⟨ts₁, hn, hrest, -⟩ := next?_eq h
    let c₁ : Comment :=
      { c with text := c.text ++ [d.spelling], nextLine := d.extent.stop.line + 1 }
    have hc₁ : Consecutive c₁.nextLine docs := by
      simp only [c₁, hstop]
      exact hnext
    obtain ⟨ts₂, hr, hrest'⟩ := ih hc₁ hrest
    refine ⟨ts₂, ?_, hrest'⟩
    rw [readRun]
    split
    · simp_all
    · rename_i v ts₃ hn'
      cases hn.symm.trans hn'
      rw [if_neg (by simp [kind_of_isDocLine hdoc, hstart]), if_pos hdoc, hr]
      simp [c₁, hstop, Nat.add_comm, Nat.add_left_comm]

/-- **A run of documentation lines in front of code**, behind tokens that do not document. -/
theorem nextRun?_eq (file : Path) {line : Nat} {docs : List Token}
    (hskipped : ∀ v ∈ skipped, v.isDocLine = false) (hne : docs ≠ [])
    (hdocs : Consecutive line docs) (ht : t.kind ≠ .comment)
    (h : ts.toList = skipped ++ (docs ++ t :: rest)) :
    ∃ ts', nextRun? file ts =
        .ok (some ({ file, nextLine := line + docs.length, text := docs.map Token.spelling,
                     kind := none }, ts')) ∧
      ts'.toList = t :: rest := by
  obtain ⟨d, docs, rfl⟩ := List.exists_cons_of_ne_nil hne
  obtain ⟨hdoc, -, hstop, hnext⟩ := hdocs
  obtain ⟨ts₁, hn, hrest⟩ := nextDocumentation?_eq hskipped hdoc h
  let c : Comment :=
    { file, nextLine := d.extent.stop.line + 1, text := [d.spelling], kind := none }
  have hc : Consecutive c.nextLine docs := by
    simp only [c, hstop]
    exact hnext
  obtain ⟨ts₂, hr, hrest'⟩ := readRun_eq hc ht hrest
  refine ⟨ts₂, ?_, hrest'⟩
  rw [nextRun?, hn]
  simp only
  rw [hr]
  simp [c, hstop, Except.map, Nat.add_comm, Nat.add_left_comm]

/-! ## Declarations -/

/-- The rest of a line is taken. -/
theorem skipThrough_eq {line : Nat} {same : List Token}
    (hsame : ∀ v ∈ same, v.extent.stop.line ≤ line)
    (hrest : ∀ v ∈ rest.head?, line < v.extent.stop.line) (h : ts.toList = same ++ rest) :
    ∃ ts', skipThrough line ts = .ok ts' ∧ ts'.toList = rest := by
  induction same generalizing ts with
  | nil =>
    cases rest with
    | nil =>
      refine ⟨ts, ?_, h⟩
      rw [skipThrough]
      split
      · rfl
      · rename_i hn
        rw [next?_nil h] at hn
        cases hn
    | cons t rest =>
      obtain ⟨ts₁, hn, hafter, hpending⟩ := next?_eq h
      obtain ⟨ts₂, hp, hback⟩ := pushBack?_eq hpending t
      refine ⟨ts₂, ?_, by rw [hback, hafter]⟩
      rw [skipThrough]
      split
      · simp_all
      · rename_i v ts₃ hn'
        cases hn.symm.trans hn'
        rw [if_pos (hrest t rfl), putBack, hp]
        rfl
  | cons v same ih =>
    obtain ⟨ts₁, hn, hafter, -⟩ := next?_eq h
    obtain ⟨ts₂, hs, hrest'⟩ := ih (fun w hw => hsame w (List.mem_cons_of_mem _ hw)) hafter
    refine ⟨ts₂, ?_, hrest'⟩
    rw [skipThrough]
    split
    · simp_all
    · rename_i w ts₃ hn'
      cases hn.symm.trans hn'
      rw [if_neg (Nat.not_lt.2 (hsame v List.mem_cons_self)), hs]

/-- What there is a directive for can be documented. -/
theorem canBeDocumented_of_directive {kind : CursorKind} {directive : Directive}
    (h : (Category.ofKind kind).directive? = some directive) : kind.canBeDocumented = true := by
  cases kind <;> first | rfl | cases h

namespace SourceUnit

variable {u : SourceUnit}

/-- A declaration that a directive is for begins with `t`, and the lines of its signature end on the
line `line`, as `same` does. -/
structure Begins (u : SourceUnit) (t : Token) (same : List Token) (line : Nat)
    (directive : Directive) : Prop where
  code : t.kind ≠ .comment
  start : t.extent.start.offset ≤ (u.cursor t.cursor).extent.start.offset
  directive : (Category.ofKind (u.cursor t.cursor).kind).directive? = some directive
  last : ((u.keptTokens t.cursor).getLastD t).extent.stop.line = line
  line : ∀ v ∈ same, v.extent.stop.line ≤ line

theorem nextDeclaration_eq {same : List Token} {line : Nat} {directive : Directive}
    (hb : u.Begins t same line directive) (hrest : ∀ v ∈ rest.head?, line < v.extent.stop.line)
    (h : ts.toList = t :: (same ++ rest)) :
    ∃ ts', u.nextDeclaration ts =
        .ok { declaration := some (u.declaration t.cursor), stream := ts', logs := [] } ∧
      ts'.toList = rest := by
  obtain ⟨ts₁, hp, hpeek⟩ := peek?_eq h
  obtain ⟨ts₂, hn, hafter, -⟩ := next?_eq hpeek
  obtain ⟨ts₃, hs, hrest'⟩ := skipThrough_eq hb.line hrest hafter
  have hdoc : t.isDocLine = false := by simp [Token.isDocLine, hb.code]
  have hfound : u.findDeclaration t.extent.start.offset ts₁ = .ok (some t, ts₂) := by
    rw [findDeclaration]
    split
    · simp_all
    · rename_i v ts₄ hn'
      cases hn.symm.trans hn'
      rw [if_neg (by rw [hdoc]; decide), if_pos]
      simp [hb.start, canBeDocumented_of_directive hb.directive]
  have hlog : u.unsupportedLog t = [] := by
    have hsupported : Category.ofKind (u.cursor t.cursor).kind ≠ .unsupported := by
      intro hc
      have hd := hb.directive
      rw [hc] at hd
      cases hd
    simp only [unsupportedLog, if_neg hsupported]
  refine ⟨ts₃, ?_, hrest'⟩
  refine Fallible.bind_eq_ok.2 ⟨_, Fallible.mapError_eq_ok.2 hp, ?_⟩
  refine Fallible.bind_eq_ok.2 ⟨_, hfound, ?_⟩
  simp only
  rw [hb.last]
  refine Fallible.bind_eq_ok.2 ⟨_, hs, ?_⟩
  rw [hlog]
  rfl

/-- What is filed for a run of lines in front of a declaration. -/
def entry (u : SourceUnit) (docs : List Token) (nextLine : Nat) (directive : Directive)
    (id : CursorId) : DirectiveComment :=
  { context :=
      { directive, namespacePath := u.scopePath id, moduleName := u.moduleName.getD "" }
    signature := u.signature id
    comment :=
      { file := u.path, nextLine, text := docs.map Token.spelling
        kind := some (u.cursor id).kind } }

/-- **A run of lines that spells out no directive is filed under the declaration behind it.** -/
theorem fileNext?_eq (options : ScanOptions) {docs same : List Token} {line : Nat}
    {directive : Directive} (hskipped : ∀ v ∈ skipped, v.isDocLine = false) (hne : docs ≠ [])
    (hdocs : Consecutive line docs)
    (hplain : ∀ d ∈ docs, Comment.announcesDirective d.spelling = false)
    (ht : t.extent.start.line = line + docs.length)
    (hb : u.Begins t same (line + docs.length) directive)
    (hrest : ∀ v ∈ rest.head?, line + docs.length < v.extent.stop.line)
    (h : ts.toList = skipped ++ (docs ++ t :: (same ++ rest))) :
    ∃ ts', u.fileNext? options ts =
        .ok (some
          { filed := .directive (u.entry docs (line + docs.length) directive t.cursor)
            logs := []
            stream := ts' }) ∧
      ts'.toList = rest := by
  obtain ⟨ts₁, hr, hrest₁⟩ := nextRun?_eq u.path hskipped hne hdocs hb.code h
  obtain ⟨ts₂, hp, hrest₂⟩ := peek?_eq hrest₁
  obtain ⟨ts₃, hd, hrest₃⟩ := nextDeclaration_eq hb hrest hrest₂
  obtain ⟨d, docs', rfl⟩ := List.exists_cons_of_ne_nil hne
  have hfirst := hplain d List.mem_cons_self
  refine ⟨ts₃, ?_, hrest₃⟩
  refine Fallible.bind_eq_ok.2 ⟨_, hr, ?_⟩
  refine Fallible.bind_eq_ok.2 ⟨_, Fallible.mapError_eq_ok.2 hp, ?_⟩
  have hattach : u.attach false ts₂ = .ok
      { declaration := some (u.declaration t.cursor), stream := ts₃, logs := [] } := hd
  have hfloating : ∀ c : Comment, c.nextLine = line + (d :: docs').length →
      isFloating c (some t) = false := by
    intro c hc
    simp [isFloating, hc, ht]
  simp only
  rw [hfloating _ rfl]
  refine Fallible.bind_eq_ok.2 ⟨_, hattach, ?_⟩
  simp [fileComment, Comment.explicit?, Comment.directiveOfLine?, hfirst, malformedLog,
    Comment.malformedDirective?, declaration, hb.directive, entry]
  rfl

/-- A file is scanned comment by comment. -/
theorem scanFrom_some {options : ScanOptions} {st : ScanState} {d : DirectiveComment}
    {ts' : TokenStream}
    (h : u.fileNext? options ts = .ok (some { filed := .directive d, logs := [], stream := ts' })) :
    u.scanFrom options st ts =
      u.scanFrom options { st with directiveComments := st.directiveComments ++ [d] } ts' := by
  rw [scanFrom]
  split
  · simp_all
  · simp_all
  · rename_i f hf
    cases h.symm.trans hf
    simp [ScanState.add]

/-- Where no documentation is left, the scan is over. -/
theorem scanFrom_none {options : ScanOptions} {st : ScanState}
    (h : ∀ v ∈ ts.toList, v.isDocLine = false) : u.scanFrom options st ts = (st, none) := by
  have hnone : u.fileNext? options ts = .ok none := by
    refine Fallible.bind_eq_ok.2 ⟨none, ?_, rfl⟩
    rw [nextRun?, nextDocumentation?_none h]
  rw [scanFrom]
  split
  · simp_all
  · rfl
  · simp_all

end SourceUnit

end DocIndex
