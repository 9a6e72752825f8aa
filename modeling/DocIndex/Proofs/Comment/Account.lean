import DocIndex.Proofs.Comment.Taken

/-!
# Every documentation line is accounted for

A scan cuts the tokens of a file into passages, one for each comment that it reads (`Passage`). What
a passage may look like in front of what follows is said by `Passage.Sound`, and which way its
comment goes by `Policy`. No token is in two passages. A documentation line is a line of the comment
of its passage, or it is skipped with the signature of the declaration found for that comment.

* `policy_iff` — the policy is what decides.
* `sound_fileNext?` — one comment makes one passage; `account_scanFrom` is any number of them, and
  `account_scan` those of a file.
* `scan_account` — **what becomes of every documentation line of a file.**
-/

namespace DocIndex

variable {ts : TokenStream} {c : Comment}

/-! ## Which way a comment goes -/

/-- What decides where a comment ends up: a first line that spells out a directive, else the
declaration that it is attached to, else whether it floats. The comment keeps its lines but for that
first one. -/
inductive Policy (options : ScanOptions) (moduleName : String) (c : Comment) (floats : Prop)
    (declaration : Option Declaration) : Filed → Prop
  | explicit {line : String} {lines : List String} {e : ExplicitDirective}
      (htext : c.text = line :: lines) (he : Comment.directiveOfLine? line = some e) :
      Policy options moduleName c floats declaration (.directive
        { context :=
            { directive := e.directive
              namespacePath :=
                if options.explicitNamespace then (declaration.map (·.namespacePath)).getD "" else ""
              moduleName }
          signature := e.argument
          comment := { c with text := lines, kind := declaration.map (·.kind) } })
  | inferred {d : Declaration} {directive : Directive} (hplain : c.explicit? = none)
      (hd : declaration = some d) (hdirective : d.category.directive? = some directive) :
      Policy options moduleName c floats declaration (.directive
        { context := { directive, namespacePath := d.namespacePath, moduleName }
          signature := d.signature
          comment := { c with kind := some d.kind } })
  | floating (hplain : c.explicit? = none) (hd : declaration = none) (hfloats : floats) :
      Policy options moduleName c floats declaration (.floating { c with kind := none })
  | dropped (hplain : c.explicit? = none) (hfloats : ¬floats)
      (hd : ∀ d ∈ declaration, d.category.directive? = none) :
      Policy options moduleName c floats declaration .dropped

/-- A first line that spells out a directive is taken off the comment. -/
theorem fileComment_explicit {options : ScanOptions} {moduleName : String} {floating : Bool}
    {declaration : Option Declaration} {line : String} {lines : List String}
    {e : ExplicitDirective} (htext : c.text = line :: lines)
    (he : Comment.directiveOfLine? line = some e) :
    fileComment options moduleName c floating declaration = .directive
      { context :=
          { directive := e.directive
            namespacePath :=
              if options.explicitNamespace then (declaration.map (·.namespacePath)).getD "" else ""
            moduleName }
        signature := e.argument
        comment := { c with text := lines, kind := declaration.map (·.kind) } } := by
  simp only [fileComment, Comment.explicit?, htext, he, Option.map_some]
  cases declaration <;> cases options.explicitNamespace <;> rfl

/-- **The policy is what decides.** -/
theorem policy_iff {options : ScanOptions} {moduleName : String} {floating : Bool}
    {declaration : Option Declaration} {filed : Filed} (h : floating = true → declaration = none) :
    Policy options moduleName c (floating = true) declaration filed ↔
      fileComment options moduleName c floating declaration = filed := by
  constructor
  · intro hp
    cases hp with
    | explicit htext he => exact fileComment_explicit htext he
    | inferred hplain hd hdirective => simp [fileComment, hplain, hd, hdirective]
    | floating hplain hd hfloats => simp [fileComment, hplain, hd, hfloats]
    | dropped hplain hfloats hd =>
      cases declaration with
      | none => simp [fileComment, hplain, hfloats]
      | some d => simp [fileComment, hplain, hd d rfl]
  · rintro rfl
    cases hexplicit : c.explicit? with
    | some r =>
      obtain ⟨e, c'⟩ := r
      cases htext : c.text with
      | nil => simp [Comment.explicit?, htext] at hexplicit
      | cons line lines =>
        simp only [Comment.explicit?, htext, Option.map_eq_some_iff, Prod.mk.injEq] at hexplicit
        obtain ⟨e', he, rfl, rfl⟩ := hexplicit
        rw [fileComment_explicit htext he]
        exact .explicit htext he
    | none =>
      cases declaration with
      | none =>
        by_cases hf : floating = true
        · have hfile : fileComment options moduleName c floating none =
              .floating { c with kind := none } := by simp [fileComment, hexplicit, hf]
          rw [hfile]
          exact .floating hexplicit rfl hf
        · have hfile : fileComment options moduleName c floating none = .dropped := by
            simp [fileComment, hexplicit, hf]
          rw [hfile]
          exact .dropped hexplicit hf (by simp)
      | some d =>
        have hf : ¬floating = true := fun hf => by cases h hf
        cases hd : d.category.directive? with
        | none =>
          simp only [fileComment, hexplicit, hd]
          exact .dropped hexplicit hf (by simpa using hd)
        | some directive =>
          simp only [fileComment, hexplicit, hd]
          exact .inferred hexplicit rfl hd

/-! ## Passages -/

/-- The tokens that are taken in search of a declaration. -/
structure Search where
  /-- Looked through. -/
  passed : List Token
  /-- The first token of the declaration, and those that are skipped with its signature. -/
  found : Option (Token × List Token)

namespace Search

/-- The tokens that are skipped with the signature of the declaration. -/
def skipped (s : Search) : List Token :=
  (s.found.map Prod.snd).getD []

/-- All tokens. -/
def tokens (s : Search) : List Token :=
  s.passed ++ ((s.found.map Prod.fst).toList ++ s.skipped)

/-- No search. -/
def none : Search :=
  ⟨[], .none⟩

/-- The declaration that was found. -/
def declaration (u : SourceUnit) (s : Search) : Option Declaration :=
  s.found.map fun d => u.declaration d.1.cursor

/-- What is told of it. -/
def logs (u : SourceUnit) (s : Search) : List LogLine :=
  (s.found.map fun d => u.unsupportedLog d.1).getD []

/-- The declaration is the first one from `offset` on, unless a documentation line comes before it
or there is none. The tokens skipped behind its first one are those up to the end of its
signature. -/
structure Sound (u : SourceUnit) (offset : Nat) (s : Search) (after : List Token) : Prop where
  passed : ∀ t ∈ s.passed, t.isDocLine = false ∧ ¬u.StartsAt offset t
  missed : s.found = .none → ∀ t ∈ after.head?, t.isDocLine = true
  first : ∀ t ∈ s.found.map Prod.fst, t.isDocLine = false ∧ u.StartsAt offset t
  skipped : ∀ t ∈ s.found.map Prod.fst, (∀ v ∈ s.skipped, v.extent.stop.line ≤ u.signatureEnd t) ∧
    ∀ v ∈ after.head?, u.signatureEnd t < v.extent.stop.line

end Search

/-- The tokens that the scan takes for one comment, and where the comment ends up. -/
structure Passage where
  /-- Passed over in search of a comment. -/
  before : List Token
  /-- The first line of the comment. -/
  opening : Token
  /-- The other tokens of its run. -/
  more : List Token
  search : Search
  filed : Filed

namespace Passage

/-- The run of the comment. -/
def run (p : Passage) : List Token :=
  p.opening :: p.more

/-- All tokens. -/
def tokens (p : Passage) : List Token :=
  p.before ++ (p.run ++ p.search.tokens)

/-- The comment as it is read. -/
def comment (u : SourceUnit) (p : Passage) : Comment where
  file := u.path
  nextLine := lineBehind (p.opening.extent.stop.line + 1) p.more
  text := (p.run.filter Token.isDocLine).map Token.spelling
  kind := none

/-- Nothing comes behind the comment, or only after an empty line. -/
def Floats (u : SourceUnit) (p : Passage) (after : List Token) : Prop :=
  ∀ t ∈ (p.search.tokens ++ after).head?, (p.comment u).nextLine < t.extent.start.line

/-- What is told of it. If it is dropped, one error says so. -/
def logs (u : SourceUnit) (p : Passage) : List LogLine :=
  p.search.logs u ++ malformedLog (p.comment u) ++
    if p.filed = .dropped then [dropLog (p.comment u)] else []

/-- What a passage is in front of the tokens `after`. No declaration is sought for a comment that
floats. -/
structure Sound (u : SourceUnit) (options : ScanOptions) (p : Passage) (after : List Token) :
    Prop where
  before : ∀ t ∈ p.before, t.isDocLine = false
  opening : p.opening.isDocLine = true
  more : Continues (p.opening.extent.stop.line + 1) p.more
  ends : ∀ t ∈ (p.search.tokens ++ after).head?, EndsRun (p.comment u).nextLine t
  floats : p.Floats u after → p.search = .none
  seeks : ¬p.Floats u after → ∃ next, (p.search.tokens ++ after).head? = some next ∧
    p.search.Sound u next.extent.start.offset after
  filed : Policy options (u.moduleName.getD "") (p.comment u) (p.Floats u after)
    (p.search.declaration u) p.filed

end Passage

namespace SourceUnit

variable {u : SourceUnit} {options : ScanOptions}

/-- What the search for a declaration takes off the stream, and what it leads to. -/
theorem of_nextDeclaration {a : Attachment} (h : u.nextDeclaration ts = .ok a) {next : Token}
    (hnext : ts.toList.head? = some next) :
    ∃ s : Search, ts.toList = s.tokens ++ a.stream.toList ∧ a.declaration = s.declaration u ∧
      a.logs = s.logs u ∧ s.Sound u next.extent.start.offset a.stream.toList := by
  obtain ⟨⟨peeked, ts₁⟩, hp, h⟩ := Fallible.bind_eq_ok.1 h
  obtain ⟨hpeeked, hl₁⟩ := toList_peek? (Fallible.mapError_eq_ok.1 hp)
  rw [hnext] at hpeeked
  subst hpeeked
  obtain ⟨⟨found, ts₂⟩, hf, h⟩ := Fallible.bind_eq_ok.1 h
  obtain ⟨passed, hl₂, hpassed, hfound, hmissed⟩ := of_findDeclaration hf
  cases found with
  | none =>
    cases h
    refine ⟨⟨passed, none⟩, ?_, rfl, rfl, hpassed, fun _ => hmissed rfl, by simp, by simp⟩
    rw [← hl₁, hl₂]
    simp [Search.tokens, Search.skipped]
  | some first =>
    obtain ⟨ts₃, hs, h⟩ := Fallible.bind_eq_ok.1 h
    obtain ⟨tail, hl₃, htail, hafter⟩ := of_skipThrough hs
    cases h
    refine ⟨⟨passed, some (first, tail)⟩, ?_, rfl, rfl, hpassed, nofun, ?_, ?_⟩
    · rw [← hl₁, hl₂, hl₃]
      simp [Search.tokens, Search.skipped]
    · simpa using hfound
    · intro t ht
      cases ht
      exact ⟨htail, hafter⟩

/-- What is behind a comment: nothing that is taken for it, or the search for a declaration. -/
theorem of_attach {c : Comment} {next : Option Token} {a : Attachment}
    (h : u.attach (isFloating c next) ts = .ok a) (hnext : next = ts.toList.head?) :
    ∃ s : Search, ts.toList = s.tokens ++ a.stream.toList ∧
      a.declaration = s.declaration u ∧ a.logs = s.logs u ∧
      (isFloating c next = true → s = .none) ∧
      (isFloating c next = false → ∃ v, ts.toList.head? = some v ∧
        s.Sound u v.extent.start.offset a.stream.toList) := by
  by_cases hfloat : isFloating c next = true
  · rw [attach, if_pos hfloat] at h
    cases h
    exact ⟨.none, rfl, rfl, rfl, fun _ => rfl, by simp [hfloat]⟩
  · rw [attach, if_neg hfloat] at h
    cases hv : ts.toList.head? with
    | none =>
      rw [hv] at hnext
      simp [isFloating, hnext] at hfloat
    | some v =>
      obtain ⟨s, hl, hd, hlogs, hs⟩ := of_nextDeclaration h hv
      exact ⟨s, hl, hd, hlogs, fun h => absurd h hfloat, fun _ => ⟨v, rfl, hs⟩⟩

/-- **One comment makes one passage.** -/
theorem sound_fileNext? {f : FiledComment} (h : u.fileNext? options ts = .ok (some f)) :
    ∃ p : Passage, ts.toList = p.tokens ++ f.stream.toList ∧ p.Sound u options f.stream.toList ∧
      p.filed = f.filed ∧ p.logs u = f.logs := by
  obtain ⟨c, ts₁, next, ts₂, a, hr, hp, ha, hfiled, hlogged, hstream⟩ := of_fileNext? h
  obtain ⟨before, opening, more, hl, hbefore, hopening, hmore, hends, hc⟩ := of_nextRun? hr
  obtain ⟨hnext, hl₂⟩ := toList_peek? hp
  obtain ⟨s, hl₃, hdeclaration, hlogs, hnone, hsome⟩ := of_attach ha (by rw [hnext, hl₂])
  have hbehind : s.tokens ++ a.stream.toList = ts₁.toList := by rw [← hl₃, hl₂]
  let p : Passage := { before, opening, more, search := s, filed := f.filed }
  have hcomment : p.comment u = c := hc.symm
  have hfloats : p.Floats u a.stream.toList ↔ isFloating c next = true := by
    rw [Passage.Floats, hcomment, hbehind, hnext]
    cases ts₁.toList.head? <;> simp [isFloating]
  rw [hstream]
  refine ⟨p, ?_, ⟨hbefore, hopening, hmore, ?_, ?_, ?_, ?_⟩, rfl, ?_⟩
  · rw [hl, ← hl₂, hl₃]
    simp [p, Passage.tokens, Passage.run]
  · rw [hbehind, hcomment, hc]
    exact hends
  · rw [hfloats]
    exact hnone
  · rw [hfloats, hbehind, ← hl₂, Bool.not_eq_true]
    exact hsome
  · rw [hcomment, propext hfloats]
    refine (policy_iff fun hf => ?_).2 (by rw [← hdeclaration]; exact hfiled.symm)
    rw [show p.search = .none from hnone hf]
    rfl
  · rw [Passage.logs, hcomment, hlogged, hlogs]

/-- The end of a scan leaves no documentation behind. -/
theorem of_fileNext?_none (h : u.fileNext? options ts = .ok none) :
    ∀ v ∈ ts.toList, v.isDocLine = false := by
  obtain ⟨r, hr, h⟩ := Fallible.bind_eq_ok.1 h
  cases r with
  | none =>
    unfold nextRun? at hr
    split at hr
    · exact of_nextDocumentation?_none ‹_›
    · obtain ⟨r, -, he⟩ := Fallible.map_eq_ok.1 hr
      cases he
  | some r =>
    obtain ⟨⟨next, ts₁⟩, -, h⟩ := Fallible.bind_eq_ok.1 h
    obtain ⟨a, -, h⟩ := Fallible.bind_eq_ok.1 h
    cases h

end SourceUnit

/-! ## The whole file -/

/-- The comment documents something. -/
def Filed.directive? : Filed → Option DirectiveComment
  | .directive d => some d
  | _ => none

/-- The comment floats. -/
def Filed.floating? : Filed → Option Comment
  | .floating c => some c
  | _ => none

/-- Some tokens are cut into passages, behind which there is no documentation. -/
inductive Account (u : SourceUnit) (options : ScanOptions) : List Token → List Passage → Prop
  | done {tokens : List Token} (h : ∀ t ∈ tokens, t.isDocLine = false) : Account u options tokens []
  | next {p : Passage} {after : List Token} {ps : List Passage} (hp : p.Sound u options after)
      (h : Account u options after ps) : Account u options (p.tokens ++ after) (p :: ps)

/-- The documentation lines of a passage: those of its comment, and those that are skipped with the
signature of the declaration behind it. -/
theorem Passage.Sound.filter_tokens {u : SourceUnit} {options : ScanOptions} {p : Passage}
    {after : List Token} (hp : p.Sound u options after) :
    p.tokens.filter Token.isDocLine =
      p.run.filter Token.isDocLine ++ p.search.skipped.filter Token.isDocLine := by
  have plain {ts : List Token} (h : ∀ t ∈ ts, t.isDocLine = false) :
      ts.filter Token.isDocLine = [] := by
    simpa [List.filter_eq_nil_iff] using h
  have hsearch : p.search.tokens.filter Token.isDocLine =
      p.search.skipped.filter Token.isDocLine := by
    by_cases hf : p.Floats u after
    · rw [hp.floats hf]
      rfl
    · obtain ⟨next, -, hs⟩ := hp.seeks hf
      have hpassed := plain fun t ht => (hs.passed t ht).1
      have hfirst := plain fun t ht => (hs.first t (Option.mem_toList.1 ht)).1
      rw [Search.tokens, List.filter_append, List.filter_append, hpassed, hfirst, List.nil_append,
        List.nil_append]
  rw [Passage.tokens, List.filter_append, List.filter_append, plain hp.before, hsearch,
    List.nil_append]

theorem Account.filter_tokens {u : SourceUnit} {options : ScanOptions} {tokens : List Token}
    {ps : List Passage} (h : Account u options tokens ps) :
    tokens.filter Token.isDocLine = ps.flatMap fun p =>
      p.run.filter Token.isDocLine ++ p.search.skipped.filter Token.isDocLine := by
  induction h with
  | done h => simpa [List.filter_eq_nil_iff] using h
  | next hp _ ih => rw [List.filter_append, hp.filter_tokens, ih, List.flatMap_cons]

namespace SourceUnit

variable {u : SourceUnit} {options : ScanOptions}

/-- **The comments that are left make passages, and each goes where its passage says.** -/
theorem account_scanFrom {st st' : ScanState} (h : u.scanFrom options st ts = (st', none)) :
    ∃ ps, Account u options ts.toList ps ∧
      st'.directiveComments = st.directiveComments ++ ps.filterMap (·.filed.directive?) ∧
      st'.floatingComments = st.floatingComments ++ ps.filterMap (·.filed.floating?) ∧
      st'.logs = st.logs ++ ps.flatMap (·.logs u) := by
  fun_induction scanFrom u options st ts with
  | case1 => cases h
  | case2 st ts hn =>
    cases h
    exact ⟨[], .done (of_fileNext?_none hn), by simp, by simp, by simp⟩
  | case3 st ts f hf ih =>
    obtain ⟨ps, hps, hdirective, hfloating, hlogs⟩ := ih h
    obtain ⟨p, hl, hp, hfiled, hplogs⟩ := sound_fileNext? hf
    refine ⟨p :: ps, hl ▸ .next hp hps, ?_, ?_, ?_⟩
    · rw [hdirective, List.filterMap_cons, hfiled, ScanState.add]
      cases f.filed <;> simp [Filed.directive?]
    · rw [hfloating, List.filterMap_cons, hfiled, ScanState.add]
      cases f.filed <;> simp [Filed.floating?]
    · rw [hlogs, List.flatMap_cons, hplogs, ScanState.add]
      cases f.filed <;> simp

/-- **The tokens of a file make passages**, and what a scan tells is told by them, in order. -/
theorem account_scan {modified : Timestamp} {f : FileComments}
    (h : (u.scan modified options).result = .ok f) :
    ∃ ps, Account u options u.tokens.toList ps ∧
      f.directiveComments = ps.filterMap (·.filed.directive?) ∧
      f.floatingComments = ps.filterMap (·.filed.floating?) ∧
      ∃ summary : LogLine, summary.level = .debug ∧
        (u.scan modified options).logs =
          u.diagnostics.map (fun d => { level := .warn, message := d }) ++
            ps.flatMap (·.logs u) ++ [summary] := by
  cases hs : u.scanFrom options u.scanStart (.ofList u.tokens.toList) with
  | mk st e =>
    cases e with
    | some e => simp [scan, hs] at h
    | none =>
      obtain ⟨ps, hps, hdirective, hfloating, hlogs⟩ := account_scanFrom hs
      have hps : Account u options u.tokens.toList ps := hps
      simp only [scan, hs, Except.ok.injEq] at h ⊢
      subst h
      refine ⟨ps, hps, ?_, ?_, ?_⟩
      · simpa [scanStart] using hdirective
      · simpa [scanStart] using hfloating
      · rw [hlogs]
        refine ⟨_, ?_, rfl⟩
        rfl

/-- **What becomes of every documentation line of a file.** The tokens are cut into passages, one for
each comment. Every documentation line is one of the comment of its passage, or is skipped with the
signature of the declaration found for it. Each comment goes the one way that the policy says, and
the comments and the log of the scan are those of the passages, in order. -/
theorem scan_account {modified : Timestamp} {f : FileComments}
    (h : (u.scan modified options).result = .ok f) :
    ∃ ps, Account u options u.tokens.toList ps ∧
      (u.tokens.toList.filter Token.isDocLine = ps.flatMap fun p =>
        p.run.filter Token.isDocLine ++ p.search.skipped.filter Token.isDocLine) ∧
      f.directiveComments = ps.filterMap (·.filed.directive?) ∧
      f.floatingComments = ps.filterMap (·.filed.floating?) ∧
      ∃ summary : LogLine, summary.level = .debug ∧
        (u.scan modified options).logs =
          u.diagnostics.map (fun d => { level := .warn, message := d }) ++
            ps.flatMap (·.logs u) ++ [summary] := by
  obtain ⟨ps, hps, hdirective, hfloating, hlogs⟩ := account_scan h
  exact ⟨ps, hps, hps.filter_tokens, hdirective, hfloating, hlogs⟩

/-- A variable with a documentation line in front of it and one behind it. -/
def trailingUnit : SourceUnit where
  path := ⟨"s.h"⟩
  tokens := #[
    ⟨"/// doc", .comment, ⟨⟨1, 1, 0⟩, ⟨1, 8, 7⟩⟩, 0⟩,
    ⟨"int", .keyword, ⟨⟨2, 1, 8⟩, ⟨2, 4, 11⟩⟩, 1⟩,
    ⟨"x", .identifier, ⟨⟨2, 5, 12⟩, ⟨2, 6, 13⟩⟩, 1⟩,
    ⟨";", .punctuation, ⟨⟨2, 6, 13⟩, ⟨2, 7, 14⟩⟩, 0⟩,
    ⟨"/// lost", .comment, ⟨⟨2, 8, 15⟩, ⟨2, 16, 23⟩⟩, 0⟩]
  cursors := #[
    ⟨.wholeFile, "s.h", ⟨⟨1, 1, 0⟩, ⟨3, 1, 24⟩⟩, none⟩,
    ⟨.varDecl, "x", ⟨⟨2, 1, 8⟩, ⟨2, 6, 13⟩⟩, some 0⟩]
  diagnostics := []
  moduleName := none

/-- The line behind the variable is skipped with it. -/
theorem scan_account_trailing :
    ∃ ps, Account trailingUnit ⟨true⟩ trailingUnit.tokens.toList ps ∧
      ((ps.flatMap fun p => p.run.filter Token.isDocLine ++
        p.search.skipped.filter Token.isDocLine).map Token.spelling = ["/// doc", "/// lost"]) ∧
      (ps.filterMap (·.filed.directive?)).map (·.comment.text) = [["/// doc"]] := by
  have htexts : (trailingUnit.scan ⟨0, 0⟩ ⟨true⟩).result.toOption.map
      (fun f => f.directiveComments.map (·.comment.text)) = some [["/// doc"]] := by
    decide +kernel
  cases hresult : (trailingUnit.scan ⟨0, 0⟩ ⟨true⟩).result with
  | error e =>
    rw [hresult] at htexts
    cases htexts
  | ok f =>
    rw [hresult] at htexts
    obtain ⟨ps, hps, hlines, hdirective, -⟩ := scan_account hresult
    refine ⟨ps, hps, ?_, ?_⟩
    · rw [← hlines]
      decide
    · rw [← hdirective]
      exact Option.some.inj htexts

end SourceUnit

end DocIndex
