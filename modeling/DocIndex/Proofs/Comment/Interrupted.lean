import DocIndex.Proofs.Comment.Account

/-!
# How a scan ends

A token is put back only right behind being taken, so that the slot for it is free. What is left to
stop a scan is a block comment within a run of documentation lines. So the tokens of every file are
cut into passages (`Passage`), up to the end of the file or up to such a comment.

* `exists_nextDeclaration` — the search for a declaration cannot fail.
* `of_readRun_error` — what stops a run.
* `Cut` — passages, and what comes behind the last one.
* `cut_scan` — **every scan cuts the tokens of its file, whether it succeeds or not.**
-/

namespace DocIndex

open TokenStream

/-! ## What cannot fail -/

theorem exists_putBack {t u : Token} {ts ts' : TokenStream} (h : ts.next? = some (t, ts')) :
    ∃ ts'', putBack u ts' = .ok ts'' := by
  obtain ⟨ts₁, hnext, -, hpending⟩ := TokenStream.next?_eq (TokenStream.toList_next? h)
  cases h.symm.trans hnext
  obtain ⟨ts₂, hpush, -⟩ := TokenStream.pushBack?_eq hpending u
  exact ⟨ts₂, Fallible.mapError_eq_ok.2 hpush⟩

theorem exists_peek? (ts : TokenStream) : ∃ r, ts.peek? = .ok r := by
  unfold TokenStream.peek?
  split
  · exact ⟨_, rfl⟩
  · rename_i t ts' hnext
    obtain ⟨ts'', hback⟩ := exists_putBack (u := t) hnext
    exact ⟨_, Fallible.map_eq_ok.2 ⟨ts'', Fallible.mapError_eq_ok.1 hback, rfl⟩⟩

theorem exists_skipThrough (line : Nat) (ts : TokenStream) :
    ∃ ts', skipThrough line ts = .ok ts' := by
  fun_induction skipThrough line ts with
  | case1 ts => exact ⟨ts, rfl⟩
  | case2 ts t ts' hnext => exact exists_putBack hnext
  | case3 ts t ts' _ _ ih => exact ih

namespace SourceUnit

theorem exists_findDeclaration (u : SourceUnit) (offset : Nat) (stream : TokenStream) :
    ∃ r, u.findDeclaration offset stream = .ok r := by
  fun_induction findDeclaration u offset stream with
  | case1 ts => exact ⟨_, rfl⟩
  | case2 ts t ts' hnext =>
    obtain ⟨ts'', hback⟩ := exists_putBack (u := t) hnext
    exact ⟨_, Fallible.map_eq_ok.2 ⟨ts'', hback, rfl⟩⟩
  | case3 ts t ts' => exact ⟨_, rfl⟩
  | case4 ts t ts' _ _ _ ih => exact ih

/-- Looking for a declaration never fails. -/
theorem exists_nextDeclaration (u : SourceUnit) (stream : TokenStream) :
    ∃ a, u.nextDeclaration stream = .ok a := by
  obtain ⟨⟨next, ts₁⟩, hpeek⟩ := exists_peek? stream
  cases next with
  | none => exact ⟨_, Fallible.bind_eq_ok.2 ⟨_, Fallible.mapError_eq_ok.2 hpeek, rfl⟩⟩
  | some next =>
    obtain ⟨⟨found, ts₂⟩, hfind⟩ := u.exists_findDeclaration next.extent.start.offset ts₁
    cases found with
    | none =>
      exact ⟨_, Fallible.bind_eq_ok.2 ⟨_, Fallible.mapError_eq_ok.2 hpeek,
        Fallible.bind_eq_ok.2 ⟨_, hfind, rfl⟩⟩⟩
    | some first =>
      obtain ⟨ts₃, hskip⟩ := exists_skipThrough
        ((u.keptTokens first.cursor).getLastD first).extent.stop.line ts₂
      exact ⟨_, Fallible.bind_eq_ok.2 ⟨_, Fallible.mapError_eq_ok.2 hpeek,
        Fallible.bind_eq_ok.2 ⟨_, hfind, Fallible.bind_eq_ok.2 ⟨_, hskip, rfl⟩⟩⟩⟩

theorem exists_attach (u : SourceUnit) (floating : Bool) (stream : TokenStream) :
    ∃ a, u.attach floating stream = .ok a := by
  unfold attach
  split
  · exact ⟨_, rfl⟩
  · exact u.exists_nextDeclaration stream

end SourceUnit

/-! ## What stops a run -/

/-- The token is a block comment that no empty line sets apart. -/
def Interrupts (line : Nat) (t : Token) : Prop :=
  t.kind = .comment ∧ t.extent.start.line ≤ line ∧ t.isDocLine = false ∧ t.isBlock = true

theorem of_readRun_error {c : Comment} {ts : TokenStream} {e : ScanError}
    (h : readRun c ts = .error e) :
    ∃ more block rest, ts.toList = more ++ block :: rest ∧ Continues c.nextLine more ∧
      Interrupts (lineBehind c.nextLine more) block ∧
      e = .interleaved ⟨c.file, block.extent.start.line⟩ := by
  fun_induction readRun c ts with
  | case1 => cases h
  | case2 c ts v ts₁ hn _ =>
    -- the token that ends the run was just taken, and can be put back
    obtain ⟨ts₂, hback⟩ := exists_putBack (u := v) hn
    rw [endRun, Fallible.mapError_eq_ok.1 hback] at h
    cases h
  | case3 c ts v ts₁ hn hgo hdoc ih =>
    obtain ⟨more, block, rest, hl, hmore, hblock, he⟩ := ih h
    have hv : v.kind = .comment ∧ v.extent.start.line ≤ c.nextLine := by simpa using hgo
    exact ⟨v :: more, block, rest, by rw [toList_next? hn, hl, List.cons_append],
      ⟨hv.1, hv.2, .inl hdoc, hmore⟩, hblock, he⟩
  | case4 c ts v ts₁ hn hgo hdoc hblock =>
    cases h
    have hv : v.kind = .comment ∧ v.extent.start.line ≤ c.nextLine := by simpa using hgo
    exact ⟨[], v, ts₁.toList, toList_next? hn, trivial,
      ⟨hv.1, hv.2, by simpa using hdoc, hblock⟩, rfl⟩
  | case5 c ts v ts₁ hn hgo hdoc hblock ih =>
    obtain ⟨more, block, rest, hl, hmore, hblock', he⟩ := ih h
    have hv : v.kind = .comment ∧ v.extent.start.line ≤ c.nextLine := by simpa using hgo
    exact ⟨v :: more, block, rest, by rw [toList_next? hn, hl, List.cons_append],
      ⟨hv.1, hv.2, .inr (by simpa using hblock), hmore⟩, hblock', he⟩

/-- A comment that cannot be read has a first line, and a block comment in its run. -/
theorem of_nextRun?_error {file : Path} {ts : TokenStream} {e : ScanError}
    (h : nextRun? file ts = .error e) :
    ∃ before opening more block rest, ts.toList = before ++ opening :: (more ++ block :: rest) ∧
      (∀ t ∈ before, t.isDocLine = false) ∧ opening.isDocLine = true ∧
      Continues (opening.extent.stop.line + 1) more ∧
      Interrupts (lineBehind (opening.extent.stop.line + 1) more) block ∧
      e = .interleaved ⟨file, block.extent.start.line⟩ := by
  unfold nextRun? at h
  split at h
  · cases h
  · rename_i opening ts₁ hd
    dsimp only at h
    obtain ⟨before, hl, hbefore, hopening⟩ := of_nextDocumentation? hd
    cases hrun : readRun { file, nextLine := opening.extent.stop.line + 1
                           text := [opening.spelling], kind := none } ts₁ with
    | ok r =>
      rw [hrun] at h
      cases h
    | error e' =>
      rw [hrun] at h
      cases h
      obtain ⟨more, block, rest, hl', hmore, hblock, he⟩ := of_readRun_error hrun
      exact ⟨before, opening, more, block, rest, by rw [hl, hl'], hbefore, hopening, hmore, hblock,
        he⟩

/-! ## The whole file -/

/-- Some tokens are cut into passages. Behind the last one there is no documentation, or else a run
that a block comment stops, whose place is told. -/
inductive Cut (u : SourceUnit) (options : ScanOptions) :
    List Token → List Passage → Option Location → Prop
  | done {tokens : List Token} (h : ∀ t ∈ tokens, t.isDocLine = false) :
      Cut u options tokens [] none
  | interrupted {before more rest : List Token} {opening block : Token}
      (hbefore : ∀ t ∈ before, t.isDocLine = false) (hopening : opening.isDocLine = true)
      (hmore : Continues (opening.extent.stop.line + 1) more)
      (hblock : Interrupts (lineBehind (opening.extent.stop.line + 1) more) block) :
      Cut u options (before ++ opening :: (more ++ block :: rest)) []
        (some ⟨u.path, block.extent.start.line⟩)
  | next {p : Passage} {after : List Token} {ps : List Passage} {ending : Option Location}
      (hp : p.Sound u options after) (h : Cut u options after ps ending) :
      Cut u options (p.tokens ++ after) (p :: ps) ending

namespace SourceUnit

variable {u : SourceUnit} {options : ScanOptions} {ts : TokenStream}

/-- A comment that cannot be read stops the scan at a block comment. -/
theorem cut_fileNext?_error {e : ScanError} (h : u.fileNext? options ts = .error e) :
    ∃ location, e = .interleaved location ∧ Cut u options ts.toList [] (some location) := by
  unfold fileNext? at h
  cases hr : nextRun? u.path ts with
  | error e' =>
    rw [hr] at h
    cases h
    obtain ⟨before, opening, more, block, rest, hl, hbefore, hopening, hmore, hblock, he⟩ :=
      of_nextRun?_error hr
    refine ⟨_, he, ?_⟩
    rw [hl]
    exact .interrupted hbefore hopening hmore hblock
  | ok r =>
    -- behind the run, nothing fails
    rw [hr] at h
    cases r with
    | none => cases h
    | some r =>
      obtain ⟨c, ts₁⟩ := r
      obtain ⟨⟨next, ts₂⟩, hpeek⟩ := exists_peek? ts₁
      obtain ⟨a, ha⟩ := u.exists_attach (isFloating c next) ts₂
      have hpeek' : ts₁.peek?.mapError ScanError.occupied = .ok (next, ts₂) :=
        Fallible.mapError_eq_ok.2 hpeek
      change (ts₁.peek?.mapError ScanError.occupied >>= _) = _ at h
      rw [hpeek'] at h
      change (u.attach (isFloating c next) ts₂ >>= _) = _ at h
      rw [ha] at h
      cases h

/-- **The comments that are left make passages, up to where the scan ends.** -/
theorem cut_scanFrom (options : ScanOptions) (st : ScanState) (ts : TokenStream) :
    ∃ ps ending, Cut u options ts.toList ps ending ∧
      (u.scanFrom options st ts).2 = ending.map ScanError.interleaved ∧
      (u.scanFrom options st ts).1.directiveComments =
        st.directiveComments ++ ps.filterMap (·.filed.directive?) ∧
      (u.scanFrom options st ts).1.floatingComments =
        st.floatingComments ++ ps.filterMap (·.filed.floating?) := by
  fun_induction scanFrom u options st ts with
  | case1 st ts e he =>
    obtain ⟨location, rfl, hcut⟩ := cut_fileNext?_error he
    exact ⟨[], some location, hcut, rfl, by simp, by simp⟩
  | case2 st ts hn => exact ⟨[], none, .done (of_fileNext?_none hn), rfl, by simp, by simp⟩
  | case3 st ts f hf ih =>
    obtain ⟨ps, ending, hcut, hending, hdirective, hfloating⟩ := ih
    obtain ⟨p, hl, hp, hfiled, -⟩ := sound_fileNext? hf
    refine ⟨p :: ps, ending, hl ▸ .next hp hcut, hending, ?_, ?_⟩
    · rw [hdirective, List.filterMap_cons, hfiled, ScanState.add]
      cases f.filed <;> simp [Filed.directive?]
    · rw [hfloating, List.filterMap_cons, hfiled, ScanState.add]
      cases f.filed <;> simp [Filed.floating?]

/-- What a scan leads to is told by passages: its comments are theirs, or it fails at a block
comment. -/
def ToldBy (u : SourceUnit) (modified : Timestamp) (options : ScanOptions) (ps : List Passage) :
    Option Location → Prop
  | none => ∃ f, (u.scan modified options).result = .ok f ∧
      f.directiveComments = ps.filterMap (·.filed.directive?) ∧
      f.floatingComments = ps.filterMap (·.filed.floating?)
  | some location => (u.scan modified options).result = .error (.interleaved location)

/-- **Every scan cuts the tokens of its file**, and what it leads to is told by the passages. -/
theorem cut_scan (u : SourceUnit) (modified : Timestamp) (options : ScanOptions) :
    ∃ ps ending, Cut u options u.tokens.toList ps ending ∧
      u.ToldBy modified options ps ending := by
  obtain ⟨ps, ending, hcut, hending, hdirective, hfloating⟩ :=
    cut_scanFrom (u := u) options u.scanStart (.ofList u.tokens.toList)
  refine ⟨ps, ending, hcut, ?_⟩
  cases hs : u.scanFrom options u.scanStart (.ofList u.tokens.toList) with
  | mk st e =>
    rw [hs] at hending hdirective hfloating
    cases ending with
    | none =>
      obtain rfl : e = none := hending
      refine ⟨_, by simp only [scan, hs]; rfl, ?_, ?_⟩
      · simpa [scanStart] using hdirective
      · simpa [scanStart] using hfloating
    | some location =>
      obtain rfl : e = some (.interleaved location) := hending
      simp only [ToldBy, scan, hs]

end SourceUnit

end DocIndex
