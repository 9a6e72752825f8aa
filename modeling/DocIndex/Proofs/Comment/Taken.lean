import DocIndex.Proofs.Comment.Runs

/-!
# What was taken off a stream

If a reader of comments succeeds, the tokens that it took are those in front of what it left, and it
stopped where it had to.

* `of_nextRun?` — a comment takes the tokens up to its first line, and its run.
* `of_findDeclaration` — the search for a declaration.
* `of_skipThrough` — the rest of its signature.
-/

namespace DocIndex

open TokenStream

variable {ts ts' : TokenStream} {t : Token} {c c' : Comment}

/-! ## Streams -/

theorem toList_next?_none (h : ts.next? = none) : ts.toList = [] := by
  cases hl : ts.toList with
  | nil => rfl
  | cons t rest =>
    obtain ⟨ts', hn, -⟩ := next?_eq hl
    rw [h] at hn
    cases hn

theorem toList_pushBack? (h : ts.pushBack? t = .ok ts') : ts'.toList = t :: ts.toList := by
  unfold pushBack? at h
  split at h
  · cases h
  · rename_i hp
    cases h
    simp [toList, hp]

/-- A look at the next token changes nothing. -/
theorem toList_peek? {next : Option Token} (h : ts.peek? = .ok (next, ts')) :
    next = ts.toList.head? ∧ ts'.toList = ts.toList := by
  unfold peek? at h
  split at h
  · rename_i hn
    cases h
    simp [toList_next?_none hn]
  · rename_i t ts₁ hn
    obtain ⟨ts₂, hb, he⟩ := Fallible.map_eq_ok.1 h
    cases he
    simp [toList_next? hn, toList_pushBack? hb]

/-! ## Runs -/

/-- The line behind the last of some tokens, or a given one if there are none. -/
def lineBehind (line : Nat) (tokens : List Token) : Nat :=
  tokens.foldl (fun _ t => t.extent.stop.line + 1) line

/-- Comments through which a run goes on: none of them starts below the line behind the one before
it, and none is a block comment. -/
def Continues : Nat → List Token → Prop
  | _, [] => True
  | line, t :: ts =>
    t.kind = .comment ∧ t.extent.start.line ≤ line ∧ (t.isDocLine = true ∨ t.isBlock = false) ∧
      Continues (t.extent.stop.line + 1) ts

/-- The token is no comment, or an empty line is in front of it. -/
def EndsRun (line : Nat) (t : Token) : Prop :=
  t.kind ≠ .comment ∨ line < t.extent.start.line

theorem of_nextDocumentation?_none (h : nextDocumentation? ts = none) :
    ∀ v ∈ ts.toList, v.isDocLine = false := by
  fun_induction nextDocumentation? ts with
  | case1 ts hn =>
    rw [toList_next?_none hn]
    simp
  | case2 => cases h
  | case3 ts t ts' hn ht ih =>
    rw [toList_next? hn]
    exact List.forall_mem_cons.2 ⟨by simpa using ht, ih h⟩

theorem of_nextDocumentation? (h : nextDocumentation? ts = some (t, ts')) :
    ∃ before, ts.toList = before ++ t :: ts'.toList ∧ (∀ v ∈ before, v.isDocLine = false) ∧
      t.isDocLine = true := by
  fun_induction nextDocumentation? ts with
  | case1 => cases h
  | case2 ts v ts₁ hn hv =>
    cases h
    exact ⟨[], toList_next? hn, by simp, hv⟩
  | case3 ts v ts₁ hn hv ih =>
    obtain ⟨before, hl, hbefore, ht⟩ := ih h
    refine ⟨v :: before, by rw [toList_next? hn, hl, List.cons_append], ?_, ht⟩
    exact List.forall_mem_cons.2 ⟨by simpa using hv, hbefore⟩

/-- What a run takes off the stream, and what it adds to the comment. -/
theorem of_readRun (h : readRun c ts = .ok (c', ts')) :
    ∃ more, ts.toList = more ++ ts'.toList ∧ Continues c.nextLine more ∧
      (∀ v ∈ ts'.toList.head?, EndsRun (lineBehind c.nextLine more) v) ∧
      c' = { c with
              text := c.text ++ (more.filter Token.isDocLine).map Token.spelling
              nextLine := lineBehind c.nextLine more } := by
  fun_induction readRun c ts with
  | case1 c ts hn =>
    cases h
    refine ⟨[], rfl, trivial, ?_, by simp [lineBehind]⟩
    rw [toList_next?_none hn]
    simp
  | case2 c ts v ts₁ hn hend =>
    unfold endRun at h
    split at h
    · rename_i ts₂ hb
      cases h
      have hl := toList_pushBack? hb
      refine ⟨[], by rw [toList_next? hn, hl, List.nil_append], trivial, ?_, by simp [lineBehind]⟩
      intro w hw
      rw [hl, List.head?_cons, Option.mem_some_iff] at hw
      subst hw
      simpa [EndsRun, lineBehind] using hend
    · cases h
  | case3 c ts v ts₁ hn hgo hdoc ih =>
    obtain ⟨more, hl, hmore, hends, hc⟩ := ih h
    have hv : v.kind = .comment ∧ v.extent.start.line ≤ c.nextLine := by simpa using hgo
    refine ⟨v :: more, by rw [toList_next? hn, hl, List.cons_append],
      ⟨hv.1, hv.2, .inl hdoc, hmore⟩, hends, ?_⟩
    simp [hc, hdoc, lineBehind]
  | case4 => cases h
  | case5 c ts v ts₁ hn hgo hdoc hblock ih =>
    obtain ⟨more, hl, hmore, hends, hc⟩ := ih h
    have hv : v.kind = .comment ∧ v.extent.start.line ≤ c.nextLine := by simpa using hgo
    refine ⟨v :: more, by rw [toList_next? hn, hl, List.cons_append],
      ⟨hv.1, hv.2, .inr (by simpa using hblock), hmore⟩, hends, ?_⟩
    simp [hc, hdoc, lineBehind]

/-- What a comment takes off the stream, and what it is then. -/
theorem of_nextRun? {file : Path} (h : nextRun? file ts = .ok (some (c, ts'))) :
    ∃ before opening more, ts.toList = before ++ (opening :: more ++ ts'.toList) ∧
      (∀ v ∈ before, v.isDocLine = false) ∧ opening.isDocLine = true ∧
      Continues (opening.extent.stop.line + 1) more ∧
      (∀ v ∈ ts'.toList.head?, EndsRun (lineBehind (opening.extent.stop.line + 1) more) v) ∧
      c = { file, nextLine := lineBehind (opening.extent.stop.line + 1) more
            text := ((opening :: more).filter Token.isDocLine).map Token.spelling
            kind := none } := by
  unfold nextRun? at h
  split at h
  · cases h
  · rename_i opening ts₁ hd
    obtain ⟨⟨c', ts₂⟩, hr, he⟩ := Fallible.map_eq_ok.1 h
    cases he
    obtain ⟨before, hl, hbefore, hopening⟩ := of_nextDocumentation? hd
    obtain ⟨more, hl', hmore, hends, hc⟩ := of_readRun hr
    refine ⟨before, opening, more, by rw [hl, hl', List.cons_append], hbefore, hopening, hmore,
      hends, ?_⟩
    simp [hc, hopening]

/-! ## Declarations -/

theorem toList_putBack (h : putBack t ts = .ok ts') : ts'.toList = t :: ts.toList :=
  toList_pushBack? (Fallible.mapError_eq_ok.1 h)

/-- What is skipped ends on or before the line, and what is left does not. -/
theorem of_skipThrough {line : Nat} (h : skipThrough line ts = .ok ts') :
    ∃ tail, ts.toList = tail ++ ts'.toList ∧ (∀ v ∈ tail, v.extent.stop.line ≤ line) ∧
      ∀ v ∈ ts'.toList.head?, line < v.extent.stop.line := by
  fun_induction skipThrough line ts with
  | case1 ts hn =>
    cases h
    refine ⟨[], rfl, by simp, ?_⟩
    rw [toList_next?_none hn]
    simp
  | case2 ts v ts₁ hn hlt =>
    have hl := toList_putBack h
    refine ⟨[], by rw [toList_next? hn, hl, List.nil_append], by simp, ?_⟩
    intro w hw
    rw [hl, List.head?_cons, Option.mem_some_iff] at hw
    subst hw
    exact hlt
  | case3 ts v ts₁ hn hge ih =>
    obtain ⟨tail, hl, htail, hrest⟩ := ih h
    refine ⟨v :: tail, by rw [toList_next? hn, hl, List.cons_append], ?_, hrest⟩
    exact List.forall_mem_cons.2 ⟨by omega, htail⟩

namespace SourceUnit

variable {u : SourceUnit} {options : ScanOptions}

/-- The token is of a declaration that can be documented and starts no earlier than `offset`. -/
def StartsAt (u : SourceUnit) (offset : Nat) (t : Token) : Prop :=
  offset ≤ (u.cursor t.cursor).extent.start.offset ∧
    (u.cursor t.cursor).kind.canBeDocumented = true

/-- The line on which the signature of a declaration ends that starts with a given token. -/
def signatureEnd (u : SourceUnit) (first : Token) : Nat :=
  ((u.keptTokens first.cursor).getLastD first).extent.stop.line

/-- What is looked through for a declaration holds none, and no documentation. -/
theorem of_findDeclaration {offset : Nat} {found : Option Token}
    (h : u.findDeclaration offset ts = .ok (found, ts')) :
    ∃ search, ts.toList = search ++ (found.toList ++ ts'.toList) ∧
      (∀ v ∈ search, v.isDocLine = false ∧ ¬u.StartsAt offset v) ∧
      (∀ v ∈ found, v.isDocLine = false ∧ u.StartsAt offset v) ∧
      (found = none → ∀ v ∈ ts'.toList.head?, v.isDocLine = true) := by
  fun_induction findDeclaration u offset ts with
  | case1 ts hn =>
    cases h
    refine ⟨[], rfl, by simp, by simp, ?_⟩
    rw [toList_next?_none hn]
    simp
  | case2 ts v ts₁ hn hdoc =>
    obtain ⟨ts₂, hb, he⟩ := Fallible.map_eq_ok.1 h
    cases he
    have hl := toList_putBack hb
    refine ⟨[], by simp [toList_next? hn, hl], by simp, by simp, ?_⟩
    intro _ w hw
    rw [hl, List.head?_cons, Option.mem_some_iff] at hw
    subst hw
    exact hdoc
  | case3 ts v ts₁ hn hdoc hstart =>
    cases h
    refine ⟨[], by simp [toList_next? hn], by simp, ?_, by simp⟩
    intro w hw
    cases hw
    exact ⟨by simpa using hdoc, by simpa [StartsAt] using hstart⟩
  | case4 ts v ts₁ hn hdoc hstart ih =>
    obtain ⟨search, hl, hsearch, hfound, hnone⟩ := ih h
    refine ⟨v :: search, by rw [toList_next? hn, hl, List.cons_append], ?_, hfound, hnone⟩
    exact List.forall_mem_cons.2 ⟨⟨by simpa using hdoc, by simpa [StartsAt] using hstart⟩, hsearch⟩

end SourceUnit

end DocIndex
