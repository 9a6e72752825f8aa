import DocIndex.Proofs.Comment.Account
import DocIndex.Proofs.Layout.Unit

/-!
# Comments between braces

A comment is attached to the first declaration behind it, and the search for one does not look at
braces. So a comment at the end of a body may document what follows the body
(`SourceUnit.attached_behind_braces`). It does so only if nothing follows it in the body that can be
documented.

* `Passage.InBraces` — the comment stands between two braces that match.
* `Passage.Followed` — something to be documented follows it there.
* `SourceUnit.attached_in_braces` — **where the declaration starts that a comment is attached to.**
-/

namespace DocIndex

instance (a b : Extent) : Decidable (a.Precedes b) :=
  inferInstanceAs (Decidable (a.stop.offset ≤ b.start.offset))

/-- The comment stands between two braces that match. -/
def Passage.InBraces (s : Source) (u : SourceUnit) (p : Passage) (closing : Token) : Prop :=
  ∃ i j opening, s.is i "\x7b" = true ∧ s.close? i = some j ∧ u.tokens[i]? = some opening ∧
    u.tokens[j]? = some closing ∧ opening.extent.Precedes p.opening.extent ∧
    p.opening.extent.Precedes closing.extent

/-- In front of the brace stands a token of a declaration that can be documented and starts behind
the comment. -/
def Passage.Followed (u : SourceUnit) (p : Passage) (closing : Token) : Prop :=
  ∃ t ∈ u.tokens, t.extent.Precedes closing.extent ∧
    (u.cursor t.cursor).kind.canBeDocumented = true ∧
    ∀ v ∈ p.run, v.extent.Precedes (u.cursor t.cursor).extent

/-! ## Passages and searches -/

/-- A passage is cut out of the tokens. -/
theorem Account.of_mem {u : SourceUnit} {options : ScanOptions} {tokens : List Token}
    {ps : List Passage} (h : Account u options tokens ps) {p : Passage} (hp : p ∈ ps) :
    ∃ front after, tokens = front ++ (p.tokens ++ after) ∧ p.Sound u options after := by
  induction h with
  | done => cases hp
  | @next q after ps hq hrest ih =>
    rcases List.mem_cons.1 hp with rfl | hp
    · exact ⟨[], after, rfl, hq⟩
    · obtain ⟨front, after', heq, hsound⟩ := ih hp
      refine ⟨q.tokens ++ front, after', ?_, hsound⟩
      rw [heq, List.append_assoc]

namespace Search

variable {u : SourceUnit} {offset : Nat} {s : Search} {after : List Token} {first t : Token}

/-- The search finds the first token that there is to be found. -/
theorem Sound.start_le (h : s.Sound u offset after) (hfirst : first ∈ s.found.map Prod.fst)
    (hapart : Apart (s.tokens ++ after)) (ht : t ∈ s.tokens ++ after)
    (hstarts : u.StartsAt offset t) : first.extent.start.offset ≤ t.extent.start.offset := by
  have hpassed : t ∉ s.passed := fun hmem => (h.passed t hmem).2 hstarts
  have htokens : s.tokens ++ after = s.passed ++ (first :: (s.skipped ++ after)) := by
    rw [tokens, Option.mem_def.1 hfirst]
    simp only [Option.toList_some, List.append_assoc, List.cons_append, List.nil_append]
  rw [htokens] at ht hapart
  rcases List.mem_append.1 ht with hmem | hmem
  · exact absurd hmem hpassed
  · exact hapart.right.head_le rfl hmem

theorem mem_tokens_of_found (hfirst : first ∈ s.found.map Prod.fst) : first ∈ s.tokens := by
  rw [tokens, Option.mem_def.1 hfirst]
  exact List.mem_append_right _ (List.mem_append_left _ (Option.mem_toList.2 rfl))

end Search

/-! ## Where cursors start -/

theorem SourceUnit.getElem?_cursor {u : SourceUnit} {id : CursorId} (h : id < u.cursors.size) :
    u.cursors[id]? = some (u.cursor id) := by
  rw [cursor, Array.getD_eq_getD_getElem?, Array.getElem?_eq_getElem h, Option.getD_some]

namespace Source

variable {s : Source} {o : Outline} {path : Path} {faults : List (Nat × LexFault)}

/-- A cursor starts where the text does, or one of its tokens. -/
theorem start_of_getElem?_cursors {id : CursorId} {c : Cursor}
    (hc : (s.unitOf path faults o).cursors[id]? = some c) :
    c.extent.start.offset = 0 ∨
      ∃ v ∈ (s.unitOf path faults o).tokens, v.extent.start.offset = c.extent.start.offset := by
  rcases Nat.eq_zero_or_pos id with rfl | hpos
  · rw [extent_of_zero hc]
    exact .inl rfl
  · obtain ⟨d, -, rfl⟩ := of_getElem?_cursors hpos hc
    rcases Ordered.extentOf_cases s d.first d.last with heq | ⟨a, b, ha, -, heq⟩
    · left
      rw [cursorOf, heq]
      rfl
    · right
      refine ⟨s.tokenOf o d.first a, ?_, by rw [cursorOf, heq]; rfl⟩
      apply Array.mem_of_getElem? (i := d.first)
      simp only [unitOf, Array.getElem?_mapIdx, ha, Option.map_some]

variable (hu : (s.unitOf path faults o).WellFormed) {t : Token}
  (ht : t ∈ (s.unitOf path faults o).tokens)
include hu ht

/-- A token does not stand in front of its owner. -/
theorem start_owner_le :
    ((s.unitOf path faults o).cursor t.cursor).extent.start.offset ≤ t.extent.start.offset := by
  rcases Nat.eq_zero_or_pos t.cursor with hzero | hpos
  · -- the file starts where the text does
    have hfile := SourceUnit.getElem?_cursor (hu.owners t ht)
    rw [hzero] at hfile ⊢
    rw [extent_of_zero hfile]
    exact Nat.zero_le _
  · rcases hu.within t ht hpos with hin | ⟨-, -, -, hstart, -⟩
    · exact hin.1
    · exact hstart

/-- What starts behind the tokens in front of `next` starts no earlier than `next`. -/
theorem le_start_owner {front rest : List Token} {last next : Token}
    (htokens : (s.unitOf path faults o).tokens.toList = (front ++ [last]) ++ (next :: rest))
    (hbehind : last.extent.Precedes ((s.unitOf path faults o).cursor t.cursor).extent) :
    next.extent.start.offset ≤
      ((s.unitOf path faults o).cursor t.cursor).extent.start.offset := by
  have hapart := hu.tokens
  rw [htokens] at hapart
  have hlast : last ∈ front ++ [last] := List.mem_append_right _ List.mem_cons_self
  have hpos := hapart.left.1 last hlast
  unfold Extent.Precedes at hbehind
  rcases start_of_getElem?_cursors (SourceUnit.getElem?_cursor (hu.owners t ht)) with
    hzero | ⟨v, hv, hstart⟩
  · omega
  · rw [← hstart] at hbehind ⊢
    have hv : v ∈ (front ++ [last]) ++ (next :: rest) := by
      rw [← htokens]
      exact Array.mem_toList_iff.2 hv
    rcases List.mem_append.1 hv with hfront | hrest
    · -- it would start in front of the end of `last`
      have hlt := hapart.left.lt_last (List.getLast?_concat) hfront
      omega
    · exact hapart.right.head_le rfl hrest

end Source

/-! ## In front of a brace or behind it -/

theorem Apart.stop_le_of_lt {ts : List Token} (h : Apart ts) {a b : Token} (ha : a ∈ ts)
    (hb : b ∈ ts) (hlt : a.extent.start.offset < b.extent.start.offset) :
    a.extent.stop.offset ≤ b.extent.start.offset := by
  obtain ⟨front, rest, rfl⟩ := List.append_of_mem ha
  rcases List.mem_append.1 hb with hfront | hrest
  · have hpos := h.1 b hb
    have hle := h.stop_le hfront List.mem_cons_self
    omega
  · rcases List.mem_cons.1 hrest with rfl | hrest
    · exact absurd hlt (Nat.lt_irrefl _)
    · exact (List.pairwise_cons.1 h.right.2).1 b hrest

namespace Passage

/-- A comment that goes with a kind of declaration is attached to a declaration of that kind. -/
theorem Sound.found_of_kind {u : SourceUnit} {options : ScanOptions} {p : Passage}
    {after : List Token} {d : DirectiveComment} {kind : CursorKind} (h : p.Sound u options after)
    (hfiled : p.filed = .directive d) (hkind : d.comment.kind = some kind) :
    ∃ first ∈ p.search.found.map Prod.fst, (u.cursor first.cursor).kind = kind := by
  have hdeclaration : (p.search.declaration u).map (·.kind) = some kind := by
    have hpolicy := h.filed
    rw [hfiled] at hpolicy
    cases hpolicy with
    | explicit => exact hkind
    | inferred hplain hd => rw [hd]; exact hkind
  rw [Search.declaration, Option.map_map, Option.map_eq_some_iff] at hdeclaration
  obtain ⟨found, hfound, hkind⟩ := hdeclaration
  exact ⟨found.1, by rw [hfound]; rfl, hkind⟩

/-- A comment that a declaration is found for does not float: something comes behind it, and the
search starts there. -/
theorem Sound.of_found {u : SourceUnit} {options : ScanOptions} {p : Passage} {after : List Token}
    {first : Token} (h : p.Sound u options after) (hfirst : first ∈ p.search.found.map Prod.fst) :
    ∃ next rest, p.search.tokens ++ after = next :: rest ∧
      p.search.Sound u next.extent.start.offset after := by
  have hseeks : ¬p.Floats u after := by
    intro hfloats
    rw [h.floats hfloats] at hfirst
    cases hfirst
  obtain ⟨next, hnext, hsound⟩ := h.seeks hseeks
  obtain ⟨rest, hrest⟩ := List.head?_eq_some_iff.1 hnext
  exact ⟨next, rest, hrest, hsound⟩

variable {s : Source} {o : Outline} {path : Path} {faults : List (Nat × LexFault)}
  {options : ScanOptions} {p : Passage} {front after : List Token} {first closing : Token}
  (hu : (s.unitOf path faults o).WellFormed)
  (htokens : (s.unitOf path faults o).tokens.toList = front ++ (p.tokens ++ after))
  (hp : p.Sound (s.unitOf path faults o) options after)
  (hfirst : first ∈ p.search.found.map Prod.fst)
include hu htokens hp hfirst

omit hu hp in
theorem mem_tokens_of_found : first ∈ (s.unitOf path faults o).tokens := by
  have hmem := Search.mem_tokens_of_found hfirst
  rw [← Array.mem_toList_iff, htokens, tokens]
  simp only [List.mem_append, hmem, true_or, or_true]

theorem start_lt_of_followed (hfollowed : p.Followed (s.unitOf path faults o) closing) :
    ((s.unitOf path faults o).cursor first.cursor).extent.start.offset <
      closing.extent.start.offset := by
  obtain ⟨next, rest, hbehind, hsearch⟩ := hp.of_found hfirst
  obtain ⟨t, ht, hbefore, hdocumented, hrun⟩ := hfollowed
  obtain ⟨init, last, hlast⟩ : ∃ init last, p.run = init ++ [last] :=
    ⟨_, _, (List.dropLast_concat_getLast (List.cons_ne_nil p.opening p.more)).symm⟩
  have hcut : (s.unitOf path faults o).tokens.toList =
      ((front ++ (p.before ++ init)) ++ [last]) ++ (next :: rest) := by
    rw [htokens, tokens, hlast, ← hbehind]
    simp only [List.append_assoc]
  have hapart := hu.tokens
  rw [hcut] at hapart
  have hlastRun : last ∈ p.run := by
    rw [hlast]
    exact List.mem_append_right _ List.mem_cons_self
  -- `t` stands behind the comment, because its owner starts there
  have howner := Source.start_owner_le hu ht
  have hstarts : (s.unitOf path faults o).StartsAt next.extent.start.offset t :=
    ⟨Source.le_start_owner hu ht hcut (hrun last hlastRun), hdocumented⟩
  have hmem : t ∈ p.search.tokens ++ after := by
    have hall : t ∈ (s.unitOf path faults o).tokens.toList := Array.mem_toList_iff.2 ht
    rw [hcut] at hall
    rw [hbehind]
    refine (List.mem_append.1 hall).resolve_left fun hfront => ?_
    have hlt := hapart.left.lt_last List.getLast?_concat hfront
    have hrun : last.extent.stop.offset ≤ _ := hrun last hlastRun
    omega
  have hfound := hsearch.start_le hfirst (hbehind ▸ hapart.right) hmem hstarts
  have hpos := hu.tokens.1 t (Array.mem_toList_iff.2 ht)
  have hle := Source.start_owner_le hu (mem_tokens_of_found htokens hfirst)
  unfold Extent.Precedes at hbefore
  omega

theorem le_start_of_not_followed (hclosing : closing ∈ (s.unitOf path faults o).tokens)
    (hfollowed : ¬p.Followed (s.unitOf path faults o) closing) :
    closing.extent.start.offset ≤ first.extent.start.offset := by
  obtain ⟨next, rest, hbehind, hsearch⟩ := hp.of_found hfirst
  have hmem := mem_tokens_of_found htokens hfirst
  obtain ⟨-, hstart, hdocumented⟩ := hsearch.first first hfirst
  refine Nat.le_of_not_lt fun hlt => hfollowed ?_
  refine ⟨first, hmem, ?_, hdocumented, fun v hv => Nat.le_trans ?_ hstart⟩
  · exact hu.tokens.stop_le_of_lt (Array.mem_toList_iff.2 hmem) (Array.mem_toList_iff.2 hclosing)
      hlt
  · have hapart := hu.tokens
    rw [htokens, tokens, List.append_assoc, List.append_assoc, hbehind] at hapart
    exact hapart.right.right.stop_le hv List.mem_cons_self

end Passage

namespace SourceUnit

/-- **Where the declaration starts that a comment between two braces is attached to.** If something
that can be documented follows the comment in front of the closing brace, the declaration starts in
front of that brace. If nothing does, the declaration is not found in front of it. -/
theorem attached_in_braces {path : Path} {cs : List Char} {args : List String}
    {modified : Timestamp} {options : ScanOptions} {f : FileComments}
    (h : ((parseText path cs args).scan modified options).result = .ok f) :
    ∃ ps, Account (parseText path cs args) options (parseText path cs args).tokens.toList ps ∧
      f.directiveComments = ps.filterMap (·.filed.directive?) ∧
      f.floatingComments = ps.filterMap (·.filed.floating?) ∧
      ∀ p ∈ ps, ∀ first ∈ p.search.found.map Prod.fst, ∀ closing,
        p.InBraces (Source.ofText cs) (parseText path cs args) closing →
          (p.Followed (parseText path cs args) closing →
            ((parseText path cs args).cursor first.cursor).extent.start.offset <
              closing.extent.start.offset) ∧
          (¬p.Followed (parseText path cs args) closing →
            closing.extent.start.offset ≤ first.extent.start.offset) := by
  have hu := wellFormed_parseText path cs args
  obtain ⟨ps, hps, hdirective, hfloating, -⟩ := account_scan h
  refine ⟨ps, hps, hdirective, hfloating, fun p hp first hfirst closing hbraces => ?_⟩
  obtain ⟨front, after, htokens, hsound⟩ := hps.of_mem hp
  obtain ⟨i, j, opening, -, -, -, hclosing, -, -⟩ := hbraces
  constructor
  · exact Passage.start_lt_of_followed hu htokens hsound hfirst
  · exact Passage.le_start_of_not_followed hu htokens hsound hfirst (Array.mem_of_getElem? hclosing)

end SourceUnit

/-! ## A comment in front of a member, and one behind it -/

theorem Continues.kind_of_mem {line : Nat} {ts : List Token} (h : Continues line ts) {v : Token}
    (hv : v ∈ ts) : v.kind = .comment := by
  induction ts generalizing line with
  | nil => cases hv
  | cons t ts ih =>
    obtain ⟨hkind, -, -, hrest⟩ := h
    rcases List.mem_cons.1 hv with rfl | hv
    · exact hkind
    · exact ih hrest hv

/-- A comment that goes with a kind of declaration, between braces that all comments of the unit
stand between. -/
theorem Account.of_kinds {s : Source} {u : SourceUnit} {options : ScanOptions} {ps : List Passage}
    {kind : CursorKind} {i j : Nat} {opening closing : Token}
    (h : Account u options u.tokens.toList ps)
    (hkinds : (ps.filterMap (·.filed.directive?)).map (·.comment.kind) = [some kind])
    (hopen : s.is i "\x7b" = true) (hclose : s.close? i = some j)
    (hopening : u.tokens[i]? = some opening) (hclosing : u.tokens[j]? = some closing)
    (hcomments : ∀ v ∈ u.tokens.toList, v.kind = .comment →
      opening.extent.Precedes v.extent ∧ v.extent.Precedes closing.extent) :
    ∃ p ∈ ps, ∃ first ∈ p.search.found.map Prod.fst, first ∈ u.tokens.toList ∧
      (u.cursor first.cursor).kind = kind ∧ p.InBraces s u closing ∧
      ∀ v ∈ p.run, v ∈ u.tokens.toList ∧ v.kind = .comment := by
  obtain ⟨d, hd, hkind⟩ : ∃ d ∈ ps.filterMap (·.filed.directive?), d.comment.kind = some kind := by
    rw [← List.mem_map, hkinds]
    exact List.mem_cons_self
  obtain ⟨p, hp, hfiled⟩ := List.mem_filterMap.1 hd
  replace hfiled : p.filed = .directive d := by
    cases hf : p.filed with
    | directive d' =>
      rw [hf] at hfiled
      rw [Option.some.inj hfiled]
    | floating c => rw [hf] at hfiled; cases hfiled
    | dropped => rw [hf] at hfiled; cases hfiled
  obtain ⟨front, after, htokens, hsound⟩ := h.of_mem hp
  obtain ⟨first, hfirst, hcursor⟩ := hsound.found_of_kind hfiled hkind
  have hrun (v : Token) (hv : v ∈ p.run) : v ∈ u.tokens.toList ∧ v.kind = .comment := by
    constructor
    · rw [htokens, Passage.tokens]
      simp only [List.mem_append, hv, true_or, or_true]
    · rcases List.mem_cons.1 hv with rfl | hv
      · have hdoc := hsound.opening
        simp only [Token.isDocLine, Bool.and_eq_true, beq_iff_eq] at hdoc
        exact hdoc.1
      · exact hsound.more.kind_of_mem hv
  have hmem : first ∈ u.tokens.toList := by
    rw [htokens, Passage.tokens]
    simp only [List.mem_append, Search.mem_tokens_of_found hfirst, true_or, or_true]
  obtain ⟨hline, hcomment⟩ := hrun p.opening List.mem_cons_self
  obtain ⟨hfront, hback⟩ := hcomments p.opening hline hcomment
  exact ⟨p, hp, first, hfirst, hmem, hcursor,
    ⟨i, j, opening, hopen, hclose, hopening, hclosing, hfront, hback⟩, hrun⟩

namespace SourceUnit

/-- A class whose only member is documented. -/
def memberText : List Char :=
  "struct S \x7b\n  /// doc\n  int x;\n\x7d;\nint y;\n".toList

/-- The member starts in front of the closing brace. -/
theorem attached_in_braces_member :
    let u := parseText ⟨"t.hxx"⟩ memberText []
    ∃ f ps p first closing, (u.scan ⟨0, 0⟩ ⟨true⟩).result = .ok f ∧
      Account u ⟨true⟩ u.tokens.toList ps ∧ p ∈ ps ∧ first ∈ p.search.found.map Prod.fst ∧
      p.InBraces (Source.ofText memberText) u closing ∧ p.Followed u closing ∧
      (u.cursor first.cursor).extent.start.offset < closing.extent.start.offset := by
  intro u
  have hkinds : (u.scan ⟨0, 0⟩ ⟨true⟩).result.toOption.map
      (fun f => f.directiveComments.map (·.comment.kind)) = some [some .fieldDecl] := by
    decide +kernel
  cases hresult : (u.scan ⟨0, 0⟩ ⟨true⟩).result with
  | error e =>
    rw [hresult] at hkinds
    cases hkinds
  | ok f =>
    rw [hresult] at hkinds
    obtain ⟨ps, hps, hdirective, -, hattached⟩ := attached_in_braces hresult
    have hkinds : f.directiveComments.map (·.comment.kind) = [some .fieldDecl] :=
      Option.some.inj hkinds
    rw [hdirective] at hkinds
    let opening : Token := ⟨"\x7b", .punctuation, ⟨⟨1, 10, 9⟩, ⟨1, 11, 10⟩⟩, 1⟩
    let closing : Token := ⟨"\x7d", .punctuation, ⟨⟨4, 1, 30⟩, ⟨4, 2, 31⟩⟩, 1⟩
    have hopening : u.tokens[2]? = some opening := by decide +kernel
    have hclosing : u.tokens[7]? = some closing := by decide +kernel
    obtain ⟨p, hp, first, hfirst, -, -, hbraces, hrun⟩ :=
      hps.of_kinds (s := Source.ofText memberText) hkinds (by decide +kernel) (by decide +kernel)
        hopening hclosing (by decide +kernel)
    have hfollowed : p.Followed u closing := by
      -- the type of the member
      let member : Token := ⟨"int", .keyword, ⟨⟨3, 3, 23⟩, ⟨3, 6, 26⟩⟩, 2⟩
      have hmember : u.tokens[4]? = some member := by decide +kernel
      have hcomments : ∀ v ∈ u.tokens.toList, v.kind = .comment →
          v.extent.Precedes (u.cursor member.cursor).extent := by
        decide +kernel
      refine ⟨member, Array.mem_of_getElem? hmember, by decide, by decide +kernel, ?_⟩
      intro v hv
      exact hcomments v (hrun v hv).1 (hrun v hv).2
    exact ⟨f, ps, p, first, _, rfl, hps, hp, hfirst, hbraces, hfollowed,
      (hattached p hp first hfirst _ hbraces).1 hfollowed⟩

/-- A class with a comment behind its only member. -/
def trailingText : List Char :=
  "struct S \x7b\n  int x;\n  /// trailing\n\x7d;\nint y;\n".toList

/-- **A comment at the end of a body documents what follows the body.** -/
theorem attached_behind_braces :
    let u := parseText ⟨"t.hxx"⟩ trailingText []
    u.diagnostics = [] ∧
      ∃ f ps p first closing, (u.scan ⟨0, 0⟩ ⟨true⟩).result = .ok f ∧
        Account u ⟨true⟩ u.tokens.toList ps ∧ p ∈ ps ∧ first ∈ p.search.found.map Prod.fst ∧
        p.InBraces (Source.ofText trailingText) u closing ∧
        closing.extent.start.offset ≤ (u.cursor first.cursor).extent.start.offset := by
  intro u
  have hkinds : (u.scan ⟨0, 0⟩ ⟨true⟩).result.toOption.map
      (fun f => f.directiveComments.map (·.comment.kind)) = some [some .varDecl] := by
    decide +kernel
  refine ⟨by decide +kernel, ?_⟩
  cases hresult : (u.scan ⟨0, 0⟩ ⟨true⟩).result with
  | error e =>
    rw [hresult] at hkinds
    cases hkinds
  | ok f =>
    rw [hresult] at hkinds
    obtain ⟨ps, hps, hdirective, -⟩ := account_scan hresult
    have hkinds : f.directiveComments.map (·.comment.kind) = [some .varDecl] :=
      Option.some.inj hkinds
    rw [hdirective] at hkinds
    let opening : Token := ⟨"\x7b", .punctuation, ⟨⟨1, 10, 9⟩, ⟨1, 11, 10⟩⟩, 1⟩
    let closing : Token := ⟨"\x7d", .punctuation, ⟨⟨4, 1, 35⟩, ⟨4, 2, 36⟩⟩, 1⟩
    have hopening : u.tokens[2]? = some opening := by decide +kernel
    have hclosing : u.tokens[7]? = some closing := by decide +kernel
    obtain ⟨p, hp, first, hfirst, hmem, hcursor, hbraces, -⟩ :=
      hps.of_kinds (s := Source.ofText trailingText) hkinds (by decide +kernel) (by decide +kernel)
        hopening hclosing (by decide +kernel)
    -- there is one variable, and it stands behind the class
    have hvariable : ∀ v ∈ u.tokens.toList, (u.cursor v.cursor).kind = .varDecl →
        closing.extent.start.offset ≤ (u.cursor v.cursor).extent.start.offset := by
      decide +kernel
    exact ⟨f, ps, p, first, _, rfl, hps, hp, hfirst, hbraces, hvariable first hmem hcursor⟩

end SourceUnit

end DocIndex
