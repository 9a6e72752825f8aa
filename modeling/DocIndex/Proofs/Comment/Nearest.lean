import DocIndex.Proofs.Comment.Interrupted
import DocIndex.Proofs.Commented.Notes
import DocIndex.Proofs.Extent.Spans
import DocIndex.Proofs.Layout.Anchored
import DocIndex.Proofs.Layout.Braces

/-!
# The nearest declaration

The search for a declaration looks at tokens and not at cursors: it takes the first token whose
owner can be documented and starts no earlier than the token it was begun at. Tokens of macros,
directives, namespaces and of the declarations around stand in between. Nevertheless what it finds
is the nearest cursor there is, because each cursor is met at its anchor before any that begins
later.

* `SourceUnit.Nearest` — no cursor that fits starts earlier.
* `SourceUnit.Anchored` — every cursor is met at a token of its own. So it is in every text that is
  read without a diagnostic (`Source.anchored_parseText`).
* `SourceUnit.FindsNearest` — what the search leads to, in terms of the nearest cursor.
* `SourceUnit.nextDeclaration_nearest` — **the search finds the nearest declaration**, in every text
  that is read without a diagnostic.
-/

namespace DocIndex

/-! ## Texts that are read without a diagnostic -/

namespace Outline

variable {s : Source} {r : Reading}

/-- A text that ends in the body of an enumeration has a flaw. -/
theorem notes_of_endsInEnum (hends : EndsInEnum s r)
    (hn : (readFrom s r.outline r.frames r.next).notes = []) : False := by
  rw [readFrom_step _ hends.lt] at hn
  have hstep := notes_of_readFrom hn
  rw [step_declaration _ _ hends.starts] at hstep
  have hread : readDeclaration s (scopeOf r.frames) r.next r.outline r.next false =
      (r.lead s).outline.readEnumeration s (scopeOf r.frames) r.next (r.lead s).index false :=
    (r.read_lead s _).trans hends.leaves.read_eq
  rw [hread, readEnumeration_eq] at hstep
  unfold readEnumerationFrom at hstep
  rw [if_pos hends.leaves.brace] at hstep
  have hclosed := (readEnumBody_sound hstep).1
  rw [Source.next_readEnumerators] at hclosed
  exact absurd hends.leaves.unclosed (Nat.not_le_of_lt hclosed)

/-- In a text without a flaw all cursors end with a lexeme. -/
theorem ended_of_notes {fileName : String} {macros : Macros}
    (hn : (ofSource fileName macros s).notes = []) : (ofSource fileName macros s).Ended s [] := by
  rcases ended_ofSource fileName macros s with hended | ⟨r, hcomes, hends, -⟩
  · exact hended
  · rw [ofSource, readFrom_comes hcomes] at hn
    exact (notes_of_endsInEnum hends hn).elim

end Outline

/-! ## Anchors as tokens -/

namespace SourceUnit

variable (u : SourceUnit)

/-- The cursor can be documented and starts no earlier than `offset`. -/
def Candidate (offset : Nat) (id : CursorId) : Prop :=
  offset ≤ (u.cursor id).extent.start.offset ∧ (u.cursor id).kind.canBeDocumented = true

instance (offset : Nat) (id : CursorId) : Decidable (u.Candidate offset id) :=
  inferInstanceAs (Decidable (_ ∧ _))

/-- The cursor can be documented and starts no earlier than `offset`, and none that does starts in
front of it. -/
def Nearest (offset : Nat) (id : CursorId) : Prop :=
  u.Candidate offset id ∧ ∀ other < u.cursors.size, u.Candidate offset other →
    (u.cursor id).extent.start.offset ≤ (u.cursor other).extent.start.offset

instance (offset : Nat) (id : CursorId) : Decidable (u.Nearest offset id) :=
  inferInstanceAs (Decidable (_ ∧ _))

/-- Each cursor that can be documented is met at a token of its own, before any such cursor that
begins later. -/
def Anchored : Prop :=
  ∀ id, (u.cursor id).kind.canBeDocumented = true → id < u.cursors.size ∧
    ∃ v ∈ u.tokens, v.cursor = id ∧ ∀ other, other ≠ id →
      (u.cursor other).kind.canBeDocumented = true →
        (u.cursor other).extent.start.offset < (u.cursor id).extent.start.offset ∨
          v.extent.start.offset < (u.cursor other).extent.start.offset

end SourceUnit

namespace Source

variable {s : Source} {o : Outline} {path : Path} {faults : List (Nat × LexFault)} {id : CursorId}
  {dues : List Due} {bound next : Nat}

/-- A cursor that can be documented comes from a draft, which is not the file's. -/
theorem draft_of_documented (h : o.Anchored s dues bound next)
    (hdoc : ((s.unitOf path faults o).cursor id).kind.canBeDocumented = true) :
    0 < id ∧ ∃ d, o.drafts[id]? = some d ∧ (s.unitOf path faults o).cursor id = s.cursorOf d := by
  have hfile : ((s.unitOf path faults o).cursor 0).kind.canBeDocumented = false := by
    obtain ⟨d, hd, hkind⟩ := h.file
    simp only [SourceUnit.cursor, unitOf, cursorsOf, Array.getD_eq_getD_getElem?,
      Array.getElem?_mapIdx, hd, Option.map_some, Option.getD_some, if_true]
    exact hkind
  have hpos : 0 < id := Nat.pos_of_ne_zero fun hzero => by rw [hzero, hfile] at hdoc; cases hdoc
  rcases Nat.lt_or_ge id o.drafts.size with hlt | hge
  · exact ⟨hpos, _, Array.getElem?_eq_getElem hlt,
      Printed.cursor_eq (Array.getElem?_eq_getElem hlt) hpos⟩
  · rw [SourceUnit.cursor_of_size_le (Printed.size_cursors ▸ hge), hfile] at hdoc
    cases hdoc

/-- A cursor that ends with a lexeme starts with its first. -/
theorem start_cursorOf {d : Draft} (hfirst : d.first ≤ d.last) (hlast : d.last < s.size) :
    ∃ a, s.lexemes[d.first]? = some a ∧ (s.cursorOf d).extent.start.offset = a.start := by
  have hlt := Nat.lt_of_le_of_lt hfirst hlast
  refine ⟨_, Array.getElem?_eq_getElem hlt, ?_⟩
  simp only [cursorOf, extentOf, Array.getElem?_eq_getElem hlt, Array.getElem?_eq_getElem hlast]
  rfl

/-- The anchors of an outline are tokens of its unit. -/
theorem anchored_unitOf (hs : s.Ordered) (hlaid : o.Laid s [] next)
    (h : o.Anchored s [] bound bound) (hended : o.Ended s []) (path : Path)
    (faults : List (Nat × LexFault)) : (s.unitOf path faults o).Anchored := by
  have hdraft {id : CursorId}
      (hdoc : ((s.unitOf path faults o).cursor id).kind.canBeDocumented = true) :
      ∃ d a, o.drafts[id]? = some d ∧ d.kind.canBeDocumented = true ∧
        s.lexemes[d.first]? = some a ∧
        ((s.unitOf path faults o).cursor id).extent.start.offset = a.start := by
    obtain ⟨hpos, d, hd, hcursor⟩ := draft_of_documented h hdoc
    rw [hcursor] at hdoc ⊢
    obtain ⟨a, ha, hstart⟩ := start_cursorOf (hlaid.closed id d hpos List.not_mem_nil hd).1
      ((hended.last id d hpos hd).resolve_right List.not_mem_nil)
    exact ⟨d, a, hd, hdoc, ha, hstart⟩
  have hlt {i j : Nat} {a b : Lexeme} (hij : i < j) (ha : s.lexemes[i]? = some a)
      (hb : s.lexemes[j]? = some b) : a.start < b.start :=
    Nat.lt_of_lt_of_le (hs.lt_stop ha).1 (hs.stop_le hij ha hb)
  intro id hdoc
  obtain ⟨d, a, hd, hkind, ha, hstart⟩ := hdraft hdoc
  obtain ⟨k, -, hk, -⟩ := h.anchor id d hd hkind
  have hsize : k < s.lexemes.size := h.lt_size_of_owned hk.owned
  have hget : s.lexemes[k]? = some s.lexemes[k] := Array.getElem?_eq_getElem hsize
  refine ⟨by rw [Printed.size_cursors]; exact (Array.getElem?_eq_some_iff.1 hd).1,
    s.tokenOf o k s.lexemes[k], ?_, ?_, fun other hother hother' => ?_⟩
  · apply Array.mem_of_getElem? (i := k)
    simp only [unitOf, Array.getElem?_mapIdx, hget, Option.map_some]
  · simp only [tokenOf, Array.getD_eq_getD_getElem?, hk.owned, Option.getD_some]
  · obtain ⟨e, b, he, hekind, hb, hestart⟩ := hdraft hother'
    rw [hstart, hestart]
    exact (hk.alone other e hother he hekind).imp (hlt · hb ha) (hlt · hget hb)

end Source

/-- **In a text that is read without a diagnostic, cursors are met at tokens of their own.** -/
theorem anchored_parseText {path : Path} {cs : List Char} {args : List String}
    (h : (parseText path cs args).diagnostics = []) : (parseText path cs args).Anchored := by
  obtain ⟨next, hlaid⟩ := Outline.laid_ofSource path.text (Macros.ofArguments args) (.ofText cs)
  obtain ⟨bound, hanchored⟩ :=
    Outline.anchored_ofSource path.text (Macros.ofArguments args) (.ofText cs)
  have hnotes : (Outline.ofSource path.text (Macros.ofArguments args) (.ofText cs)).notes = [] :=
    List.map_eq_nil_iff.1 (List.append_eq_nil_iff.1 h).2
  exact Source.anchored_unitOf (Source.ordered_ofText cs) hlaid hanchored
    (Outline.ended_of_notes hnotes) path _

/-! ## The nearest cursor -/

namespace SourceUnit

variable {u : SourceUnit} {offset : Nat} {id : CursorId} {t v : Token} {ts back : List Token}

/-- No two cursors are nearest: the one that is met first starts first. -/
theorem Anchored.nearest_unique (h : u.Anchored) (hu : ∀ t ∈ u.tokens,
      (u.cursor t.cursor).extent.start.offset ≤ t.extent.start.offset) {id' : CursorId}
    (hid : u.Nearest offset id) (hid' : u.Nearest offset id') : id' = id := by
  refine Decidable.byContradiction fun hne => ?_
  obtain ⟨hlt, v, hv, rfl, halone⟩ := h id hid.1.2
  have hle := hid.2 id' (h id' hid'.1.2).1 hid'.1
  have hle' := hid'.2 v.cursor hlt hid.1
  have howner := hu v hv
  rcases halone id' hne hid'.1.2 with hbefore | hbehind <;> omega

/-- There is a nearest cursor if there is any that fits. -/
theorem exists_nearest {id : CursorId} (hid : u.Candidate offset id) : ∃ c, u.Nearest offset c := by
  -- from a candidate go to one that starts earlier, as long as there is one
  generalize hn : (u.cursor id).extent.start.offset = n
  induction n using Nat.strongRecOn generalizing id with
  | ind n ih =>
    by_cases hmin : ∀ other < u.cursors.size, u.Candidate offset other →
        (u.cursor id).extent.start.offset ≤ (u.cursor other).extent.start.offset
    · exact ⟨id, hid, hmin⟩
    · simp only [Classical.not_forall, Nat.not_le] at hmin
      obtain ⟨other, -, hother, hlt⟩ := hmin
      exact ih _ (hn ▸ hlt) hother rfl

/-- A token of the cursor, and what comes behind it, that is met from the start of `ts` on with no
documentation up to it; it is the first one of its cursor. -/
def Reaches (ts : List Token) (c : CursorId) (v : Token) (back : List Token) : Prop :=
  v.cursor = c ∧ v.isDocLine = false ∧ ∃ front, ts = front ++ v :: back ∧
    ∀ w ∈ front, w.cursor ≠ c ∧ w.isDocLine = false

/-- What looking for a declaration leads to from the tokens `ts` on, the first of which starts at
`offset`. -/
structure FindsNearest (u : SourceUnit) (ts : List Token) (offset : Nat) (a : Attachment) :
    Prop where
  /-- The nearest cursor is found where a token of it comes before any documentation. The stream
  goes on behind the line that its signature ends on. -/
  found : ∀ c v back, u.Nearest offset c → Reaches ts c v back →
    a.declaration = some (u.declaration c) ∧
      u.tokens.toList.find? (fun w => w.cursor == c) = some v ∧
      a.stream.toList = back.dropWhile fun w =>
        w.extent.stop.line ≤ ((u.keptTokens c).getLastD v).extent.stop.line
  /-- Otherwise nothing is found, and the stream goes on with the documentation that is ahead. -/
  missed : (∀ c v back, u.Nearest offset c → ¬ Reaches ts c v back) →
    a.declaration = none ∧ a.stream.toList = ts.dropWhile fun w => !w.isDocLine

end SourceUnit

/-! ## Where the search stops -/

/-- What is cut off by a condition: what fulfils it in front of something that does not. -/
theorem dropWhile_front {p : Token → Bool} {front back : List Token}
    (hfront : ∀ w ∈ front, p w = true) (hback : ∀ w ∈ back.head?, p w = false) :
    (front ++ back).dropWhile p = back := by
  rw [List.dropWhile_append_of_pos hfront]
  cases back with
  | nil => rfl
  | cons w back => exact List.dropWhile_cons_of_neg (by simp [hback w rfl])

namespace SourceUnit

variable {u : SourceUnit} {offset : Nat} {w : Token}

/-- The search for a declaration passes over the token. -/
def passes (u : SourceUnit) (offset : Nat) (w : Token) : Bool :=
  !(w.isDocLine || decide (u.Candidate offset w.cursor))

theorem passes_iff : u.passes offset w = true ↔ w.isDocLine = false ∧ ¬ u.StartsAt offset w := by
  simp only [passes, Bool.not_eq_true', Bool.or_eq_false_iff, decide_eq_false_iff_not]
  rfl

theorem passes_eq_false (h : w.isDocLine = true ∨ u.StartsAt offset w) :
    u.passes offset w = false :=
  Bool.eq_false_iff.2 fun hpasses => by
    obtain ⟨hdoc, hstarts⟩ := passes_iff.1 hpasses
    rcases h with h | h
    · rw [h] at hdoc
      cases hdoc
    · exact hstarts h

end SourceUnit

open SourceUnit in
/-- A search comes to the first token that it does not pass over. -/
theorem Search.Sound.dropWhile_eq {u : SourceUnit} {offset : Nat} {s : Search} {after : List Token}
    (h : s.Sound u offset after) :
    (s.tokens ++ after).dropWhile (u.passes offset) =
      (s.found.map Prod.fst).toList ++ (s.skipped ++ after) := by
  have hpassed : ∀ t ∈ s.passed, u.passes offset t = true :=
    fun t ht => passes_iff.2 (h.passed t ht)
  rw [Search.tokens, List.append_assoc, List.append_assoc]
  refine dropWhile_front hpassed fun t ht => passes_eq_false ?_
  cases hfound : s.found with
  | none =>
    rw [Search.skipped, hfound] at ht
    exact .inl (h.missed hfound t ht)
  | some found =>
    rw [hfound] at ht
    obtain rfl : found.1 = t := Option.some.inj ht
    exact .inr (h.first _ (by rw [hfound]; rfl)).2

namespace SourceUnit

variable {u : SourceUnit} (hanchored : u.Anchored) (hu : u.WellFormed)
  (howner : ∀ t ∈ u.tokens, (u.cursor t.cursor).extent.start.offset ≤ t.extent.start.offset)
  {before ts : List Token} {t : Token} (htokens : u.tokens.toList = before ++ ts)
  (ht : ts.head? = some t) {c : CursorId} (hc : u.Nearest t.extent.start.offset c)

include hu howner htokens ht hc

/-- In front of the token that the search is begun at, nothing belongs to the nearest cursor. -/
theorem owner_before : ∀ w ∈ before, w.cursor ≠ c := by
  rintro w hw rfl
  have hmem : w ∈ u.tokens := Array.mem_toList_iff.1 (htokens ▸ List.mem_append_left ts hw)
  have hstart := howner w hmem
  have hapart := hu.tokens
  rw [htokens] at hapart
  have hlt := hapart.1 w (List.mem_append_left ts hw)
  have hle := hapart.stop_le hw (List.mem_of_mem_head? ht)
  have hfits := hc.1.1
  omega

/-- A token that the nearest cursor is reached at is the first one that belongs to it. -/
theorem find?_owner {front back : List Token} {v : Token} (hts : ts = front ++ v :: back)
    (hv : v.cursor = c) (hfront : ∀ w ∈ front, w.cursor ≠ c) :
    u.tokens.toList.find? (fun w => w.cursor == c) = some v := by
  have hnone {tokens : List Token} (h : ∀ w ∈ tokens, w.cursor ≠ c) :
      tokens.find? (fun w => w.cursor == c) = none :=
    List.find?_eq_none.2 fun w hw heq => h w hw (beq_iff_eq.1 heq)
  rw [htokens, hts, List.find?_append, hnone (owner_before hu howner htokens ht hc),
    Option.none_or, List.find?_append, hnone hfront, Option.none_or,
    List.find?_cons_of_pos (by exact beq_iff_eq.2 hv)]

include hanchored

/-- **The first token behind the start of the search whose owner fits belongs to the nearest
cursor**: the anchor of that one would come before a token of any other. -/
theorem owner_of_startsAt {front back : List Token} {w : Token} (hts : ts = front ++ w :: back)
    (hfront : ∀ v ∈ front, v.cursor ≠ c) (hw : u.StartsAt t.extent.start.offset w) :
    w.cursor = c := by
  refine Decidable.byContradiction fun hne => ?_
  have hapart := hu.tokens
  rw [htokens] at hapart
  have hmem {v : Token} (hv : v ∈ ts) : v ∈ u.tokens :=
    Array.mem_toList_iff.1 (htokens ▸ List.mem_append_right before hv)
  have hwts : w ∈ ts := by
    rw [hts]
    exact List.mem_append_right front List.mem_cons_self
  have hle := hc.2 w.cursor (hanchored w.cursor hw.2).1 hw
  have hstart := howner w (hmem hwts)
  obtain ⟨-, v, hv, hvc, halone⟩ := hanchored c hc.1.2
  rcases halone w.cursor hne hw.2 with hbefore | hbehind
  · omega
  -- the anchor is no earlier than `w`, whose owner begins behind the anchor
  have hvts : v ∈ ts := by
    rw [← Array.mem_toList_iff, htokens] at hv
    exact (List.mem_append.1 hv).resolve_left fun hv =>
      owner_before hu howner htokens ht hc v hv hvc
  have hlate : w.extent.start.offset ≤ v.extent.start.offset := by
    rw [hts] at hvts
    have hrest := (hts ▸ hapart.right).right
    exact hrest.head_le rfl ((List.mem_append.1 hvts).resolve_left fun hv => hfront v hv hvc)
  omega

/-- Up to the token that the nearest cursor is reached at, the search passes over everything. -/
theorem dropWhile_passes {front back : List Token} {v : Token} (hts : ts = front ++ v :: back)
    (hv : v.cursor = c) (hfront : ∀ w ∈ front, w.cursor ≠ c ∧ w.isDocLine = false) :
    ts.dropWhile (u.passes t.extent.start.offset) = v :: back := by
  have hstarts : u.StartsAt t.extent.start.offset v := by
    unfold StartsAt
    rw [hv]
    exact hc.1
  rw [hts]
  refine dropWhile_front (fun w hw => passes_iff.2 ⟨(hfront w hw).2, fun hwstarts => ?_⟩)
    fun w hw => ?_
  · -- a token that fits would belong to the nearest cursor, which comes only behind the front
    obtain ⟨front₁, front₂, rfl⟩ := List.append_of_mem hw
    refine (hfront w hw).1 (owner_of_startsAt hanchored hu howner htokens ht hc
      (?_ : ts = front₁ ++ w :: (front₂ ++ v :: back)) ?_ hwstarts)
    · rw [hts, List.append_assoc]
      rfl
    · exact fun v' hv' => (hfront v' (List.mem_append_left _ hv')).1
  · obtain rfl : v = w := Option.some.inj hw
    exact passes_eq_false (.inr hstarts)

omit hc

/-- **The search finds the nearest cursor.** -/
theorem findsNearest {stream : TokenStream} {a : Attachment} (hstream : stream.toList = ts)
    (ha : u.nextDeclaration stream = .ok a) : u.FindsNearest ts t.extent.start.offset a := by
  obtain ⟨s, hl, hdeclaration, -, hs⟩ := of_nextDeclaration ha (hstream ▸ ht)
  have hcut := hs.dropWhile_eq
  rw [← hl, hstream] at hcut
  rw [hstream] at hl
  constructor
  · rintro c v back hc ⟨hvc, hvdoc, front, hts, hfront⟩
    have hfirst := find?_owner hu howner htokens ht hc hts hvc fun w hw => (hfront w hw).1
    rw [dropWhile_passes hanchored hu howner htokens ht hc hts hvc hfront] at hcut
    cases hfound : s.found with
    | none =>
      -- what is left would begin with `v`, which is no documentation
      rw [Search.skipped, hfound] at hcut
      have hdoc := hs.missed hfound v (by rw [← show v :: back = a.stream.toList from hcut]; rfl)
      rw [hdoc] at hvdoc
      cases hvdoc
    | some found =>
      have hmem : found.1 ∈ s.found.map Prod.fst := by rw [hfound]; rfl
      rw [hfound] at hcut
      obtain ⟨rfl, rfl⟩ : v = found.1 ∧ back = s.skipped ++ a.stream.toList := List.cons.inj hcut
      obtain ⟨hskipped, hafter⟩ := hs.skipped _ hmem
      rw [signatureEnd, hvc] at hskipped hafter
      refine ⟨?_, hfirst, ?_⟩
      · rw [hdeclaration, Search.declaration, hfound, ← hvc]
        rfl
      · exact (dropWhile_front (fun w hw => decide_eq_true (hskipped w hw)) fun w hw =>
          decide_eq_false (Nat.not_le_of_lt (hafter w hw))).symm
  · intro hnone
    cases hfound : s.found with
    | none =>
      rw [hdeclaration, Search.declaration, hfound]
      refine ⟨rfl, ?_⟩
      rw [hl, Search.tokens, Search.skipped, hfound]
      simp only [Option.map_none, Option.toList_none, Option.getD_none, List.append_nil]
      exact (dropWhile_front (fun w hw => by simp [(hs.passed w hw).1]) fun w hw => by
        simp [hs.missed hfound w hw]).symm
    | some found =>
      -- what is found would be a token of the nearest cursor
      have hmem : found.1 ∈ s.found.map Prod.fst := by rw [hfound]; rfl
      obtain ⟨hdoc, hstarts⟩ := hs.first _ hmem
      obtain ⟨c, hc⟩ := exists_nearest (show u.Candidate _ found.1.cursor from hstarts)
      have hts : ts = s.passed ++ found.1 :: (s.skipped ++ a.stream.toList) := by
        rw [hl, Search.tokens, hfound]
        simp
      have hpassed : ∀ w ∈ s.passed, w.cursor ≠ c := by
        rintro w hw rfl
        exact (hs.passed w hw).2 hc.1
      exact (hnone c found.1 _ hc ⟨owner_of_startsAt hanchored hu howner htokens ht hc hts hpassed
        hstarts, hdoc, s.passed, hts, fun w hw => ⟨hpassed w hw, (hs.passed w hw).1⟩⟩).elim

end SourceUnit

open SourceUnit

/-- **The search for a declaration finds the nearest one**, wherever in a text it is begun that is
read without a diagnostic. Of the cursors that fit one starts first, if there are any. That one is
found, and nothing else is, where a token of it comes before the next documentation. -/
theorem nextDeclaration_nearest (path : Path) (cs : List Char) (args : List String)
    (h : (parseText path cs args).diagnostics = []) :
    let u := parseText path cs args
    (∀ offset id, u.Candidate offset id →
      ∃ c, u.Nearest offset c ∧ ∀ c', u.Nearest offset c' → c' = c) ∧
    ∀ (stream : TokenStream) (before : List Token) (t : Token) (rest : List Token),
      stream.toList = t :: rest → u.tokens.toList = before ++ stream.toList →
        ∃ a, u.nextDeclaration stream = .ok a ∧
          u.FindsNearest stream.toList t.extent.start.offset a := by
  have hanchored := anchored_parseText h
  have hu := wellFormed_parseText path cs args
  have howner : ∀ t ∈ (parseText path cs args).tokens,
      ((parseText path cs args).cursor t.cursor).extent.start.offset ≤ t.extent.start.offset :=
    fun t ht => Source.start_owner_le hu ht
  refine ⟨fun offset id hid => ?_, fun stream before t rest hstream htokens => ?_⟩
  · obtain ⟨c, hc⟩ := exists_nearest hid
    exact ⟨c, hc, fun c' hc' => hanchored.nearest_unique howner hc hc'⟩
  · obtain ⟨a, ha⟩ := (parseText path cs args).exists_nextDeclaration stream
    exact ⟨a, ha, findsNearest hanchored hu howner htokens (by rw [hstream]; rfl) rfl ha⟩

/-- A class with two members, the second of which begins with the name of the class. -/
def listText : List Char :=
  "struct S \x7b\n  int a;\n  S *b;\n\x7d;\n".toList

/-- The tokens from the name of the first member on. -/
def insideFirst : List Token :=
  (parseText ⟨"t.hxx"⟩ listText []).tokens.toList.drop 4

/-- From within the first member the second is found, and not the class around. -/
theorem nextDeclaration_nearest_member :
    (parseText ⟨"t.hxx"⟩ listText []).diagnostics = [] ∧
      ∃ a, (parseText ⟨"t.hxx"⟩ listText []).nextDeclaration (.ofList insideFirst) = .ok a ∧
        a.declaration = some ⟨.member, "S *b", "S", .fieldDecl⟩ ∧
        a.stream.toList.map Token.spelling = ["\x7d", ";"] := by
  have hread : (parseText ⟨"t.hxx"⟩ listText []).diagnostics = [] := by decide +kernel
  have hnearest : (parseText ⟨"t.hxx"⟩ listText []).Nearest 17 3 := by decide +kernel
  obtain ⟨a, ha, hfinds⟩ := (nextDeclaration_nearest ⟨"t.hxx"⟩ listText [] hread).2
    (.ofList insideFirst) ((parseText ⟨"t.hxx"⟩ listText []).tokens.toList.take 4)
    ⟨"a", .identifier, ⟨⟨2, 7, 17⟩, ⟨2, 8, 18⟩⟩, 2⟩ (insideFirst.drop 1) (by decide +kernel)
    (List.take_append_drop 4 _).symm
  obtain ⟨hdeclaration, -, hstream⟩ := hfinds.found 3
    ⟨"S", .identifier, ⟨⟨3, 3, 22⟩, ⟨3, 4, 23⟩⟩, 3⟩ (insideFirst.drop 3) hnearest
    ⟨rfl, rfl, insideFirst.take 2, by decide +kernel, by decide +kernel⟩
  refine ⟨hread, a, ha, ?_, ?_⟩
  · rw [hdeclaration]
    decide +kernel
  · rw [hstream]
    decide +kernel

end DocIndex
