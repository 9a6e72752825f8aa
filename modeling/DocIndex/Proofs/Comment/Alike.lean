import DocIndex.Proofs.Comment.Reworded

/-!
# What a comment says does not change what it is attached to

Two scans of units that are the same but for what their documentation lines say cut the tokens at
the same places (`Cut.alike`). Each cut is found from kinds, places and owners alone: where a run of
lines begins and ends, whether its comment floats, and where the declaration behind it is.

* `forall₂_cut` — lists that are related are cut in two at the same place by a condition that the
  relation keeps; `Opens.alike`, `Search.alike` are the cuts of a passage.
* `Passage.Alike` — what two passages have in common.
* `passage_alike` — one passage; `Cut.alike` — all of a file.
* `scan_reworded` — **both scans read the same comments, and attach them to the same
  declarations.**
-/

namespace DocIndex

/-! ## Cutting two lists -/

/-- Lists that are related are cut at the same place, where a condition that the relation keeps
first fails. -/
theorem forall₂_cut {α : Type} {R : α → α → Prop} {P P' : α → Prop} {as bs as' bs' : List α}
    (h : List.Forall₂ R (as ++ bs) (as' ++ bs')) (hR : ∀ x x', R x x' → (P' x' ↔ P x))
    (has : ∀ x ∈ as, P x) (hbs : ∀ x ∈ bs.head?, ¬P x) (has' : ∀ x ∈ as', P' x)
    (hbs' : ∀ x ∈ bs'.head?, ¬P' x) : List.Forall₂ R as as' ∧ List.Forall₂ R bs bs' := by
  induction as generalizing as' with
  | nil =>
    cases as' with
    | nil => exact ⟨.nil, h⟩
    | cons x' as' =>
      -- what is in front on the one side stands behind on the other
      cases bs with
      | nil => cases h
      | cons x bs =>
        cases h with
        | cons hx _ => exact absurd ((hR _ _ hx).1 (has' _ List.mem_cons_self)) (hbs x rfl)
  | cons x as ih =>
    cases as' with
    | nil =>
      cases bs' with
      | nil => cases h
      | cons x' bs' =>
        cases h with
        | cons hx _ => exact absurd ((hR _ _ hx).2 (has _ List.mem_cons_self)) (hbs' x' rfl)
    | cons x' as' =>
      cases h with
      | cons hx hrest =>
        obtain ⟨hl, hr⟩ := ih hrest (fun y hy => has y (List.mem_cons_of_mem _ hy))
          (fun y hy => has' y (List.mem_cons_of_mem _ hy))
        exact ⟨.cons hx hl, hr⟩

/-! ## Runs -/

/-- A run goes on through the token. -/
def GoesOn (line : Nat) (t : Token) : Prop :=
  t.kind = .comment ∧ t.extent.start.line ≤ line ∧ (t.isDocLine = true ∨ t.isBlock = false)

theorem Token.Reworded.goesOn_iff {line : Nat} {t t' : Token} (h : t.Reworded t') :
    GoesOn line t' ↔ GoesOn line t := by
  cases hdoc : t.isDocLine with
  | false => rw [h.eq_of_plain hdoc]
  | true =>
    simp only [GoesOn, h.kind, h.extent, h.isDocLine_eq, hdoc, true_or]

theorem EndsRun.not_goesOn {line : Nat} {t : Token} (h : EndsRun line t) : ¬GoesOn line t := by
  rintro ⟨hkind, hline, -⟩
  rcases h with h | h
  · exact h hkind
  · omega

theorem Interrupts.not_goesOn {line : Nat} {t : Token} (h : Interrupts line t) :
    ¬GoesOn line t := by
  rintro ⟨-, -, hdoc | hblock⟩
  · rw [h.2.2.1] at hdoc
    cases hdoc
  · rw [h.2.2.2] at hblock
    cases hblock

/-- What interrupts a run does not end it. -/
theorem Interrupts.not_endsRun {line : Nat} {t : Token} (h : Interrupts line t) :
    ¬EndsRun line t := by
  rintro (hkind | hline)
  · exact hkind h.1
  · exact Nat.not_lt_of_le h.2.1 hline

theorem Token.Reworded.endsRun_iff {line : Nat} {t t' : Token} (h : t.Reworded t') :
    EndsRun line t' ↔ EndsRun line t := by
  rw [EndsRun, EndsRun, h.kind, h.extent]

/-- Comments that open at the same place go on to the same line. -/
theorem lineBehind_reworded {opening opening' : Token} {more more' : List Token}
    (hopening : opening.Reworded opening') (hmore : List.Forall₂ Token.Reworded more more') :
    lineBehind (opening'.extent.stop.line + 1) more' =
      lineBehind (opening.extent.stop.line + 1) more := by
  rw [hopening.extent]
  unfold lineBehind
  generalize opening.extent.stop.line + 1 = line
  induction hmore generalizing line with
  | nil => rfl
  | cons ht _ ih => rw [List.foldl_cons, List.foldl_cons, ht.extent, ih]

/-- What comes behind the one comment ends its run if what comes behind the other one does. -/
theorem ends_iff {opening opening' : Token} {more more' rest rest' : List Token}
    (hopening : opening.Reworded opening') (hmore : List.Forall₂ Token.Reworded more more')
    (hrest : List.Forall₂ Token.Reworded rest rest') :
    (∀ t ∈ rest'.head?, EndsRun (lineBehind (opening'.extent.stop.line + 1) more') t) ↔
      ∀ t ∈ rest.head?, EndsRun (lineBehind (opening.extent.stop.line + 1) more) t := by
  rw [lineBehind_reworded hopening hmore]
  cases hrest with
  | nil => exact Iff.rfl
  | cons ht _ => simp only [List.head?_cons, Option.mem_some_iff, forall_eq', ht.endsRun_iff]

/-- Runs go on through the same tokens. -/
theorem run_alike {line : Nat} {more more' rest rest' : List Token}
    (h : List.Forall₂ Token.Reworded (more ++ rest) (more' ++ rest'))
    (hmore : Continues line more) (hmore' : Continues line more')
    (hrest : ∀ t ∈ rest.head?, ¬GoesOn (lineBehind line more) t)
    (hrest' : ∀ t ∈ rest'.head?, ¬GoesOn (lineBehind line more') t) :
    List.Forall₂ Token.Reworded more more' ∧ List.Forall₂ Token.Reworded rest rest' := by
  induction more generalizing line more' with
  | nil =>
    cases more' with
    | nil => exact ⟨.nil, h⟩
    | cons t' more' =>
      cases rest with
      | nil => cases h
      | cons t rest =>
        cases h with
        | cons ht _ =>
          obtain ⟨hkind, hline, hread, -⟩ := hmore'
          exact absurd (ht.goesOn_iff.1 ⟨hkind, hline, hread⟩) (hrest t rfl)
  | cons t more ih =>
    obtain ⟨hkind, hline, hread, hmore⟩ := hmore
    cases more' with
    | nil =>
      cases rest' with
      | nil => cases h
      | cons t' rest' =>
        cases h with
        | cons ht _ => exact absurd (ht.goesOn_iff.2 ⟨hkind, hline, hread⟩) (hrest' t' rfl)
    | cons t' more' =>
      cases h with
      | cons ht htail =>
        -- both runs go on behind the same line
        obtain ⟨-, -, -, hmore'⟩ := hmore'
        have hnext : t'.extent.stop.line + 1 = t.extent.stop.line + 1 := by rw [ht.extent]
        obtain ⟨hl, hr⟩ := ih htail hmore (hnext ▸ hmore') hrest (hnext ▸ hrest')
        exact ⟨.cons ht hl, hr⟩

/-- Tokens without documentation, the first line of a comment, the rest of its run, and what the run
does not go on through. -/
structure Opens (before : List Token) (opening : Token) (more rest : List Token) : Prop where
  plain : ∀ t ∈ before, t.isDocLine = false
  documents : opening.isDocLine = true
  goesOn : Continues (opening.extent.stop.line + 1) more
  stops : ∀ t ∈ rest.head?, ¬GoesOn (lineBehind (opening.extent.stop.line + 1) more) t

theorem Opens.interrupted {before more rest : List Token} {opening block : Token}
    (hbefore : ∀ t ∈ before, t.isDocLine = false) (hopening : opening.isDocLine = true)
    (hmore : Continues (opening.extent.stop.line + 1) more)
    (hblock : Interrupts (lineBehind (opening.extent.stop.line + 1) more) block) :
    Opens before opening more (block :: rest) := by
  refine ⟨hbefore, hopening, hmore, ?_⟩
  rintro t ⟨⟩
  exact hblock.not_goesOn

/-- **A run of lines is cut out at the same place.** -/
theorem Opens.alike {before before' more more' rest rest' : List Token} {opening opening' : Token}
    (h : Opens before opening more rest) (h' : Opens before' opening' more' rest')
    (ht : List.Forall₂ Token.Reworded (before ++ opening :: (more ++ rest))
      (before' ++ opening' :: (more' ++ rest'))) :
    List.Forall₂ Token.Reworded before before' ∧ opening.Reworded opening' ∧
      List.Forall₂ Token.Reworded more more' ∧ List.Forall₂ Token.Reworded rest rest' := by
  have plain {opening : Token} {tail : List Token} (hdoc : opening.isDocLine = true) :
      ∀ t ∈ (opening :: tail).head?, ¬t.isDocLine = false := by
    rintro t ⟨⟩ hplain
    rw [hdoc] at hplain
    cases hplain
  obtain ⟨hbefore, htail⟩ := forall₂_cut ht (fun t t' hR => by rw [hR.isDocLine_eq]) h.plain
    (plain h.documents) h'.plain (plain h'.documents)
  cases htail with
  | cons hopening htail =>
    have hline : opening'.extent.stop.line + 1 = opening.extent.stop.line + 1 := by
      rw [hopening.extent]
    obtain ⟨hmore, hrest⟩ := run_alike htail h.goesOn (hline ▸ h'.goesOn) h.stops
      (hline ▸ h'.stops)
    exact ⟨hbefore, hopening, hmore, hrest⟩

/-! ## Searches -/

variable {u u' : SourceUnit} {options : ScanOptions}

/-- The tokens behind those that a search passes over. -/
def Search.behind (s : Search) (after : List Token) : List Token :=
  (s.found.map Prod.fst).toList ++ (s.skipped ++ after)

theorem Search.tokens_append (s : Search) (after : List Token) :
    s.tokens ++ after = s.passed ++ s.behind after := by
  simp only [tokens, behind, List.append_assoc]

/-- A search stops at a documentation line or at the declaration that it finds. -/
theorem Search.Sound.stops {offset : Nat} {s : Search} {after : List Token}
    (h : s.Sound u offset after) :
    ∀ t ∈ (s.behind after).head?, ¬(t.isDocLine = false ∧ ¬u.StartsAt offset t) := by
  obtain ⟨passed, found⟩ := s
  cases found with
  | none =>
    rintro t ht ⟨hplain, -⟩
    rw [h.missed rfl t ht] at hplain
    cases hplain
  | some r =>
    rintro t ⟨⟩ ⟨-, hstarts⟩
    exact hstarts (h.first r.1 rfl).2

/-- **A search stops at the same token**, and what it finds is the same declaration. -/
theorem Search.alike (hu : u.Reworded u') {offset : Nat} {s s' : Search}
    {after after' : List Token} (h : s.Sound u offset after) (h' : s'.Sound u' offset after')
    (ht : List.Forall₂ Token.Reworded (s.tokens ++ after) (s'.tokens ++ after')) :
    s'.declaration u' = s.declaration u ∧ List.Forall₂ Token.Reworded s.tokens s'.tokens ∧
      List.Forall₂ Token.Reworded after after' := by
  rw [s.tokens_append, s'.tokens_append] at ht
  obtain ⟨hpassed, hbehind⟩ := forall₂_cut ht
    (fun t t' hR => by rw [hR.isDocLine_eq, hu.startsAt_iff hR]) h.passed h.stops h'.passed h'.stops
  obtain ⟨passed, found⟩ := s
  obtain ⟨passed', found'⟩ := s'
  cases found with
  | none =>
    cases found' with
    | none => exact ⟨rfl, List.rel_append hpassed .nil, hbehind⟩
    | some r' =>
      cases after with
      | nil => cases hbehind
      | cons t after =>
        cases hbehind with
        | cons hR _ =>
          -- a documentation line is no first token of a declaration
          have hdoc := h.missed rfl t rfl
          rw [← hR.isDocLine_eq, (h'.first r'.1 rfl).1] at hdoc
          cases hdoc
  | some r =>
    cases found' with
    | none =>
      cases after' with
      | nil => cases hbehind
      | cons t' after' =>
        cases hbehind with
        | cons hR _ =>
          have hdoc := h'.missed rfl t' rfl
          rw [hR.isDocLine_eq, (h.first r.1 rfl).1] at hdoc
          cases hdoc
    | some r' =>
      obtain ⟨first, skipped⟩ := r
      obtain ⟨first', skipped'⟩ := r'
      cases hbehind with
      | cons hR htail =>
        -- what is skipped ends no later than the signature
        have hend := hu.signatureEnd_eq hR
        obtain ⟨hskipped, hskip⟩ := h.skipped first rfl
        obtain ⟨hskipped', hskip'⟩ := h'.skipped first' rfl
        have htail : List.Forall₂ Token.Reworded (skipped ++ after) (skipped' ++ after') := htail
        obtain ⟨hinner, hafter⟩ := forall₂_cut htail
          (fun t t' hR => by rw [hR.extent, hend]) hskipped
          (fun t ht => Nat.not_le_of_lt (hskip t ht)) hskipped'
          (fun t ht => Nat.not_le_of_lt (hskip' t ht))
        have hdeclaration : u'.declaration first'.cursor = u.declaration first.cursor := by
          rw [hR.cursor, hu.declaration_eq]
        exact ⟨congrArg some hdeclaration, List.rel_append hpassed (.cons hR hinner), hafter⟩

/-! ## Passages -/

/-- Comments go the same way: under the same directive, scope and signature, or both float, or both
are dropped. -/
def Filed.SameWay : Filed → Filed → Prop
  | .directive d, .directive d' => d'.context = d.context ∧ d'.signature = d.signature
  | .floating _, .floating _ => True
  | .dropped, .dropped => True
  | _, _ => False

/-- The comment that is kept. -/
def Filed.comment? : Filed → Option Comment
  | .directive d => some d.comment
  | .floating c => some c
  | .dropped => none

/-- The passages take the same tokens for the same run, in front of the same declaration. -/
structure Passage.Alike (u u' : SourceUnit) (p p' : Passage) : Prop where
  before : List.Forall₂ Token.Reworded p.before p'.before
  run : List.Forall₂ Token.Reworded p.run p'.run
  search : List.Forall₂ Token.Reworded p.search.tokens p'.search.tokens
  nextLine : (p'.comment u').nextLine = (p.comment u).nextLine
  declaration : p'.search.declaration u' = p.search.declaration u
  /-- Comments that are kept in both are attached to a cursor of the same kind or both to none. -/
  kind : ∀ c ∈ p.filed.comment?, ∀ c' ∈ p'.filed.comment?, c'.kind = c.kind
  /-- Comments that spell out no directive go the same way. -/
  sameWay : (p.comment u).explicit? = none → (p'.comment u').explicit? = none →
    p.filed.SameWay p'.filed
  /-- A comment that says the same is filed as it was. -/
  unchanged : p'.run = p.run → p'.filed = p.filed

/-- Which way a comment goes that spells out no directive does not depend on what it says. -/
theorem sameWay_fileComment {options : ScanOptions} {moduleName : String} {c c' : Comment}
    {floating : Bool} {declaration : Option Declaration} (hc : c.explicit? = none)
    (hc' : c'.explicit? = none) :
    (fileComment options moduleName c floating declaration).SameWay
      (fileComment options moduleName c' floating declaration) := by
  unfold fileComment
  rw [hc, hc']
  cases declaration with
  | none => cases floating <;> exact trivial
  | some d =>
    dsimp only
    cases d.category.directive? with
    | none => exact trivial
    | some directive => exact ⟨rfl, rfl⟩

/-- A comment that is kept knows the kind of the declaration that it is attached to. -/
theorem kind_of_policy {options : ScanOptions} {moduleName : String} {c : Comment} {floats : Prop}
    {declaration : Option Declaration} {filed : Filed}
    (h : Policy options moduleName c floats declaration filed) :
    ∀ c' ∈ filed.comment?, c'.kind = declaration.map (·.kind) := by
  cases h with
  | explicit =>
    rintro c' ⟨⟩
    rfl
  | inferred _ hd =>
    rintro c' ⟨⟩
    rw [hd]
    rfl
  | floating _ hd =>
    rintro c' ⟨⟩
    rw [hd]
    rfl
  | dropped => nofun

/-- What a passage files is what is filed for its comment. -/
theorem Passage.Sound.filed_eq {p : Passage} {after : List Token} (h : p.Sound u options after) :
    ∃ floating : Bool, (floating = true ↔ p.Floats u after) ∧
      fileComment options (u.moduleName.getD "") (p.comment u) floating (p.search.declaration u) =
        p.filed := by
  classical
  refine ⟨decide (p.Floats u after), decide_eq_true_iff, (policy_iff fun hf => ?_).1 ?_⟩
  · rw [h.floats (of_decide_eq_true hf)]
    rfl
  · rw [propext (decide_eq_true_iff (p := p.Floats u after))]
    exact h.filed

theorem Passage.Sound.opens {p : Passage} {after : List Token} (h : p.Sound u options after) :
    Opens p.before p.opening p.more (p.search.tokens ++ after) :=
  ⟨h.before, h.opening, h.more, fun t ht => (h.ends t ht).not_goesOn⟩

theorem Passage.tokens_append (p : Passage) (after : List Token) :
    p.tokens ++ after = p.before ++ p.opening :: (p.more ++ (p.search.tokens ++ after)) := by
  simp only [tokens, run, List.append_assoc, List.cons_append]

/-- Comments that end in front of the same line float in front of the same tokens. -/
theorem Passage.floats_iff {p p' : Passage} {after after' : List Token}
    (hnextLine : (p'.comment u').nextLine = (p.comment u).nextLine)
    (hrest : List.Forall₂ Token.Reworded (p.search.tokens ++ after) (p'.search.tokens ++ after')) :
    p'.Floats u' after' ↔ p.Floats u after := by
  unfold Passage.Floats
  rw [hnextLine]
  generalize p.search.tokens ++ after = ts at hrest
  generalize p'.search.tokens ++ after' = ts' at hrest
  cases hrest with
  | nil => exact Iff.rfl
  | cons hR _ => simp only [List.head?_cons, Option.mem_some_iff, forall_eq', hR.extent]

/-- Behind comments of which both float or neither does, the same is looked for. -/
theorem Passage.Sound.search_alike (hu : u.Reworded u') {p p' : Passage}
    {after after' : List Token} (h : p.Sound u options after) (h' : p'.Sound u' options after')
    (hfloats : p'.Floats u' after' ↔ p.Floats u after)
    (hrest : List.Forall₂ Token.Reworded (p.search.tokens ++ after) (p'.search.tokens ++ after')) :
    p'.search.declaration u' = p.search.declaration u ∧
      List.Forall₂ Token.Reworded p.search.tokens p'.search.tokens ∧
      List.Forall₂ Token.Reworded after after' := by
  by_cases hf : p.Floats u after
  · rw [h.floats hf, h'.floats (hfloats.2 hf)] at hrest ⊢
    exact ⟨rfl, .nil, hrest⟩
  · obtain ⟨next, hnext, hs⟩ := h.seeks hf
    obtain ⟨next', hnext', hs'⟩ := h'.seeks fun hf' => hf (hfloats.1 hf')
    -- both searches set out from the same offset
    have hoffset : next'.extent.start.offset = next.extent.start.offset := by
      generalize p.search.tokens ++ after = ts at hrest hnext
      generalize p'.search.tokens ++ after' = ts' at hrest hnext'
      cases hrest with
      | nil => cases hnext
      | cons hR _ =>
        cases hnext
        cases hnext'
        rw [hR.extent]
    exact Search.alike hu hs (hoffset ▸ hs') hrest

/-- **One passage is cut out at the same place**, and what is behind it is related. -/
theorem passage_alike (hu : u.Reworded u') {p p' : Passage} {after after' : List Token}
    (h : p.Sound u options after) (h' : p'.Sound u' options after')
    (ht : List.Forall₂ Token.Reworded (p.tokens ++ after) (p'.tokens ++ after')) :
    p.Alike u u' p' ∧ List.Forall₂ Token.Reworded after after' := by
  rw [p.tokens_append, p'.tokens_append] at ht
  obtain ⟨hbefore, hopening, hmore, hrest⟩ := h.opens.alike h'.opens ht
  have hnextLine : (p'.comment u').nextLine = (p.comment u).nextLine :=
    lineBehind_reworded hopening hmore
  have hfloats := Passage.floats_iff hnextLine hrest
  obtain ⟨hdeclaration, hsearch, hafter⟩ := h.search_alike hu h' hfloats hrest
  -- both are filed for the same declaration
  obtain ⟨floating, hfloating, hfiled⟩ := h.filed_eq
  obtain ⟨floating', hfloating', hfiled'⟩ := h'.filed_eq
  obtain rfl : floating' = floating := by
    rw [Bool.eq_iff_iff, hfloating', hfloating, hfloats]
  rw [hu.moduleName, hdeclaration] at hfiled'
  refine ⟨⟨hbefore, .cons hopening hmore, hsearch, hnextLine, hdeclaration, ?_, ?_, ?_⟩, hafter⟩
  · intro c hc c' hc'
    rw [kind_of_policy h.filed c hc, kind_of_policy h'.filed c' hc', hdeclaration]
  · intro hplain hplain'
    rw [← hfiled, ← hfiled']
    exact sameWay_fileComment hplain hplain'
  · intro hrun
    have hcomment : p'.comment u' = p.comment u :=
      Comment.mk.injEq .. ▸ ⟨hu.path, hnextLine,
        congrArg (fun run => (run.filter Token.isDocLine).map Token.spelling) hrun, rfl⟩
    rw [← hfiled, ← hfiled', hcomment]

/-! ## The whole file -/

/-- There is documentation in the one list where there is in the other. -/
theorem plain_iff {ts ts' : List Token} (h : List.Forall₂ Token.Reworded ts ts') :
    (∀ t ∈ ts', t.isDocLine = false) ↔ ∀ t ∈ ts, t.isDocLine = false := by
  induction h with
  | nil => exact Iff.rfl
  | cons ht _ ih => rw [List.forall_mem_cons, List.forall_mem_cons, ht.isDocLine_eq, ih]

/-- Tokens are not without documentation where a comment opens. -/
theorem Opens.not_plain {before more rest : List Token} {opening : Token}
    (h : Opens before opening more rest) :
    ¬∀ t ∈ before ++ opening :: (more ++ rest), t.isDocLine = false := by
  intro hplain
  have hopening := hplain opening (List.mem_append_right _ List.mem_cons_self)
  rw [h.documents] at hopening
  cases hopening

/-- **Two cuts of a file are cut at the same places**, and end in the same way. -/
theorem Cut.alike (hu : u.Reworded u') {tokens tokens' : List Token} {ps ps' : List Passage}
    {ending ending' : Option Location} (h : Cut u options tokens ps ending)
    (h' : Cut u' options tokens' ps' ending') (ht : List.Forall₂ Token.Reworded tokens tokens') :
    List.Forall₂ (Passage.Alike u u') ps ps' ∧ ending' = ending := by
  induction h generalizing tokens' ps' with
  | done hplain =>
    have hplain' := (plain_iff ht).2 hplain
    cases h' with
    | done => exact ⟨.nil, rfl⟩
    | @interrupted before more rest opening block hbefore hopening hmore hblock =>
      have hopens : Opens before opening more (block :: rest) :=
        .interrupted hbefore hopening hmore hblock
      exact absurd hplain' hopens.not_plain
    | next hp =>
      rw [Passage.tokens_append] at hplain'
      exact absurd hplain' hp.opens.not_plain
  | @interrupted before more rest opening block hbefore hopening hmore hblock =>
    have hopens : Opens before opening more (block :: rest) :=
      .interrupted hbefore hopening hmore hblock
    cases h' with
    | done hplain' => exact absurd ((plain_iff ht).1 hplain') hopens.not_plain
    | interrupted hbefore' hopening' hmore' hblock' =>
      obtain ⟨-, -, -, hrest⟩ :=
        hopens.alike (.interrupted hbefore' hopening' hmore' hblock') ht
      cases hrest with
      | cons hR _ => exact ⟨.nil, by rw [hu.path, hR.extent]⟩
    | @next p' after' _ _ hp' _ =>
      -- what stops the one scan would end the run of the other
      rw [p'.tokens_append] at ht
      obtain ⟨-, hR, hruns, hrest⟩ := hopens.alike hp'.opens ht
      exact absurd ((ends_iff hR hruns hrest).1 hp'.ends block rfl) hblock.not_endsRun
  | @next p after ps ending hp _ ih =>
    cases h' with
    | done hplain' =>
      have hplain := (plain_iff ht).1 hplain'
      rw [p.tokens_append] at hplain
      exact absurd hplain hp.opens.not_plain
    | @interrupted _ _ _ _ block' hbefore' hopening' hmore' hblock' =>
      rw [p.tokens_append] at ht
      obtain ⟨-, hR, hruns, hrest⟩ :=
        hp.opens.alike (.interrupted hbefore' hopening' hmore' hblock') ht
      exact absurd ((ends_iff hR hruns hrest).2 hp.ends block' rfl) hblock'.not_endsRun
    | next hp' h' =>
      obtain ⟨halike, hafter⟩ := passage_alike hu hp hp' ht
      obtain ⟨hps, hending⟩ := ih h' hafter
      exact ⟨.cons halike hps, hending⟩

namespace SourceUnit

/-- **What comments say does not change what they are attached to.** Both scans succeed, or both fail
at the same place. They read the same runs of lines as comments, in front of the same declarations.
A comment whose first line spells out a directive in neither unit goes the same way in both, and one
that says what it said is filed as it was. -/
theorem scan_reworded (h : u.Reworded u') (modified : Timestamp) (options : ScanOptions) :
    ∃ ps ps' ending, Cut u options u.tokens.toList ps ending ∧
      u.ToldBy modified options ps ending ∧ Cut u' options u'.tokens.toList ps' ending ∧
      u'.ToldBy modified options ps' ending ∧ List.Forall₂ (Passage.Alike u u') ps ps' := by
  obtain ⟨ps, ending, hcut, htold⟩ := u.cut_scan modified options
  obtain ⟨ps', ending', hcut', htold'⟩ := u'.cut_scan modified options
  obtain ⟨hps, rfl⟩ := hcut.alike h hcut' h.tokens
  exact ⟨ps, ps', ending', hcut, htold, hcut', htold', hps⟩

/-- A macro and two variables with a documentation line each, of which the first one is given. -/
def pairUnit (line : String) : SourceUnit where
  path := ⟨"s.h"⟩
  tokens := #[
    ⟨"#", .punctuation, ⟨⟨1, 1, 0⟩, ⟨1, 2, 1⟩⟩, 0⟩,
    ⟨"define", .identifier, ⟨⟨1, 2, 1⟩, ⟨1, 8, 7⟩⟩, 0⟩,
    ⟨"SIZE", .identifier, ⟨⟨1, 9, 8⟩, ⟨1, 13, 12⟩⟩, 1⟩,
    ⟨"4", .literal, ⟨⟨1, 14, 13⟩, ⟨1, 15, 14⟩⟩, 1⟩,
    ⟨line, .comment, ⟨⟨2, 1, 15⟩, ⟨2, 21, 35⟩⟩, 0⟩,
    ⟨"int", .keyword, ⟨⟨3, 1, 36⟩, ⟨3, 4, 39⟩⟩, 2⟩,
    ⟨"x", .identifier, ⟨⟨3, 5, 40⟩, ⟨3, 6, 41⟩⟩, 2⟩,
    ⟨";", .punctuation, ⟨⟨3, 6, 41⟩, ⟨3, 7, 42⟩⟩, 0⟩,
    ⟨"/// second", .comment, ⟨⟨4, 1, 43⟩, ⟨4, 11, 53⟩⟩, 0⟩,
    ⟨"int", .keyword, ⟨⟨5, 1, 54⟩, ⟨5, 4, 57⟩⟩, 3⟩,
    ⟨"y", .identifier, ⟨⟨5, 5, 58⟩, ⟨5, 6, 59⟩⟩, 3⟩,
    ⟨";", .punctuation, ⟨⟨5, 6, 59⟩, ⟨5, 7, 60⟩⟩, 0⟩]
  cursors := #[
    ⟨.wholeFile, "s.h", ⟨⟨1, 1, 0⟩, ⟨6, 1, 61⟩⟩, none⟩,
    ⟨.macroDefinition, "SIZE", ⟨⟨1, 9, 8⟩, ⟨1, 15, 14⟩⟩, some 0⟩,
    ⟨.varDecl, "x", ⟨⟨3, 1, 36⟩, ⟨3, 6, 41⟩⟩, some 0⟩,
    ⟨.varDecl, "y", ⟨⟨5, 1, 54⟩, ⟨5, 6, 59⟩⟩, some 0⟩]
  diagnostics := []
  moduleName := none

/-- The line of the first variable becomes a directive. No documentation is within the macro. -/
theorem pairUnit_reworded :
    (pairUnit "/// first of the two").Reworded (pairUnit "///.. function:: f()") := by
  refine .of_ordered (by decide) rfl (by decide) rfl rfl rfl fun id hid => ?_
  -- the macro is the only one
  have hmacro : id = 1 := by
    match id with
    | 0 | 2 | 3 | _ + 4 => cases hid
    | 1 => rfl
  subst hmacro
  decide

/-- The second variable is documented as before. -/
theorem scan_reworded_directive :
    ∃ ps ps' ending,
      Cut (pairUnit "/// first of the two") ⟨true⟩ (pairUnit "/// first of the two").tokens.toList
        ps ending ∧
      Cut (pairUnit "///.. function:: f()") ⟨true⟩ (pairUnit "///.. function:: f()").tokens.toList
        ps' ending ∧
      List.Forall₂ (Passage.Alike (pairUnit "/// first of the two")
        (pairUnit "///.. function:: f()")) ps ps' ∧
      (ps.filterMap (·.filed.directive?)).map (·.signature) = ["int x", "int y"] ∧
      (ps'.filterMap (·.filed.directive?)).map (·.signature) = ["f()", "int y"] := by
  obtain ⟨ps, ps', ending, hcut, htold, hcut', htold', hps⟩ :=
    scan_reworded pairUnit_reworded ⟨0, 0⟩ ⟨true⟩
  have signatures {line : String} {signatures : List String} {ps : List Passage}
      (hsignatures : ((pairUnit line).scan ⟨0, 0⟩ ⟨true⟩).result.toOption.map
        (fun f => f.directiveComments.map (·.signature)) = some signatures)
      (htold : (pairUnit line).ToldBy ⟨0, 0⟩ ⟨true⟩ ps ending) :
      (ps.filterMap (·.filed.directive?)).map (·.signature) = signatures := by
    cases ending with
    | none =>
      obtain ⟨f, hf, hdirective, -⟩ := htold
      rw [hf] at hsignatures
      rw [← hdirective]
      exact Option.some.inj hsignatures
    | some location =>
      rw [htold] at hsignatures
      cases hsignatures
  exact ⟨ps, ps', ending, hcut, hcut', hps, signatures (by decide +kernel) htold,
    signatures (by decide +kernel) htold'⟩

end SourceUnit

end DocIndex
