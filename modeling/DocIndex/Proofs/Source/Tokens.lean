import DocIndex.Comment.Signature
import DocIndex.Proofs.Source.Words

/-!
# The lexemes and tokens of a written text

A text that is written as words has a lexeme and a token for each of them.

* `Source.Shows` — which words stand from some lexeme on.
* `tokensAfter` — the tokens of words that stand behind other words.
* `tokensOf_extent` — the tokens of a cursor, from its first lexeme and its last.
-/

namespace DocIndex

/-- The source whose text is written as some words. -/
def sourceOf (ws : List Word) : Source :=
  .ofLexed (spell ws) (Lexed.ofText (spell ws))

/-! ## Lexemes -/

namespace Source

/-- The word stands at lexeme `i`. -/
structure At (s : Source) (i : Nat) (w : Word) : Prop where
  lt : i < s.size
  spelling : s.spelling i = String.ofList w.chars
  kind : s.kind? i = some w.kind

/-- The words stand from lexeme `i` on. -/
def Shows (s : Source) : Nat → List Word → Prop
  | _, [] => True
  | i, w :: ws => s.At i w ∧ s.Shows (i + 1) ws

variable {s : Source} {i : Nat} {ws vs : List Word}

theorem At.spelling_letters {text : String} {g : Gap} (h : s.At i (letters text g)) :
    s.spelling i = text := by
  rw [h.spelling, letters, String.ofList_toList]

theorem At.is_eq {w : Word} (h : s.At i w) (word : String) :
    s.is i word = decide (String.ofList w.chars = word) := by
  rw [is, h.spelling, decide_eq_true h.lt, Bool.true_and]
  rfl

theorem At.isComment_eq {w : Word} (h : s.At i w) : s.isComment i = decide (w.kind = .comment) := by
  rw [isComment, h.kind]
  cases w.kind <;> rfl

theorem At.isIdentifier_eq {w : Word} (h : s.At i w) :
    s.isIdentifier i = decide (w.kind = .identifier) := by
  rw [isIdentifier, h.kind]
  cases w.kind <;> rfl

theorem shows_append : s.Shows i (ws ++ vs) ↔ s.Shows i ws ∧ s.Shows (i + ws.length) vs := by
  induction ws generalizing i with
  | nil => simp [Shows]
  | cons w ws ih =>
    rw [List.cons_append, Shows, Shows, ih, List.length_cons, and_assoc, Nat.add_right_comm]
    rfl

theorem le_size_of_shows (h : s.Shows i ws) (hi : i ≤ s.size) : i + ws.length ≤ s.size := by
  induction ws generalizing i with
  | nil => exact hi
  | cons w ws ih =>
    have := ih h.2 h.1.lt
    rw [List.length_cons]; omega

end Source

section

variable {ws : List Word}

theorem length_lexemesFrom (offset : Nat) (before : List Char) (ws : List Word) :
    (lexemesFrom offset before ws).length = ws.length := by
  induction ws generalizing offset before with
  | nil => rfl
  | cons w ws ih => rw [lexemesFrom, List.length_cons, List.length_cons, ih]

theorem lexemes_sourceOf (h : Cuttable ws) :
    (sourceOf ws).lexemes = (lexemesFrom 0 [] ws).toArray := by
  rw [sourceOf, Source.ofLexed, ofText_spell h]

theorem size_sourceOf (h : Cuttable ws) : (sourceOf ws).size = ws.length := by
  rw [Source.size, lexemes_sourceOf h, List.size_toArray, length_lexemesFrom]

theorem shows_of_lexemes {s : Source} {before : List Char} {offset : Nat} {ls : List Lexeme}
    (h : s.lexemes = (ls ++ lexemesFrom offset before ws).toArray) : s.Shows ls.length ws := by
  induction ws generalizing ls offset before with
  | nil => trivial
  | cons w ws ih =>
    rw [lexemesFrom, List.append_cons] at h
    have hget : s.lexemes[ls.length]? =
        some ⟨w.kind, String.ofList w.chars, offset, String.ofList before⟩ := by
      simp [h]
    refine ⟨⟨?_, by rw [Source.spelling, hget], by rw [Source.kind?, hget]; rfl⟩, ?_⟩
    · exact (Array.getElem?_eq_some_iff.1 hget).1
    · have hshows := ih h
      rwa [List.length_append] at hshows

/-- The words of a text stand from its first lexeme on. -/
theorem shows_sourceOf (h : Cuttable ws) : (sourceOf ws).Shows 0 ws := by
  have hlexemes : (sourceOf ws).lexemes = ([] ++ lexemesFrom 0 [] ws).toArray := by
    rw [lexemes_sourceOf h, List.nil_append]
  exact shows_of_lexemes hlexemes

end

/-! ## Tokens -/

/-- The cursor that a lexeme belongs to; without an owner it is the file itself. -/
def Outline.ownerOf (o : Outline) (i : Nat) : CursorId :=
  (o.owners.getD i none).getD 0

/-- The token of a word that stands behind others, given the owners of the lexemes. -/
def tokenAfter (lines : LineTable) (owner : Nat → CursorId) (front : List Word) (w : Word) :
    Token :=
  { spelling := String.ofList w.chars
    kind := w.kind
    extent :=
      ⟨lines.place (byteLength (spell front)),
        lines.place (byteLength (spell front) + byteLength w.chars)⟩
    cursor := owner front.length }

/-- The tokens of words that stand behind others. -/
def tokensAfter (lines : LineTable) (owner : Nat → CursorId) (front : List Word) :
    List Word → List Token
  | [] => []
  | w :: ws => tokenAfter lines owner front w :: tokensAfter lines owner (front ++ [w]) ws

section

variable {lines : LineTable} {owner : Nat → CursorId} {front ws vs : List Word} {w v : Word}

theorem length_tokensAfter : (tokensAfter lines owner front ws).length = ws.length := by
  induction ws generalizing front with
  | nil => rfl
  | cons w ws ih => rw [tokensAfter, List.length_cons, List.length_cons, ih]

theorem kind_of_mem_tokensAfter {t : Token} (h : t ∈ tokensAfter lines owner front ws) :
    ∃ w ∈ ws, t.kind = w.kind := by
  induction ws generalizing front with
  | nil => cases h
  | cons w ws ih =>
    rcases List.mem_cons.1 h with rfl | h
    · exact ⟨w, List.mem_cons_self, rfl⟩
    · obtain ⟨v, hv, hkind⟩ := ih h
      exact ⟨v, List.mem_cons_of_mem _ hv, hkind⟩

theorem tokensAfter_append :
    tokensAfter lines owner front (ws ++ vs) =
      tokensAfter lines owner front ws ++ tokensAfter lines owner (front ++ ws) vs := by
  induction ws generalizing front with
  | nil => simp [tokensAfter]
  | cons w ws ih => simp [tokensAfter, ih]

/-- The token of a word has the number of words in front of it. -/
theorem getElem?_tokensAfter (lines : LineTable) (owner : Nat → CursorId) (front rest : List Word)
    (w : Word) :
    (tokensAfter lines owner [] (front ++ w :: rest))[front.length]? =
      some (tokenAfter lines owner front w) := by
  have hlen : (tokensAfter lines owner [] front).length = front.length := length_tokensAfter
  rw [tokensAfter_append, List.nil_append, List.getElem?_append_right (Nat.le_of_eq hlen), hlen,
    Nat.sub_self]
  rfl

theorem mapIdx_lexemesFrom (s : Source) (o : Outline) (front : List Word) (before : List Char) :
    (lexemesFrom (byteLength (spell front)) before ws).mapIdx
        (fun k t => s.tokenOf o (front.length + k) t) =
      tokensAfter s.lines o.ownerOf front ws := by
  induction ws generalizing front before with
  | nil => rfl
  | cons w ws ih =>
    have hnext : byteLength (spell front) + byteLength w.chars + byteLength w.gap.chars =
        byteLength (spell (front ++ [w])) := by
      simp [Nat.add_assoc]
    rw [lexemesFrom, List.mapIdx_cons, tokensAfter, hnext, ← ih (front ++ [w]) w.gap.chars]
    congr 1
    · simp [Source.tokenOf, Outline.ownerOf, tokenAfter, Lexeme.stop, utf8ByteSize_ofList]
    · congr 1
      funext k t
      rw [List.length_append, List.length_singleton, Nat.add_assoc, Nat.add_comm 1 k]

theorem tokens_sourceOf (h : Cuttable ws) (o : Outline) :
    ((sourceOf ws).lexemes.mapIdx ((sourceOf ws).tokenOf o)).toList =
      tokensAfter (sourceOf ws).lines o.ownerOf [] ws := by
  rw [← mapIdx_lexemesFrom (sourceOf ws) o [] [], lexemes_sourceOf h, Array.toList_mapIdx]
  simp

theorem tokens_unitOf (h : Cuttable ws) (path : Path) (faults : List (Nat × LexFault))
    (o : Outline) : ((sourceOf ws).unitOf path faults o).tokens =
      (tokensAfter (sourceOf ws).lines o.ownerOf [] ws).toArray := by
  rw [← tokens_sourceOf h, Array.toArray_toList]
  rfl

/-- Two neighbours touch if there is no blank between them. -/
theorem touches_tokenAfter :
    (tokenAfter lines owner front w).touches (tokenAfter lines owner (front ++ [w]) v) =
      decide (w.gap = .none) := by
  unfold Token.touches tokenAfter LineTable.place
  cases hg : w.gap <;> simp [Gap.chars, hg, Char.utf8Size]

end

/-! ## Lines -/

/-- The number of lines that end within some words. -/
def lineEnds (ws : List Word) : Nat :=
  ws.countP fun w => w.gap = .line

section

variable {owner : Nat → CursorId} {front ws rest : List Word} {w : Word}

@[simp] theorem lineEnds_nil : lineEnds [] = 0 := rfl

@[simp] theorem lineEnds_cons :
    lineEnds (w :: ws) = lineEnds ws + if w.gap = .line then 1 else 0 := by
  simp [lineEnds, List.countP_cons]

@[simp] theorem lineEnds_append (ws vs : List Word) :
    lineEnds (ws ++ vs) = lineEnds ws + lineEnds vs :=
  List.countP_append

theorem oneLine_of_readable (h : Readable ws) : ∀ w ∈ ws, '\n' ∉ w.chars := by
  induction ws with
  | nil => nofun
  | cons w ws ih => exact List.forall_mem_cons.2 ⟨h.1.oneLine, ih h.2⟩

theorem count_spell (h : ∀ w ∈ ws, '\n' ∉ w.chars) : (spell ws).count '\n' = lineEnds ws := by
  induction ws with
  | nil => rfl
  | cons w ws ih =>
    have hw : w.chars.count '\n' = 0 := List.count_eq_zero.2 (h w List.mem_cons_self)
    have ih := ih fun v hv => h v (List.mem_cons_of_mem _ hv)
    rw [spell_cons, List.count_append, List.count_append, hw, ih, lineEnds_cons]
    cases w.gap <;> simp [Gap.chars, Nat.add_comm]

/-- A word is on the line that the line ends in front of it make. -/
theorem line_tokenAfter (h : Readable (front ++ w :: rest)) :
    let t := tokenAfter (sourceOf (front ++ w :: rest)).lines owner front w
    t.extent.start.line = lineEnds front + 1 ∧ t.extent.stop.line = lineEnds front + 1 := by
  have hone := oneLine_of_readable h
  have hw : w.chars.count '\n' = 0 := List.count_eq_zero.2 (hone w (by simp))
  have hfront : (spell front).count '\n' = lineEnds front :=
    count_spell fun v hv => hone v (List.mem_append_left _ hv)
  have hstart := line_place (spell front) (spell (w :: rest))
  have hstop := line_place (spell front ++ w.chars) (w.gap.chars ++ spell rest)
  rw [List.append_assoc, ← spell_cons, List.count_append, hw] at hstop
  rw [← spell_append, hfront] at hstart hstop
  rw [byteLength_append] at hstop
  exact ⟨hstart, hstop⟩

theorem line_head_tokensAfter {all : List Word} (h : Readable all) (hall : all = front ++ ws) :
    ∀ t ∈ (tokensAfter (sourceOf all).lines owner front ws).head?,
      t.extent.stop.line = lineEnds front + 1 := by
  intro t ht
  cases ws with
  | nil => cases ht
  | cons w ws =>
    cases ht
    subst hall
    exact (line_tokenAfter h).2

/-- Words of which only the last one may end a line are all on one line. -/
theorem line_of_mem_tokensAfter {all : List Word} (h : Readable all) {front ws rest : List Word}
    (hall : all = front ++ (ws ++ rest)) (hws : ∀ w ∈ ws.dropLast, w.gap ≠ .line) {t : Token}
    (ht : t ∈ tokensAfter (sourceOf all).lines owner front ws) :
    t.extent.start.line = lineEnds front + 1 ∧ t.extent.stop.line = lineEnds front + 1 := by
  induction ws generalizing front with
  | nil => cases ht
  | cons w ws ih =>
    rcases List.mem_cons.1 ht with rfl | ht
    · subst hall
      exact line_tokenAfter h
    · -- another word follows, so the line goes on behind this one
      have hne : ws ≠ [] := by
        rintro rfl
        cases ht
      rw [List.dropLast_cons_of_ne_nil hne, List.forall_mem_cons] at hws
      have hline := ih (by rw [hall]; simp) hws.2 ht
      rw [lineEnds_append, lineEnds_cons, if_neg hws.1] at hline
      exact hline

end

/-! ## The tokens of a cursor -/

/-- The tokens stand one behind the other. -/
def Apart (ts : List Token) : Prop :=
  (∀ t ∈ ts, t.extent.start.offset < t.extent.stop.offset) ∧
    ts.Pairwise fun t v => t.extent.stop.offset ≤ v.extent.start.offset

theorem start_le_of_mem_tokensAfter {lines : LineTable} {owner : Nat → CursorId}
    {front ws : List Word} {t : Token} (h : t ∈ tokensAfter lines owner front ws) :
    byteLength (spell front) ≤ t.extent.start.offset := by
  induction ws generalizing front with
  | nil => cases h
  | cons w ws ih =>
    rcases List.mem_cons.1 h with rfl | h
    · exact Nat.le_refl _
    · have := ih h
      rw [spell_append, byteLength_append] at this; omega

theorem apart_tokensAfter (lines : LineTable) (owner : Nat → CursorId) (front : List Word)
    {ws : List Word} (h : Cuttable ws) : Apart (tokensAfter lines owner front ws) := by
  induction ws generalizing front with
  | nil => exact ⟨nofun, List.Pairwise.nil⟩
  | cons w ws ih =>
    obtain ⟨⟨⟨c, cs, hcs, -⟩, -⟩, hws⟩ := h
    obtain ⟨hlt, hpair⟩ := ih (front ++ [w]) hws
    have hpos : 0 < byteLength w.chars := byteLength_pos (by rw [hcs]; exact List.cons_ne_nil _ _)
    refine ⟨List.forall_mem_cons.2 ⟨?_, hlt⟩, List.pairwise_cons.2 ⟨fun t ht => ?_, hpair⟩⟩
    · exact Nat.lt_add_of_pos_right hpos
    · have := start_le_of_mem_tokensAfter ht
      simp only [spell_append, spell_cons, spell_nil, byteLength_append] at this
      simp only [tokenAfter, LineTable.place]
      omega

/-- The tokens in front of an offset, where none of those behind starts in front of it. -/
theorem boundary_start {ts vs : List Token} {offset : Nat}
    (hts : ∀ t ∈ ts, t.extent.start.offset < offset)
    (hvs : ∀ v ∈ vs, offset ≤ v.extent.start.offset) :
    boundary (fun t => t.extent.start.offset < offset) (ts ++ vs).toArray = ts.length :=
  boundary_eq (fun t ht => decide_eq_true (hts t ht)) fun v hv =>
    decide_eq_false (Nat.not_lt.2 (hvs v hv))

section

variable {ts vs : List Token} {t v : Token}

theorem Apart.left (h : Apart (ts ++ vs)) : Apart ts :=
  ⟨fun t ht => h.1 t (List.mem_append_left _ ht), (List.pairwise_append.1 h.2).1⟩

theorem Apart.right (h : Apart (ts ++ vs)) : Apart vs :=
  ⟨fun v hv => h.1 v (List.mem_append_right _ hv), (List.pairwise_append.1 h.2).2.1⟩

theorem Apart.stop_le (h : Apart (ts ++ vs)) (ht : t ∈ ts) (hv : v ∈ vs) :
    t.extent.stop.offset ≤ v.extent.start.offset :=
  (List.pairwise_append.1 h.2).2.2 t ht v hv

/-- No token starts in front of the first one. -/
theorem Apart.head_le (h : Apart ts) (ht : ts.head? = some t) (hv : v ∈ ts) :
    t.extent.start.offset ≤ v.extent.start.offset := by
  obtain ⟨rest, rfl⟩ := List.head?_eq_some_iff.1 ht
  rcases List.mem_cons.1 hv with rfl | hrest
  · exact Nat.le_refl _
  · have := h.1 t List.mem_cons_self
    have := (List.pairwise_cons.1 h.2).1 v hrest
    omega

/-- Every token starts in front of the end of the last one. -/
theorem Apart.lt_last (h : Apart ts) (ht : ts.getLast? = some t) (hv : v ∈ ts) :
    v.extent.start.offset < t.extent.stop.offset := by
  obtain ⟨front, rfl⟩ := List.getLast?_eq_some_iff.1 ht
  have hlast : t.extent.start.offset < t.extent.stop.offset := h.1 t (by simp)
  rcases List.mem_append.1 hv with hfront | hend
  · have := h.1 v hv
    have := h.stop_le hfront (List.mem_singleton_self t)
    omega
  · rw [List.mem_singleton.1 hend]
    exact hlast

end

/-- **The tokens of a cursor are those from its first lexeme up to its last.** -/
theorem tokensOf_extent {u : SourceUnit} {id : CursorId} {as bs cs : List Token} {t v : Token}
    (hu : u.tokens = (as ++ (bs ++ cs)).toArray) (ha : Apart (as ++ (bs ++ cs)))
    (ht : bs.head? = some t) (hv : bs.getLast? = some v)
    (hstart : (u.cursor id).extent.start.offset = t.extent.start.offset)
    (hstop : (u.cursor id).extent.stop.offset = v.extent.stop.offset) :
    u.tokensOf id = bs := by
  have htb : t ∈ bs := List.mem_of_mem_head? ht
  have hhead : (bs ++ cs).head? = some t := by
    rw [List.head?_append, ht, Option.some_or]
  -- what is in front ends before the first token starts
  have hfirst : boundary (fun x => x.extent.start.offset < (u.cursor id).extent.start.offset)
      u.tokens = as.length := by
    rw [hu, hstart]
    refine boundary_start (fun x hx => ?_) fun x hx => ha.right.head_le hhead hx
    have := ha.1 x (List.mem_append_left _ hx)
    have := ha.stop_le hx (List.mem_append_left cs htb)
    omega
  -- what is behind starts no earlier than the last token ends
  have hlast : boundary (fun x => x.extent.start.offset < (u.cursor id).extent.stop.offset)
      u.tokens = (as ++ bs).length := by
    rw [hu, hstop, ← List.append_assoc]
    rw [← List.append_assoc] at ha
    have hend : (as ++ bs).getLast? = some v := by
      rw [List.getLast?_append, hv, Option.some_or]
    have hvb : v ∈ as ++ bs := List.mem_of_mem_getLast? hend
    exact boundary_start (fun x hx => ha.left.lt_last hend hx) fun x hx => ha.stop_le hvb hx
  unfold SourceUnit.tokensOf SourceUnit.tokenRange
  simp only [hfirst, hlast]
  rw [hu, List.length_append, Nat.max_eq_right (by omega)]
  simp

/-- The tokens of a cursor that reaches from the first of some words to the last one. -/
theorem tokensOf_words {u : SourceUnit} {id : CursorId} {lines : LineTable}
    {owner : Nat → CursorId} {all front body rest : List Word} {w v : Word}
    (hu : u.tokens = (tokensAfter lines owner [] all).toArray) (h : Cuttable all) {ws : List Word}
    (hall : all = front ++ (ws ++ rest)) (hw : ws.head? = some w) (hv : ws = body ++ [v])
    (hstart : (u.cursor id).extent.start = (tokenAfter lines owner front w).extent.start)
    (hstop : (u.cursor id).extent.stop = (tokenAfter lines owner (front ++ body) v).extent.stop) :
    u.tokensOf id = tokensAfter lines owner front ws := by
  have htokens : tokensAfter lines owner [] all =
      tokensAfter lines owner [] front ++ (tokensAfter lines owner front ws ++
        tokensAfter lines owner (front ++ ws) rest) := by
    rw [hall, tokensAfter_append, tokensAfter_append, List.nil_append]
  have hhead : (tokensAfter lines owner front ws).head? =
      some (tokenAfter lines owner front w) := by
    obtain ⟨ws', rfl⟩ := List.head?_eq_some_iff.1 hw
    rfl
  have hlast : (tokensAfter lines owner front ws).getLast? =
      some (tokenAfter lines owner (front ++ body) v) := by
    rw [hv, tokensAfter_append]
    exact List.getLast?_concat
  have hapart := apart_tokensAfter lines owner [] h
  rw [htokens] at hu hapart
  exact tokensOf_extent hu hapart hhead hlast (congrArg Place.offset hstart)
    (congrArg Place.offset hstop)

end DocIndex
