import DocIndex.Proofs.Ahead.Source
import DocIndex.Proofs.Source.Stretches
import DocIndex.Proofs.Source.Tokens

/-!
# A text behind some words

Words that end a line are put in front of a text. Then the whole text is cut into the words and the
lexemes of the text, which are moved by the words and by their lines. One character can tell the
difference: a backslash that begins the text, and continues no line, is a lexeme at the beginning
of a text, and layout behind a line feed (`Lexer.FrontsLine`).

* `Word.Leads`, `LeadsInto` — the words are cut off in front of the text.
* `lexemes_behind` — **the lexemes of the words, and behind them those of the text.**
* `Source.at_front`, `Source.line_front`, `Source.next_front` — the words as they stand in the whole
  text.
* `Source.ahead_behind` — the text is read behind the words as it is alone (`Source.Ahead`).
-/

namespace DocIndex

open Lexer

/-! ## Layout in front of a text -/

namespace Lexer

/-- A backslash that begins the text continues a line. So the text is cut behind a line feed as it
is at the beginning. -/
def FrontsLine (cs : List Char) : Prop :=
  ∀ rest, cs = '\\' :: rest → ['\n'] <+: rest ∨ ['\r', '\n'] <+: rest

variable {c : Char} {cs rest : List Char} {offset : Nat} {gap : List Char}

theorem layoutLength_of_ne (hc : c ≠ '\\') :
    layoutLength (c :: rest) = if isLayout c then layoutTail rest + 1 else 0 := by
  unfold layoutLength
  split
  · rename_i heq
    cases heq
  · exact absurd (List.cons.inj ‹_›).1 hc
  · exact absurd (List.cons.inj ‹_›).1 hc
  · rename_i heq
    obtain ⟨rfl, rfl⟩ := List.cons.inj heq
    rfl

theorem layoutTail_of_ne (hc : c ≠ '\\') :
    layoutTail (c :: rest) = if isLayout c then layoutTail rest + 1 else 0 := by
  rw [layoutTail.eq_def]
  split
  · rename_i heq
    cases heq
  · exact absurd (List.cons.inj ‹_›).1 hc
  · exact absurd (List.cons.inj ‹_›).1 hc
  · exact absurd (List.cons.inj ‹_›).1 hc
  · rename_i heq
    obtain ⟨rfl, rfl⟩ := List.cons.inj heq
    rfl

theorem layoutTail_of_frontsLine (h : FrontsLine cs) : layoutTail cs = layoutLength cs := by
  cases cs with
  | nil => rfl
  | cons c rest =>
    by_cases hc : c = '\\'
    · subst hc
      rcases h rest rfl with ⟨more, rfl⟩ | ⟨more, rfl⟩
      · simp [layoutTail, layoutLength]
      · simp [layoutTail, layoutLength]
    · rw [layoutTail_of_ne hc, layoutLength_of_ne hc]

theorem layoutLength_cons (hc : isLayout c = true) (rest : List Char) :
    layoutLength (c :: rest) = layoutTail rest + 1 := by
  have hslash : c ≠ '\\' := by
    rintro rfl
    revert hc
    decide
  rw [layoutLength_of_ne hslash, if_pos hc]

theorem stretches_layout (hpos : 0 < layoutLength cs) :
    stretches cs =
      ⟨.blank, cs.take (layoutLength cs)⟩ :: stretches (cs.drop (layoutLength cs)) := by
  cases cs with
  | nil => exact absurd hpos (Nat.lt_irrefl 0)
  | cons c rest =>
    obtain ⟨n, hn⟩ := Nat.exists_eq_succ_of_ne_zero (Nat.ne_of_gt hpos)
    have hfront : front c rest = (.blank, n + 1) := by
      rw [front]
      simp only [hpos, if_true]
      rw [hn]
    rw [stretches, hfront, hn]
    rfl

end Lexer

namespace Lexed

variable {c : Char} {rest : List Char} {offset : Nat} {gap : List Char}

theorem ofStretches_blank (text : List Char) (ss : List Stretch) :
    ofStretches offset gap (⟨.blank, text⟩ :: ss) =
      ofStretches (offset + byteLength text) (text.reverse ++ gap) ss := by
  rw [ofStretches]

/-- A blank is passed over, whatever layout follows it. -/
theorem ofStretches_layout (hc : isLayout c = true) (h : layoutTail rest = layoutLength rest) :
    ofStretches offset gap (stretches (c :: rest)) =
      ofStretches (offset + c.utf8Size) (c :: gap) (stretches rest) := by
  have hlength := layoutLength_cons hc rest
  have hpos : 0 < layoutLength (c :: rest) := by
    rw [hlength]
    exact Nat.succ_pos _
  rw [stretches_layout hpos, hlength, List.take_succ_cons, List.drop_succ_cons, ofStretches_blank,
    h]
  by_cases hzero : layoutLength rest = 0
  · rw [hzero]
    rfl
  · rw [stretches_layout (Nat.pos_of_ne_zero hzero), ofStretches_blank]
    simp [Nat.add_assoc]

/-- What stands in front of the first lexeme belongs to its gap. -/
theorem lexemes_gap (offset : Nat) (gap before : List Char) (ss : List Stretch) :
    (ofStretches offset (gap ++ before) ss).lexemes =
      (ofStretches offset gap ss).lexemes.modifyHead fun t =>
        { t with gap := String.ofList before.reverse ++ t.gap } := by
  induction ss generalizing offset gap with
  | nil => rfl
  | cons x ss ih =>
    cases hx : x.isLexeme with
    | false =>
      rw [lexemes_of_not_isLexeme hx, lexemes_of_not_isLexeme hx, ← List.append_assoc, ih]
    | true =>
      obtain ⟨kind, hkind⟩ := role_of_isLexeme hx
      rw [lexemes_of_role hkind, lexemes_of_role hkind, List.reverse_append, String.ofList_append]
      rfl

end Lexed

/-! ## Words in front of a text -/

/-- The word stands on one line and is cut off in front of `rest`, and the blank behind it goes on
as layout does. -/
structure Word.Leads (w : Word) (rest : List Char) : Prop where
  oneLine : '\n' ∉ w.chars
  front : ∃ c cs, w.chars = c :: cs ∧
    Lexer.front c (cs ++ (w.gap.chars ++ rest)) = (.lexeme w.kind, w.chars.length)
  gap : w.gap ≠ .none → layoutTail rest = layoutLength rest

/-- Every word is cut off in front of the next one, and the last one in front of `rest`. -/
def LeadsInto (rest : List Char) : List Word → Prop
  | [] => True
  | w :: ws => w.Leads (spell ws ++ rest) ∧ LeadsInto rest ws

/-- The blank behind some words, or `before` in front of which there are none. -/
def gapBehind (before : List Char) : List Word → List Char
  | [] => before
  | w :: ws => gapBehind w.gap.chars ws

section

variable {w v : Word} {ws vs : List Word} {rest cs : List Char}

theorem EndsBlank.layoutTail (h : EndsBlank cs) : layoutTail cs = layoutLength cs :=
  layoutTail_of_frontsLine fun _ hcs => absurd rfl (h '\\' (by rw [hcs]; rfl)).2

theorem leadsInto_append :
    LeadsInto rest (ws ++ vs) ↔ LeadsInto (spell vs ++ rest) ws ∧ LeadsInto rest vs := by
  induction ws with
  | nil => simp [LeadsInto]
  | cons w ws ih => simp [LeadsInto, ih, and_assoc]

theorem oneLine_of_leadsInto (h : LeadsInto rest ws) : ∀ w ∈ ws, '\n' ∉ w.chars := by
  induction ws with
  | nil => nofun
  | cons w ws ih => exact List.forall_mem_cons.2 ⟨h.1.oneLine, ih h.2⟩

theorem gapBehind_append (before : List Char) :
    gapBehind before (ws ++ vs) = gapBehind (gapBehind before ws) vs := by
  induction ws generalizing before with
  | nil => rfl
  | cons w ws ih => exact ih w.gap.chars

theorem lexemesFrom_append (offset : Nat) (before : List Char) :
    lexemesFrom offset before (ws ++ vs) =
      lexemesFrom offset before ws ++
        lexemesFrom (offset + byteLength (spell ws)) (gapBehind before ws) vs := by
  induction ws generalizing offset before with
  | nil => rfl
  | cons w ws ih =>
    rw [List.cons_append, lexemesFrom, lexemesFrom, List.cons_append, ih]
    simp [gapBehind, Nat.add_assoc]

/-- Words are read off one by one, and then what follows. -/
theorem lexemes_spell_append (h : LeadsInto rest ws) (offset : Nat) {before : List Char}
    (hbefore : before.reverse = before) :
    (Lexed.ofStretches offset before (stretches (spell ws ++ rest))).lexemes =
      lexemesFrom offset before ws ++
        (Lexed.ofStretches (offset + byteLength (spell ws)) (gapBehind before ws)
          (stretches rest)).lexemes := by
  induction ws generalizing offset before with
  | nil => rfl
  | cons w ws ih =>
    obtain ⟨⟨-, ⟨c, cs, hchars, hfront⟩, hgap⟩, hws⟩ := h
    have hg : w.gap.chars.reverse = w.gap.chars := by cases w.gap <;> rfl
    have hlen : w.chars.length = cs.length + 1 := by rw [hchars, List.length_cons]
    rw [hlen] at hfront
    have hcut := stretches_cons hfront
    rw [← hchars] at hcut
    -- the blank behind the word goes over into layout in front of the next one
    have hblank (offset : Nat) : Lexed.ofStretches offset [] (stretches (w.gap.chars ++
        (spell ws ++ rest))) =
          Lexed.ofStretches (offset + byteLength w.gap.chars) w.gap.chars
            (stretches (spell ws ++ rest)) := by
      cases hw : w.gap with
      | none => rfl
      | space => exact Lexed.ofStretches_layout rfl (hgap (by rw [hw]; nofun))
      | line => exact Lexed.ofStretches_layout rfl (hgap (by rw [hw]; nofun))
    rw [spell_cons, List.append_assoc, List.append_assoc, hcut, Lexed.lexemes_of_role rfl, hblank,
      ih hws _ hg, lexemesFrom, hbefore]
    simp [gapBehind, Nat.add_assoc]

/-- A lexeme of a text behind `n` bytes and a line feed. -/
def Lexeme.behind (n i : Nat) (t : Lexeme) : Lexeme :=
  { t.moved n with gap := if i = 0 then "\n" ++ t.gap else t.gap }

/-- The last of some words that end a line ends it. -/
theorem gap_last {front : List Word} (hline : gapBehind [] ws = ['\n']) (hws : ws = front ++ [w]) :
    w.gap = .line := by
  have hgap : w.gap.chars = ['\n'] := by
    rw [hws, gapBehind_append] at hline
    exact hline
  cases hw : w.gap with
  | line => rfl
  | none =>
    rw [hw] at hgap
    cases hgap
  | space =>
    rw [hw] at hgap
    cases hgap

variable (h : LeadsInto cs ws) (hline : gapBehind [] ws = ['\n'])
include h hline

/-- **The lexemes of words that end a line, and behind them those of the text**, the first one
behind the line feed. -/
theorem lexemes_behind :
    (Lexed.ofText (spell ws ++ cs)).lexemes =
      lexemesFrom 0 [] ws ++
        ((Lexed.ofText cs).lexemes.map (Lexeme.moved (byteLength (spell ws)))).modifyHead fun t =>
          { t with gap := "\n" ++ t.gap } := by
  have hgap := Lexed.lexemes_gap (0 + byteLength (spell ws)) [] ['\n'] (stretches cs)
  rw [List.nil_append] at hgap
  rw [Lexed.ofText, lexemes_spell_append h 0 rfl, hline, hgap, Lexed.lexemes_moved]
  rfl

theorem getElem?_behind (i : Nat) :
    (Lexed.ofText (spell ws ++ cs)).lexemes[ws.length + i]? =
      ((Lexed.ofText cs).lexemes[i]?).map (Lexeme.behind (byteLength (spell ws)) i) := by
  have hlength := length_lexemesFrom 0 [] ws
  rw [lexemes_behind h hline, List.getElem?_append_right (by omega), hlength,
    Nat.add_sub_cancel_left]
  cases (Lexed.ofText cs).lexemes with
  | nil => simp
  | cons t ts =>
    cases i with
    | zero => rfl
    | succ i =>
      simp only [List.map_cons, List.modifyHead_cons, List.getElem?_cons_succ, List.getElem?_map]
      rfl

theorem length_behind :
    (Lexed.ofText (spell ws ++ cs)).lexemes.length =
      ws.length + (Lexed.ofText cs).lexemes.length := by
  rw [lexemes_behind h hline, List.length_append, length_lexemesFrom, List.length_modifyHead,
    List.length_map]

omit hline in
theorem getElem?_front {front back : List Word} (hws : ws = front ++ w :: back) :
    (Lexed.ofText (spell ws ++ cs)).lexemes[front.length]? =
      some ⟨w.kind, String.ofList w.chars, byteLength (spell front),
        String.ofList (gapBehind [] front)⟩ := by
  have hlength := length_lexemesFrom 0 [] front
  have hlt : front.length < (lexemesFrom 0 [] ws).length := by
    rw [length_lexemesFrom, hws, List.length_append, List.length_cons]
    omega
  rw [Lexed.ofText, lexemes_spell_append h 0 rfl, List.getElem?_append_left hlt, hws,
    lexemesFrom_append, List.getElem?_append_right (Nat.le_of_eq hlength), hlength, Nat.sub_self,
    lexemesFrom, Nat.zero_add]
  rfl

end

/-! ## The whole text -/

namespace Source

variable {ws front back : List Word} {w v : Word} {cs : List Char} (h : LeadsInto cs ws)
  (hline : gapBehind [] ws = ['\n'])

include h

/-- A word stands in the whole text. -/
theorem at_front (hws : ws = front ++ w :: back) :
    (ofText (spell ws ++ cs)).At front.length w := by
  have hget := getElem?_front h hws
  rw [← getElem?_ofText] at hget
  refine ⟨(Array.getElem?_eq_some_iff.1 hget).1, ?_, ?_⟩
  · rw [Source.spelling, hget]
  · rw [kind?, hget]
    rfl

/-- A word stands on the line that the lines in front of it make. -/
theorem line_front (hws : ws = front ++ w :: back) :
    (ofText (spell ws ++ cs)).startLine front.length = lineEnds front + 1 ∧
      (ofText (spell ws ++ cs)).stopLine front.length = lineEnds front + 1 := by
  have hone := oneLine_of_leadsInto h
  have hget := getElem?_front h hws
  rw [← getElem?_ofText] at hget
  have hw : w.chars.count '\n' = 0 := List.count_eq_zero.2 (hone w (by simp [hws]))
  have hfront : (spell front).count '\n' = lineEnds front :=
    count_spell fun v hv => hone v (by simp [hws, hv])
  have htext : spell ws ++ cs =
      spell front ++ (w.chars ++ (w.gap.chars ++ (spell back ++ cs))) := by
    simp [hws]
  have hstart := line_place (spell front) (w.chars ++ (w.gap.chars ++ (spell back ++ cs)))
  have hstop := line_place (spell front ++ w.chars) (w.gap.chars ++ (spell back ++ cs))
  rw [List.append_assoc, List.count_append, hw, byteLength_append] at hstop
  rw [← htext, hfront] at hstart hstop
  simp only [startLine, stopLine, hget, Lexeme.stop, utf8ByteSize_ofList]
  exact ⟨hstart, hstop⟩

include hline

/-- What stands behind a word: the next one, or else the text. -/
theorem next_front (hws : ws = front ++ w :: back) :
    (∃ t, (ofText (spell ws ++ cs)).lexemes[front.length + 1]? = some t ∧
        t.start = byteLength (spell front) + byteLength w.chars + byteLength w.gap.chars ∧
          t.gap = String.ofList w.gap.chars) ∨
      w.gap = .line ∧ ∀ t ∈ (ofText (spell ws ++ cs)).lexemes[front.length + 1]?,
        byteLength (spell front) + byteLength w.chars < t.start ∧ ['\n'] <+: t.gap.toList := by
  cases back with
  | nil =>
    have hgap : w.gap = .line := gap_last hline hws
    refine .inr ⟨hgap, fun t ht => ?_⟩
    have hnext := getElem?_behind h hline 0
    have hlength : ws.length + 0 = front.length + 1 := by
      rw [hws, List.length_append]
      rfl
    have hbytes : byteLength (spell ws) =
        byteLength (spell front) + byteLength w.chars + 1 := by
      rw [hws, spell_append, spell_cons, hgap, spell_nil, List.append_nil, byteLength_append,
        byteLength_append, ← Nat.add_assoc]
      rfl
    rw [hlength, ← getElem?_ofText] at hnext
    rw [hnext, Option.mem_def, Option.map_eq_some_iff] at ht
    obtain ⟨t, -, rfl⟩ := ht
    refine ⟨?_, t.gap.toList, ?_⟩
    · simp only [Lexeme.behind, Lexeme.moved, hbytes]
      omega
    · simp [Lexeme.behind]
  | cons v back =>
    have hnext := getElem?_front h (show ws = (front ++ [w]) ++ v :: back by simp [hws])
    rw [List.length_append, ← getElem?_ofText] at hnext
    refine .inl ⟨_, hnext, ?_, ?_⟩
    · simp [Nat.add_assoc]
    · rw [gapBehind_append]
      rfl

theorem touchesNext_front (hws : ws = front ++ w :: back) :
    (ofText (spell ws ++ cs)).touchesNext front.length = decide (w.gap = .none) := by
  have hget := getElem?_front h hws
  rw [← getElem?_ofText] at hget
  have hstop : (Lexeme.mk w.kind (String.ofList w.chars) (byteLength (spell front))
      (String.ofList (gapBehind [] front))).stop =
        byteLength (spell front) + byteLength w.chars := by
    rw [Lexeme.stop, utf8ByteSize_ofList]
  rw [touchesNext, hget]
  rcases next_front h hline hws with ⟨t, ht, hstart, -⟩ | ⟨hgap, hnext⟩
  · rw [ht]
    simp only [hstop, hstart]
    cases w.gap <;> simp [Gap.chars, Char.utf8Size]
  · rw [hgap]
    cases ht : (ofText (spell ws ++ cs)).lexemes[front.length + 1]? with
    | none => rfl
    | some t =>
      have hlt := (hnext t ht).1
      simp only [hstop]
      rw [beq_eq_false_iff_ne.2 (Nat.ne_of_lt hlt)]
      rfl

theorem lineContinues_front (hws : ws = front ++ w :: back) :
    (ofText (spell ws ++ cs)).lineContinues front.length = decide (w.gap ≠ .line) := by
  rw [lineContinues]
  rcases next_front h hline hws with ⟨t, ht, -, hgap⟩ | ⟨hgap, hnext⟩
  · rw [ht]
    simp only [hgap, String.toList_ofList]
    cases w.gap <;> rfl
  · rw [hgap]
    cases ht : (ofText (spell ws ++ cs)).lexemes[front.length + 1]? with
    | none => rfl
    | some t =>
      obtain ⟨more, hmore⟩ := (hnext t ht).2
      simp only [← hmore]
      rfl

theorem getElem?_ofText_behind (i : Nat) :
    (ofText (spell ws ++ cs)).lexemes[ws.length + i]? =
      ((ofText cs).lexemes[i]?).map (Lexeme.behind (byteLength (spell ws)) i) := by
  rw [getElem?_ofText, getElem?_ofText, getElem?_behind h hline]

theorem size_behind : (ofText (spell ws ++ cs)).size = ws.length + (ofText cs).size := by
  have hsize (cs : List Char) : (ofText cs).size = (Lexed.ofText cs).lexemes.length :=
    List.size_toArray
  rw [hsize, hsize, length_behind h hline]

theorem spelling_behind (i : Nat) :
    (ofText (spell ws ++ cs)).spelling (ws.length + i) = (ofText cs).spelling i := by
  rw [Source.spelling, Source.spelling, getElem?_ofText_behind h hline]
  cases (ofText cs).lexemes[i]? <;> rfl

theorem kind?_behind (i : Nat) :
    (ofText (spell ws ++ cs)).kind? (ws.length + i) = (ofText cs).kind? i := by
  rw [kind?, kind?, getElem?_ofText_behind h hline]
  cases (ofText cs).lexemes[i]? <;> rfl

/-- A lexeme of the text stands as many lines further back as the words take. -/
theorem line_behind {i : Nat} (hi : i < (ofText cs).size) :
    (ofText (spell ws ++ cs)).startLine (ws.length + i) = lineEnds ws + (ofText cs).startLine i ∧
      (ofText (spell ws ++ cs)).stopLine (ws.length + i) =
        lineEnds ws + (ofText cs).stopLine i := by
  have hget : (ofText cs).lexemes[i]? = some (ofText cs).lexemes[i] :=
    Array.getElem?_eq_getElem hi
  have hbehind := getElem?_ofText_behind h hline i
  rw [hget, Option.map_some] at hbehind
  have hmem := List.mem_of_getElem? ((getElem?_ofText cs i).symm.trans hget)
  rw [startLine, startLine, stopLine, stopLine, hget, hbehind]
  generalize (ofText cs).lexemes[i] = t at hmem
  obtain ⟨-, ds, rest, htext, hstart⟩ := Lexed.placed_of_mem hmem
  rw [chars_stretches] at htext
  rw [Nat.zero_add] at hstart
  have hcount : (spell ws).count '\n' = lineEnds ws := count_spell (oneLine_of_leadsInto h)
  have hlength : t.spelling.utf8ByteSize = byteLength t.spelling.toList := by
    rw [← utf8ByteSize_ofList, String.ofList_toList]
  have hplace (ds rest : List Char) (hcs : cs = ds ++ rest) :
      ((LineTable.ofText (spell ws ++ cs)).place (byteLength ds + byteLength (spell ws))).line =
        lineEnds ws + ((LineTable.ofText cs).place (byteLength ds)).line := by
    rw [hcs, line_place, ← List.append_assoc, Nat.add_comm (byteLength ds), ← byteLength_append,
      line_place, List.count_append, hcount, Nat.add_assoc]
  have hstop : (Lexeme.behind (byteLength (spell ws)) i t).stop =
      byteLength (ds ++ t.spelling.toList) + byteLength (spell ws) := by
    simp only [Lexeme.stop, Lexeme.behind, Lexeme.moved, hstart, hlength, byteLength_append]
    omega
  have hstop' : t.stop = byteLength (ds ++ t.spelling.toList) := by
    rw [Lexeme.stop, hstart, hlength, byteLength_append]
  refine ⟨?_, ?_⟩
  · simp only [Lexeme.behind, Lexeme.moved, hstart]
    exact hplace ds _ htext
  · simp only [hstop, hstop']
    exact hplace _ rest (by rw [htext, List.append_assoc])

omit h hline in
theorem length_pred (hws : ws = front ++ [w]) : ws.length - 1 = front.length := by
  rw [hws, List.length_append]
  rfl

/-- **Behind words that end a line the text is read as it is alone**, if the words mean nothing to
what stands behind them. -/
theorem ahead_behind (hpos : 0 < (ofText cs).size) (hws : ws = front ++ [w])
    (hcode : w.kind ≠ .comment)
    (hclosed : String.ofList w.chars ∉ ["~", "::", "operator"])
    (hangles : ∀ v ∈ ws, String.ofList v.chars ∉ ["<", ">", ">>"]) :
    (ofText cs).Ahead ws.length (ofText (spell ws ++ cs)) where
  pos := hpos
  size := size_behind h hline
  spelling := spelling_behind h hline
  kind := kind?_behind h hline
  touches i := by
    rw [touchesNext, touchesNext, Nat.add_assoc, getElem?_ofText_behind h hline,
      getElem?_ofText_behind h hline]
    cases (ofText cs).lexemes[i]? with
    | none => rfl
    | some t =>
      cases (ofText cs).lexemes[i + 1]? with
      | none => rfl
      | some u =>
        simp only [Option.map_some, Lexeme.behind, Lexeme.moved, Lexeme.stop]
        rw [Bool.eq_iff_iff, beq_iff_eq, beq_iff_eq]
        omega
  continues i := by
    rw [lineContinues, lineContinues, Nat.add_assoc, getElem?_ofText_behind h hline]
    cases (ofText cs).lexemes[i + 1]? <;> rfl
  lines hpi hi := by
    rw [(line_behind h hline hi).1, (line_behind h hline (Nat.lt_trans hpi hi)).2]
    omega
  some_ahead := by
    rw [hws, List.length_append]
    exact Nat.succ_pos _
  line {i} hi := by
    have hstop := (line_front h hws).2
    have hends : lineEnds ws = lineEnds front + 1 := by
      simp [hws, gap_last hline hws]
    have hpos : 0 < (ofText cs).startLine i := by
      rw [startLine, Array.getElem?_eq_getElem hi]
      exact Nat.lt_of_lt_of_le Nat.zero_lt_one (Nat.succ_pos _)
    rw [length_pred hws, hstop, (line_behind h hline hi).1, hends]
    omega
  code := by
    rw [length_pred hws, (at_front h hws).isComment_eq]
    exact decide_eq_false hcode
  closed word hword := by
    rw [length_pred hws, (at_front h hws).is_eq]
    exact decide_eq_false fun heq => hclosed (heq ▸ hword)
  angles i hi := by
    obtain ⟨front, v, back, hsplit, rfl⟩ : ∃ front v back, ws = front ++ v :: back ∧
        front.length = i :=
      ⟨ws.take i, ws[i], ws.drop (i + 1), by simp, by simp [Nat.le_of_lt hi]⟩
    rw [(at_front h hsplit).spelling]
    exact hangles v (by simp [hsplit])

end Source

end DocIndex
