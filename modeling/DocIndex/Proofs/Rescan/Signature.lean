import DocIndex.Proofs.Comment.Interrupted
import DocIndex.Proofs.Rescan.Text

/-!
# Signatures, read again

The signature of a declaration is itself a text: with a `;` behind it, it can be read again.
-/

namespace DocIndex

/-! ## The first declaration of a text -/

namespace SourceUnit

variable {u : SourceUnit} {t : Token} {ts : List Token} {stream : TokenStream}

/-- The declaration of the first token is found, if a comment can be attached to it and it starts
there. -/
theorem declaration_of_first {a : Attachment}
    (h : u.nextDeclaration (.ofList (t :: ts)) = .ok a) (hcode : t.kind ≠ .comment)
    (hstart : t.extent.start.offset ≤ (u.cursor t.cursor).extent.start.offset)
    (hdoc : (u.cursor t.cursor).kind.canBeDocumented = true) :
    a.declaration = some (u.declaration t.cursor) := by
  obtain ⟨s, htokens, hdeclaration, -, hsound⟩ := of_nextDeclaration h (show _ = some t from rfl)
  have hplain : t.isDocLine = false := by simp [Token.isDocLine, hcode]
  have htokens : t :: ts = s.passed ++ ((s.found.map Prod.fst).toList ++ s.skipped) ++
      a.stream.toList := htokens
  rw [hdeclaration]
  -- the first token is neither passed over nor left
  cases hpassed : s.passed with
  | cons v vs =>
    rw [hpassed] at htokens
    obtain ⟨rfl, -⟩ := List.cons.inj htokens
    exact absurd ⟨hstart, hdoc⟩ (hsound.passed t (by rw [hpassed]; exact List.mem_cons_self)).2
  | nil =>
    rw [hpassed] at htokens
    cases hfound : s.found with
    | none =>
      rw [Search.skipped, hfound] at htokens
      have hrest : a.stream.toList = t :: ts := htokens.symm
      have hdocLine := hsound.missed hfound t (by rw [hrest]; rfl)
      rw [hplain] at hdocLine
      cases hdocLine
    | some r =>
      rw [hfound] at htokens
      obtain ⟨rfl, -⟩ := List.cons.inj htokens
      rw [Search.declaration, hfound]
      rfl

/-- No declaration is found if no comment can be attached to any. -/
theorem declaration_of_none {a : Attachment} (h : u.nextDeclaration (.ofList (t :: ts)) = .ok a)
    (hdoc : ∀ v, (u.cursor v).kind.canBeDocumented = false) : a.declaration = none := by
  obtain ⟨s, -, hdeclaration, -, hsound⟩ := of_nextDeclaration h (show _ = some t from rfl)
  rw [hdeclaration, Search.declaration, Option.map_eq_none_iff]
  cases hfound : s.found with
  | none => rfl
  | some r =>
    have hstarts := (hsound.first r.1 (by rw [hfound]; rfl)).2.2
    rw [hdoc] at hstarts
    cases hstarts

end SourceUnit

/-! ## The unit of a statement -/

section

variable {s : Source} {o : Outline} {path : Path} {faults : List (Nat × LexFault)}

theorem kind_of_mem_cursors {c : Cursor} (h : c ∈ (s.unitOf path faults o).cursors) :
    ∃ d ∈ o.drafts, c.kind = d.kind := by
  obtain ⟨i, hi, rfl⟩ := Array.mem_iff_getElem.1 h
  have hsize : i < o.drafts.size := by
    rwa [Printed.size_cursors] at hi
  refine ⟨o.drafts[i], Array.getElem_mem hsize, ?_⟩
  simp only [Source.unitOf, Source.cursorsOf, Array.getElem_mapIdx]
  split <;> rfl

theorem cursorOf_mem {id : CursorId} {d : Draft} (hd : o.drafts[id]? = some d) (hid : 0 < id) :
    s.cursorOf d ∈ (s.unitOf path faults o).cursors := by
  refine Array.mem_of_getElem? (i := id) ?_
  simp only [Source.unitOf, Source.cursorsOf, Array.getElem?_mapIdx, hd, Option.map_some]
  rw [if_neg (Nat.ne_of_gt hid)]

/-- Without a cursor that a comment can be attached to, none is attached to the file itself. -/
theorem kind_cursor_of_undocumented {u : SourceUnit}
    (h : ∀ c ∈ u.cursors, c.kind.canBeDocumented = false) (id : CursorId) :
    (u.cursor id).kind.canBeDocumented = false := by
  have hgetD (k : CursorId) (c : Cursor) (hc : c.kind.canBeDocumented = false) :
      (u.cursors.getD k c).kind.canBeDocumented = false := by
    rw [Array.getD_eq_getD_getElem?]
    cases hk : u.cursors[k]? with
    | none => exact hc
    | some c => exact h c (Array.mem_of_getElem? hk)
  exact hgetD id _ (hgetD 0 _ rfl)

end

section

variable {ws : List Word} {path : Path} {o : Outline} {id : CursorId} {d : Draft}

variable (path) in
/-- The cursor of a draft for the whole text reaches over all tokens. -/
theorem tokensOf_of_spans (h : o.Spans ws.length id d) (hne : ws ≠ [])
    (hcuts : Cuttable (ws ++ [semicolonWord])) :
    let s := sourceOf (ws ++ [semicolonWord])
    let u := s.unitOf path [] o
    let tokens := tokensAfter s.lines o.ownerOf [] (ws ++ [semicolonWord])
    u.tokens = tokens.toArray ∧ u.tokensOf id = tokens ∧
      ∃ t ts, tokens = t :: ts ∧ t.cursor = id ∧
        (u.cursor id).extent.start.offset = t.extent.start.offset := by
  obtain ⟨w, ws', rfl⟩ := List.exists_cons_of_ne_nil hne
  intro s u tokens
  have htokens : u.tokens = tokens.toArray := tokens_unitOf hcuts path [] o
  have hfirst : u.tokens[0]? = some (tokenAfter s.lines o.ownerOf [] w) := by
    rw [htokens, List.getElem?_toArray]
    rfl
  have hlast : u.tokens[(w :: ws').length]? =
      some (tokenAfter s.lines o.ownerOf (w :: ws') semicolonWord) := by
    rw [htokens, List.getElem?_toArray]
    exact getElem?_tokensAfter _ _ (w :: ws') [] semicolonWord
  have hcursor : u.cursor id = s.cursorOf d := Printed.cursor_eq h.draft h.pos
  have hextent : (u.cursor id).extent = ⟨(tokenAfter s.lines o.ownerOf [] w).extent.start,
      (tokenAfter s.lines o.ownerOf (w :: ws') semicolonWord).extent.stop⟩ := by
    rw [hcursor, ← Printed.extentOf_eq hfirst hlast, ← h.last, ← h.first]
    rfl
  refine ⟨htokens, ?_, _, _, rfl, ?_, ?_⟩
  · have hall : w :: ws' ++ [semicolonWord] = [] ++ (w :: ws' ++ [semicolonWord] ++ []) := by simp
    exact tokensOf_words htokens hcuts hall rfl rfl (by rw [hextent]) (by rw [hextent]; rfl)
  · show (o.owners.getD 0 none).getD 0 = id
    rw [Array.getD_eq_getD_getElem?, h.owner]
    rfl
  · rw [hextent]

/-- How a word is spelled, and what it is. -/
def Word.face (w : Word) : LexemeKind × String :=
  (w.kind, w.text)

theorem faces_tokensAfter (lines : LineTable) (owner : Nat → CursorId) (front ws : List Word) :
    (tokensAfter lines owner front ws).map Token.face = ws.map Word.face := by
  induction ws generalizing front with
  | nil => rfl
  | cons w ws ih => rw [tokensAfter, List.map_cons, List.map_cons, ih]; rfl

theorem texts_of_faces {ts : List Token} (h : ts.map Token.face = ws.map Word.face) :
    ts.map Token.spelling = ws.map Word.text := by
  have hsnd := congrArg (List.map Prod.snd) h
  rwa [List.map_map, List.map_map] at hsnd

/-- The signature of the declaration that a statement is, is the statement without its `;`. -/
theorem signature_of_spans (h : o.Spans ws.length id d) (hne : ws ≠ [])
    (hcuts : Cuttable (ws ++ [semicolonWord])) {ts : List Token}
    (hfaces : ts.map Token.face = ws.map Word.face) (hkept : headTokens ts = ts)
    (hnested : Balanced (ws.map Word.text)) (path : Path) :
    ((sourceOf (ws ++ [semicolonWord])).unitOf path [] o).signature id = Printed.joined ws := by
  obtain ⟨-, hof, -⟩ := tokensOf_of_spans path h hne hcuts
  have hkind : (((sourceOf (ws ++ [semicolonWord])).unitOf path [] o).cursor id).kind ≠
      .macroDefinition := by
    rw [Printed.cursor_eq h.draft h.pos]
    exact h.kind
  have hfaces' := faces_tokensAfter (sourceOf (ws ++ [semicolonWord])).lines o.ownerOf [] ws
  have hkept' := headTokens_eq_self_congr (hfaces'.trans hfaces.symm) hkept
  have hkeeps : ((sourceOf (ws ++ [semicolonWord])).unitOf path [] o).keptTokens id =
      tokensAfter (sourceOf (ws ++ [semicolonWord])).lines o.ownerOf [] ws := by
    rw [SourceUnit.keptTokens, if_neg hkind, hof, tokensAfter_append]
    have hcode : semicolonWord.kind ≠ .comment := by decide
    exact headTokens_concat (by rwa [texts_of_faces hfaces']) hkept' hcode rfl
  have hsome : (tokensAfter (sourceOf (ws ++ [semicolonWord])).lines o.ownerOf [] ws).isEmpty =
      false := by
    obtain ⟨w, ws', rfl⟩ := List.exists_cons_of_ne_nil hne
    rfl
  rw [SourceUnit.signature, hkeeps, hsome, if_neg Bool.false_ne_true,
    Printed.textOfTokens_tokensAfter]

/-- Words that are cut off as they are written are read as the unit of their own lexemes. -/
theorem parseText_spell (h : Cuttable ws) (path : Path) :
    parseText path (spell ws) [] =
      (sourceOf ws).unitOf path [] (Outline.ofSource path.text [] (sourceOf ws)) := by
  have hfaults : (Lexed.ofText (spell ws)).faults = [] := by
    rw [ofText_spell h]
  show (sourceOf ws).unitOf path (Lexed.ofText (spell ws)).faults _ = _
  rw [hfaults]
  rfl

section

variable {a : Attachment} (h : o.Spans ws.length id d) (hne : ws ≠ [])
  (hcuts : Cuttable (ws ++ [semicolonWord])) (hcode : ∀ w ∈ ws, w.kind ≠ .comment) (path : Path)
  (ha : let u := (sourceOf (ws ++ [semicolonWord])).unitOf path [] o
    u.nextDeclaration (.ofList u.tokens.toList) = .ok a)

include h hne hcuts ha

include hcode in
/-- The declaration that a statement is, is found if a comment can be attached to it. -/
theorem declaration_of_spans (hdoc : d.kind.canBeDocumented = true) :
    a.declaration =
      some (((sourceOf (ws ++ [semicolonWord])).unitOf path [] o).declaration id) := by
  obtain ⟨htokens, -, t, ts, hfirst, hcursor, hstart⟩ := tokensOf_of_spans path h hne hcuts
  simp only [htokens, hfirst] at ha
  have hkind : (((sourceOf (ws ++ [semicolonWord])).unitOf path [] o).cursor id).kind = d.kind := by
    rw [Printed.cursor_eq h.draft h.pos]
    rfl
  have htoken : t.kind ≠ .comment := by
    obtain ⟨w, hw, hface⟩ := kind_of_mem_tokensAfter (hfirst ▸ List.mem_cons_self)
    rw [hface]
    rcases List.mem_append.1 hw with hw | hw
    · exact hcode w hw
    · obtain rfl := List.mem_singleton.1 hw
      decide
  rw [← hcursor] at hstart hkind ⊢
  exact SourceUnit.declaration_of_first ha htoken (Nat.le_of_eq hstart.symm) (by rw [hkind, hdoc])

/-- If no comment can be attached to it, none can be attached to anything, and nothing is found. -/
theorem undocumented_of_spans (hdoc : d.kind.canBeDocumented = false) :
    (∀ c ∈ ((sourceOf (ws ++ [semicolonWord])).unitOf path [] o).cursors,
      c.kind.canBeDocumented = false) ∧ a.declaration = none := by
  obtain ⟨htokens, -, t, ts, hfirst, -, -⟩ := tokensOf_of_spans path h hne hcuts
  simp only [htokens, hfirst] at ha
  have hnone : ∀ c ∈ ((sourceOf (ws ++ [semicolonWord])).unitOf path [] o).cursors,
      c.kind.canBeDocumented = false := by
    intro c hc
    obtain ⟨e, he, hce⟩ := kind_of_mem_cursors hc
    rw [hce]
    exact h.alone hdoc e he
  exact ⟨hnone, SourceUnit.declaration_of_none ha (kind_cursor_of_undocumented hnone)⟩

end

/-- **A text of words that nest their brackets is read as a declaration whose signature it is.** -/
theorem declaration_of_words (hne : ws ≠ []) (hcuts : Cuttable (ws ++ [semicolonWord]))
    {ts : List Token} (hfaces : ts.map Token.face = ws.map Word.face)
    (hkept : headTokens ts = ts) (hnested : Balanced (ws.map Word.text))
    (hdirective : (sourceOf (ws ++ [semicolonWord])).is 0 "#" = false)
    (huncut : (sourceOf (ws ++ [semicolonWord])).Uncut
      ((sourceOf (ws ++ [semicolonWord])).behindHeads 0)) (path : Path) :
    let s := sourceOf (ws ++ [semicolonWord])
    let u := parseText path (spell (ws ++ [semicolonWord])) []
    ∃ a, u.nextDeclaration (.ofList u.tokens.toList) = .ok a ∧
      (∀ d ∈ a.declaration, d.signature = Printed.joined ws) ∧
      (a.declaration = none ↔ ∀ c ∈ u.cursors, c.kind.canBeDocumented = false) ∧
      (s.namesAt (s.behindHeads 0) = true → a.declaration ≠ none) := by
  intro s
  have hcode : ∀ w ∈ ws, w.kind ≠ .comment := by
    intro w hw
    obtain ⟨t, ht, hface⟩ := List.mem_map.1 (hfaces ▸ List.mem_map_of_mem hw)
    rw [← hkept] at ht
    rw [← (Prod.mk.inj hface).1]
    exact kind_of_mem_headFrom ht
  obtain ⟨hflat, -⟩ := flat_of_headFrom hnested (texts_of_faces hfaces) hkept
  have hstatement := Source.isStatement_sourceOf hcuts hcode hflat
  obtain ⟨id, d, hspans, hsure⟩ := Outline.spans_ofSource hstatement
    (List.length_pos_iff.2 hne) hdirective huncut path.text
  rw [parseText_spell hcuts]
  intro u
  obtain ⟨a, ha⟩ := u.exists_nextDeclaration (.ofList u.tokens.toList)
  refine ⟨a, ha, ?_⟩
  cases hdoc : d.kind.canBeDocumented with
  | true =>
    rw [declaration_of_spans hspans hne hcuts hcode path ha hdoc]
    refine ⟨fun found hd => ?_, ⟨fun hmissed => ?_, fun hall => ?_⟩, fun _ => Option.some_ne_none _⟩
    · cases hd
      exact signature_of_spans hspans hne hcuts hfaces hkept hnested path
    · cases hmissed
    · -- the declaration itself is documentable
      have hnot := hall _ (cursorOf_mem hspans.draft hspans.pos)
      rw [Source.cursorOf, hdoc] at hnot
      cases hnot
  | false =>
    obtain ⟨hnone, hmissed⟩ := undocumented_of_spans hspans hne hcuts path ha hdoc
    rw [hmissed]
    refine ⟨by simp, ⟨fun _ => hnone, fun _ => rfl⟩, fun hnames => ?_⟩
    rw [hsure hnames] at hdoc
    cases hdoc

end

/-! ## Signatures -/

theorem faces_wordsOfTokens (ts : List Token) :
    ts.map Token.face = (wordsOfTokens ts).map Word.face := by
  fun_induction wordsOfTokens ts with
  | case1 => rfl
  | case2 t => simp [Token.face, Word.face, Word.text]
  | case3 t u ts ih =>
    rw [List.map_cons, ih]
    simp [Token.face, Word.face, Word.text]

theorem joined_wordsOfTokens (ts : List Token) :
    Printed.joined (wordsOfTokens ts) = textOfTokens ts := by
  induction ts with
  | nil => rfl
  | cons t ts ih =>
    cases ts with
    | nil => exact String.ofList_toList
    | cons u ts =>
      have hwords : ∃ w ws, wordsOfTokens (u :: ts) = w :: ws := by
        cases ts <;> exact ⟨_, _, rfl⟩
      obtain ⟨w, ws, hw⟩ := hwords
      rw [wordsOfTokens, textOfTokens, ← ih, hw, Printed.joined, String.ofList_toList]
      cases t.touches u <;> rfl

/-- A name alone is cut off in front of a `;`. -/
theorem cuttable_name {name : String} (h : IsName name) :
    Cuttable ([letters name .none] ++ [semicolonWord]) := by
  have hname : (letters name .none).Reads (spell [semicolonWord]) :=
    reads_letters h.isWord (fun hgap => absurd rfl hgap) fun _ => endsWord_mark (by decide)
  have hsemicolon : semicolonWord.Reads (spell []) := reads_mark (by decide) fun _ => nofun
  exact Readable.cuttable ⟨hname, hsemicolon, trivial⟩

/-- A name alone is kept. -/
theorem headTokens_name {t : Token} (hcode : t.kind ≠ .comment) (h : IsName t.spelling) :
    headTokens [t] = [t] := by
  refine headFrom_cons_eq_self.2 ⟨hcode, ?_, ?_, rfl⟩
  · rintro ⟨-, heq⟩
    have hmem : t.spelling ∈ ["\x7b", ";"] := by
      rcases heq with heq | heq <;> rw [heq] <;> decide
    exact h.not_mem (by decide) hmem
  · rintro ⟨-, -, hmem⟩
    exact h.not_mem (by decide) hmem

namespace SourceUnit

/-- A signature as a text of its own: with a `;` behind it, and the end of the line. -/
def signatureText (u : SourceUnit) (id : CursorId) : List Char :=
  (u.signature id ++ ";\n").toList

/-- The signature as a text, with its lexemes. -/
def signatureSource (u : SourceUnit) (id : CursorId) : Source :=
  .ofText (u.signatureText id)

/-- A signature can be read again: its text tells the tokens that it was written from, and nothing
in it ends a declaration early. -/
structure Rereadable (u : SourceUnit) (id : CursorId) : Prop where
  /-- The name and the parameters of a macro would be kept as the tokens of another declaration. -/
  macroHead : (u.cursor id).kind = .macroDefinition →
    headTokens (u.keptTokens id) = u.keptTokens id
  /-- Their brackets are nested. -/
  nested : Balanced ((u.keptTokens id).map Token.spelling)
  /-- None of them is a backslash behind a blank, which would be read as layout. -/
  slash : NoLooseBackslash (u.keptTokens id)
  /-- If none is kept, the signature is a name. -/
  name : u.keptTokens id = [] → IsName (u.signature id)
  noDirective : (u.signatureSource id).is 0 "#" = false
  uncut : (u.signatureSource id).Uncut ((u.signatureSource id).behindHeads 0)

variable {u : SourceUnit} {id : CursorId}

/-- Looking through the kept tokens keeps all of them. -/
theorem Rereadable.kept (h : u.Rereadable id) :
    headTokens (u.keptTokens id) = u.keptTokens id := by
  by_cases hkind : (u.cursor id).kind = .macroDefinition
  · exact h.macroHead hkind
  · rw [keptTokens, if_neg hkind, headTokens_headTokens]

theorem Rereadable.kind_of_mem (h : u.Rereadable id) {t : Token} (ht : t ∈ u.keptTokens id) :
    t.kind ≠ .comment := by
  rw [← h.kept] at ht
  exact kind_of_mem_headFrom ht

/-- The words of a signature. -/
theorem Rereadable.exists_words (h : u.Rereadable id) (hcut : CutOff (u.keptTokens id)) :
    ∃ ws ts, ws ≠ [] ∧ Cuttable (ws ++ [semicolonWord]) ∧
      ts.map Token.face = ws.map Word.face ∧ headTokens ts = ts ∧ Balanced (ws.map Word.text) ∧
      spell (ws ++ [semicolonWord]) = u.signatureText id ∧ Printed.joined ws = u.signature id := by
  by_cases hnone : u.keptTokens id = []
  · have hname := h.name hnone
    -- a signature without tokens is the name of its cursor, which is cut off as one word
    generalize hsignature : u.signature id = name at hname
    have htext : (letters name .none).text = name := String.ofList_toList
    refine ⟨[letters name .none], [⟨name, Lexer.wordKind name.toList, default, 0⟩],
      List.cons_ne_nil _ _, cuttable_name hname, ?_, ?_, ?_, ?_, htext⟩
    · rw [List.map_singleton, List.map_singleton, Word.face, htext]
      rfl
    · exact headTokens_name (Printed.kind_letters_ne name .none) hname
    · rw [List.map_singleton, htext]
      exact .word (hname.not_mem (by decide)) .nil
    · simp [signatureText, hsignature, letters, semicolonWord, mark, Gap.chars]
  · have hkept : (u.keptTokens id).isEmpty ≠ true := by
      rwa [ne_eq, List.isEmpty_iff]
    refine ⟨wordsOfTokens (u.keptTokens id), u.keptTokens id, ?_,
      cuttable_wordsOfTokens hcut (fun t => h.kind_of_mem) h.slash, faces_wordsOfTokens _, h.kept,
      ?_, ?_, ?_⟩
    · intro hwords
      have hlen := congrArg List.length (faces_wordsOfTokens (u.keptTokens id))
      rw [hwords, List.length_map] at hlen
      exact hnone (List.eq_nil_of_length_eq_zero hlen)
    · rw [← texts_of_faces (faces_wordsOfTokens _)]
      exact h.nested
    · rw [spell_append, spell_wordsOfTokens, signatureText, signature, if_neg hkept,
        String.toList_append]
      rfl
    · rw [joined_wordsOfTokens, signature, if_neg hkept]

/-- **A signature, read again, is that of the first declaration that is found**, if it can be read
again. None is found exactly if nothing was recognised that a comment can be attached to, and one is
found if the words name something. -/
theorem signature_rescanned (path path' : Path) (cs : List Char) (args : List String)
    (id : CursorId) (h : (parseText path cs args).Rereadable id) :
    let u := parseText path cs args
    let s := u.signatureSource id
    let again := parseText path' (u.signatureText id) []
    ∃ a, again.nextDeclaration (.ofList again.tokens.toList) = .ok a ∧
      (∀ d ∈ a.declaration, d.signature = u.signature id) ∧
      (a.declaration = none ↔ ∀ c ∈ again.cursors, c.kind.canBeDocumented = false) ∧
      (s.namesAt (s.behindHeads 0) = true → a.declaration ≠ none) := by
  intro u s again
  -- the tokens were cut off a text, so the words that they are written as are cut off again
  have hcut : CutOff (u.keptTokens id) := cutOff_of_standsIn fun t ht =>
    Source.standsIn_of_mem (mem_tokens_of_mem_keptTokens ht)
  obtain ⟨ws, ts, hne, hcuts, hfaces, hkept, hnested, htext, hjoined⟩ := h.exists_words hcut
  have hs : u.signatureSource id = sourceOf (ws ++ [semicolonWord]) := by
    rw [sourceOf, htext]
    rfl
  have hagain : again = parseText path' (spell (ws ++ [semicolonWord])) [] := by rw [htext]
  have hdirective := h.noDirective
  have huncut := h.uncut
  rw [hs] at hdirective huncut
  have hfound := declaration_of_words hne hcuts hfaces hkept hnested hdirective huncut path'
  rw [show s = _ from hs, hagain, ← hjoined]
  exact hfound

/-- A function template with its body. -/
def areaText : List Char :=
  "template <class T> T area(T w, T h) \x7b return w * h; \x7d\n".toList

theorem signature_rescanned_area :
    let u := parseText ⟨"area.hpp"⟩ areaText []
    let again := parseText ⟨"signature.hpp"⟩ (u.signatureText 1) []
    u.Rereadable 1 ∧ u.signature 1 = "template <class T> T area(T w, T h)" ∧
      ∃ a, again.nextDeclaration (.ofList again.tokens.toList) = .ok a ∧
        a.declaration.map Declaration.signature = some (u.signature 1) := by
  have hsignature : (parseText ⟨"area.hpp"⟩ areaText []).signature 1 =
      "template <class T> T area(T w, T h)" := by decide +kernel
  have hs : (parseText ⟨"area.hpp"⟩ areaText []).signatureSource 1 =
      .ofText "template <class T> T area(T w, T h);\n".toList := by
    rw [signatureSource, signatureText, hsignature]
    rfl
  have hwords : ((parseText ⟨"area.hpp"⟩ areaText []).keptTokens 1).map Token.spelling =
      ["template", "<", "class", "T", ">", "T", "area"] ++
        "(" :: (["T", "w", ",", "T", "h"] ++ [] ++ Source.closingOf "(" :: []) := by
    decide +kernel
  have h : (parseText ⟨"area.hpp"⟩ areaText []).Rereadable 1 := by
    refine ⟨by decide +kernel, ?_, by decide +kernel, fun hnone => ?_, ?_, ?_, fun j hj => ?_⟩
    · rw [hwords]
      exact .words (by decide) (.group (by decide) (.words (by decide) .nil) .nil)
    · rw [hnone] at hwords
      cases hwords
    · rw [hs]
      decide +kernel
    · rw [hs]
      decide +kernel
    · have hhead : ∀ s, s = Source.ofText "template <class T> T area(T w, T h);\n".toList →
          s.headEnd? (if s.is (s.behindHeads 0) "typedef" then s.behindHeads 0 + 1
            else s.behindHeads 0) = none := by
        rintro s rfl
        decide +kernel
      rw [hhead _ hs] at hj
      cases hj
  intro u again
  refine ⟨h, hsignature, ?_⟩
  obtain ⟨a, ha, hfound, -, hnames⟩ :=
    signature_rescanned ⟨"area.hpp"⟩ ⟨"signature.hpp"⟩ areaText [] 1 h
  refine ⟨a, ha, ?_⟩
  have hsome : a.declaration ≠ none := hnames (by rw [hs]; decide +kernel)
  obtain ⟨d, hd⟩ := Option.ne_none_iff_exists'.1 hsome
  rw [hd, Option.map_some, hfound d hd]

/-- A macro whose name is a keyword. -/
def keywordMacroText : List Char :=
  "#define inline __inline\n".toList

/-- The name of a macro may be a keyword. Its signature, read again, names nothing. -/
theorem signature_of_keyword_macro :
    let u := parseText ⟨"macros.h"⟩ keywordMacroText []
    let again := parseText ⟨"signature.h"⟩ (u.signatureText 2) []
    u.diagnostics = [] ∧
      ((u.nextDeclaration (.ofList u.tokens.toList)).toOption.map Attachment.declaration) =
        some (some (u.declaration 2)) ∧
      (u.declaration 2).category = .macroDefinition ∧ (u.declaration 2).signature = "inline" ∧
      ((again.nextDeclaration (.ofList again.tokens.toList)).toOption.map
        Attachment.declaration) = some none := by
  decide +kernel

end SourceUnit

end DocIndex
