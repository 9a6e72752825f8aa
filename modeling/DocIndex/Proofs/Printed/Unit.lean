import DocIndex.Proofs.Comment.Runs
import DocIndex.Proofs.Printed.Outline
import DocIndex.Proofs.Printed.Signature
import DocIndex.Proofs.Source.Tokens

/-!
# The source unit of a printed tree

What the reader of comments asks of a source unit, answered from the words of a row and from the
cursor that the row has in the outline.

* `scopePath_of_path` — the scopes around a cursor.
* `Declares.begins` — a declaration begins with the first word of its line.
* `Declares.signature` — the signature of a row.
* `consecutive_docs` — the documentation of a row.
-/

namespace DocIndex

namespace Printed

open Outline

/-! ## Cursors -/

section

variable {s : Source} {o : Outline} {file : Path} {faults : List (Nat × LexFault)}
  {id p : CursorId} {d : Draft}

theorem size_cursors : (s.unitOf file faults o).cursors.size = o.drafts.size :=
  Array.size_mapIdx

theorem cursor_eq (hd : o.drafts[id]? = some d) (hid : 0 < id) :
    (s.unitOf file faults o).cursor id = s.cursorOf d := by
  have hget : (s.unitOf file faults o).cursors[id]? = some (s.cursorOf d) := by
    simp only [Source.unitOf, Source.cursorsOf, Array.getElem?_mapIdx, hd, Option.map_some]
    rw [if_neg (Nat.ne_of_gt hid)]
  rw [SourceUnit.cursor, Array.getD_eq_getD_getElem?, hget, Option.getD_some]

theorem scopesWithin_succ (hd : o.drafts[id]? = some d) (hid : 0 < id)
    (hparent : d.parent = some p) (n : Nat) :
    (s.unitOf file faults o).scopesWithin (n + 1) id =
      if p = 0 then [] else p :: (s.unitOf file faults o).scopesWithin n p := by
  have hcursor : ((s.unitOf file faults o).cursor id).parent = some p := by
    rw [cursor_eq hd hid]
    exact hparent
  rw [SourceUnit.scopesWithin]
  simp only [hcursor]

variable (s file faults) in
/-- The names from a scope on outwards are those of its path. -/
theorem names_of_path {path : List String} (hp : o.Path p path) {n : Nat} (hn : p ≤ n) :
    let u := s.unitOf file faults o
    let scopes := if p = 0 then [] else p :: u.scopesWithin n p
    ((scopes.map fun k => (u.cursor k).spelling).filter (!·.isEmpty)).reverse = path := by
  induction hp generalizing n with
  | file => rfl
  | @inside id p d path hd hparent hlt _ ih =>
    have hid : 0 < id := Nat.zero_lt_of_lt hlt
    obtain ⟨n, rfl⟩ := Nat.exists_eq_add_one_of_ne_zero (Nat.ne_of_gt (Nat.lt_of_lt_of_le hid hn))
    have hspelling : ((s.unitOf file faults o).cursor id).spelling = d.spelling := by
      rw [cursor_eq hd hid]
      rfl
    have houter := ih (Nat.le_of_lt_succ (Nat.lt_of_lt_of_le hlt hn))
    intro u scopes
    simp only [scopes, u, if_neg (Nat.ne_of_gt hid), List.map_cons, hspelling,
      scopesWithin_succ hd hid hparent]
    rw [← List.singleton_append, List.filter_append, List.reverse_append, houter]
    cases hs : d.spelling.isEmpty <;> simp [hs]

variable (s file faults) in
/-- The scopes around a cursor, from its parent. -/
theorem scopePath_of_path {path : List String} (hd : o.drafts[id]? = some d)
    (hparent : d.parent = some p) (hlt : p < id) (hp : o.Path p path) :
    (s.unitOf file faults o).scopePath id = "::".intercalate path := by
  have hsize : id < o.drafts.size := (Array.getElem?_eq_some_iff.1 hd).1
  obtain ⟨n, hn⟩ := Nat.exists_eq_add_one_of_ne_zero (Nat.ne_of_gt (Nat.zero_lt_of_lt hsize))
  have hle : p ≤ n := Nat.le_of_lt_succ (Nat.lt_trans hlt (Nat.lt_of_lt_of_eq hsize hn))
  have hnames := names_of_path s file faults hp hle
  rw [SourceUnit.scopePath, SourceUnit.scopes, size_cursors, hn,
    scopesWithin_succ hd (Nat.zero_lt_of_lt hlt) hparent, hnames]

/-- The extent between two lexemes, from their tokens. -/
theorem extentOf_eq {i j : Nat} {t v : Token}
    (ht : (s.unitOf file faults o).tokens[i]? = some t)
    (hv : (s.unitOf file faults o).tokens[j]? = some v) :
    s.extentOf i j = ⟨t.extent.start, v.extent.stop⟩ := by
  have htokens : ∀ k, (s.unitOf file faults o).tokens[k]? = s.lexemes[k]?.map (s.tokenOf o k) :=
    fun _ => Array.getElem?_mapIdx
  rw [htokens] at ht hv
  obtain ⟨a, ha, rfl⟩ := Option.map_eq_some_iff.1 ht
  obtain ⟨b, hb, rfl⟩ := Option.map_eq_some_iff.1 hv
  rw [Source.extentOf, ha, hb]
  rfl

end

/-! ## Lines of code -/

namespace CodeLine

/-- Only the last word ends the line. -/
theorem gap_ne_line (code : CodeLine) : ∀ w ∈ code.words.dropLast, w.gap ≠ .line := by
  cases code with
  | openNamespace name => cases name <;> simp [words, letters, mark]
  | leaf l => cases l <;> simp [words, Leaf.words, letters, mark]
  | openLinkage => simp [words, letters, quotedC, mark]
  | openRecord key name => simp [words, letters, mark]
  | closeBrace => simp [words, mark]
  | closeRecord => simp [words, mark]

theorem lineEnds_words (code : CodeLine) : lineEnds code.words = 1 := by
  cases code with
  | openNamespace name => cases name <;> rfl
  | leaf l => cases l <;> rfl
  | openLinkage => rfl
  | openRecord key name => rfl
  | closeBrace => rfl
  | closeRecord => rfl

theorem words_ne_nil (code : CodeLine) : code.words ≠ [] := by
  intro h
  have hends := code.lineEnds_words
  rw [h] at hends
  cases hends

theorem kind_ne_comment (code : CodeLine) : ∀ w ∈ code.words, w.kind ≠ .comment := by
  cases code with
  | openNamespace name => cases name <;> simp [words, kind_letters_ne, mark]
  | leaf l => cases l <;> simp [words, Leaf.words, kind_letters_ne, mark]
  | openLinkage => simp [words, kind_letters_ne, quotedC, mark]
  | openRecord key name => simp [words, kind_letters_ne, mark]
  | closeBrace => simp [words, mark]
  | closeRecord => simp [words, mark]

/-- What is kept stands within the line. -/
theorem words_eq {code : CodeLine} (h : code.Declarative) :
    ∃ tail, code.words = code.silent ++ (code.kept ++ tail) := by
  cases code with
  | openRecord key name => exact ⟨_, rfl⟩
  | leaf l => cases l <;> exact ⟨_, rfl⟩
  | openNamespace name => cases h
  | openLinkage => cases h
  | closeBrace => cases h
  | closeRecord => cases h

theorem kept_ne_nil {code : CodeLine} (h : code.Declarative) : code.kept ≠ [] := by
  cases code with
  | openRecord key name => exact List.cons_ne_nil _ _
  | leaf l => cases l <;> exact List.cons_ne_nil _ _
  | openNamespace name => cases h
  | openLinkage => cases h
  | closeBrace => cases h
  | closeRecord => cases h

end CodeLine

/-! ## Declarations -/

section

variable {all front rest : List Word} {o : Outline} {r : Row} {id : CursorId} {d : Draft}

theorem Declares.pos {i : Nat} (hd : Declares o i r id d) : 0 < id := by
  obtain ⟨p, -, hlt, -⟩ := hd.path
  exact Nat.zero_lt_of_lt hlt

theorem Declares.cursor_eq (file : Path) {i : Nat} (hd : Declares o i r id d) :
    ((sourceOf all).unitOf file [] o).cursor id = (sourceOf all).cursorOf d :=
  Printed.cursor_eq hd.draft hd.pos

theorem Declares.kind_eq (file : Path) {i : Nat} (hd : Declares o i r id d) :
    (((sourceOf all).unitOf file [] o).cursor id).kind = r.kind := by
  rw [hd.cursor_eq file]
  exact hd.kind

/-- A declaration reaches from the first word of its line at least to the last one. -/
theorem Declares.tokensOf (file : Path) (h : Readable all)
    (hall : all = front ++ (r.code.words ++ rest)) (hd : Declares o front.length r id d)
    (hlast : d.last < all.length) {w : Word} {ws : List Word}
    (hw : r.code.words = w :: ws) :
    let u := (sourceOf all).unitOf file [] o
    (u.cursor id).extent.start =
        (tokenAfter (sourceOf all).lines o.ownerOf front w).extent.start ∧
      ∃ more, u.tokensOf id =
        tokensAfter (sourceOf all).lines o.ownerOf front r.code.words ++ more := by
  intro u
  let k := d.last + 1 - (front.length + r.code.words.length)
  have hreach : front.length + r.code.words.length ≤ d.last + 1 := hd.last
  have hsize : all.length = front.length + (r.code.words.length + rest.length) := by
    rw [hall, List.length_append, List.length_append]
  -- the words up to the end of the cursor
  have hne : r.code.words ++ rest.take k ≠ [] := by rw [hw]; exact List.cons_ne_nil _ _
  obtain ⟨body, v, hbody⟩ : ∃ body v, r.code.words ++ rest.take k = body ++ [v] :=
    ⟨_, _, (List.dropLast_concat_getLast hne).symm⟩
  have hend : (front ++ body).length = d.last := by
    have := congrArg List.length hbody
    simp only [List.length_append, List.length_take, List.length_singleton] at this ⊢
    omega
  have hsplit : all = front ++ ((r.code.words ++ rest.take k) ++ rest.drop k) := by
    rw [List.append_assoc, List.take_append_drop, hall]
  have hutokens : u.tokens = _ := tokens_unitOf h.cuttable file [] o
  have hfirst : u.tokens[front.length]? =
      some (tokenAfter (sourceOf all).lines o.ownerOf front w) := by
    have := getElem?_tokensAfter (sourceOf all).lines o.ownerOf front (ws ++ rest) w
    rwa [← List.cons_append, ← hw, ← hall, ← List.getElem?_toArray, ← hutokens] at this
  have hstop : u.tokens[d.last]? =
      some (tokenAfter (sourceOf all).lines o.ownerOf (front ++ body) v) := by
    have := getElem?_tokensAfter (sourceOf all).lines o.ownerOf (front ++ body) (rest.drop k) v
    rwa [List.append_cons, List.append_assoc front, ← hbody, List.append_assoc, ← hsplit, hend,
      ← List.getElem?_toArray, ← hutokens] at this
  have hextent : (u.cursor id).extent =
      ⟨(tokenAfter (sourceOf all).lines o.ownerOf front w).extent.start,
        (tokenAfter (sourceOf all).lines o.ownerOf (front ++ body) v).extent.stop⟩ := by
    rw [show u.cursor id = _ from hd.cursor_eq file]
    rw [← extentOf_eq hfirst hstop, ← hd.first]
    rfl
  have hof : u.tokensOf id = _ :=
    tokensOf_words hutokens h.cuttable hsplit (by rw [hw]; rfl) hbody (by rw [hextent])
      (by rw [hextent])
  exact ⟨by rw [hextent], _, hof.trans tokensAfter_append⟩

theorem Declares.keptTokens (file : Path) (h : Readable all)
    (hall : all = front ++ (r.code.words ++ rest)) (hd : Declares o front.length r id d)
    (hlast : d.last < all.length) :
    ((sourceOf all).unitOf file [] o).keptTokens id =
      tokensAfter (sourceOf all).lines o.ownerOf (front ++ r.code.silent) r.code.kept := by
  obtain ⟨w, ws, hw⟩ := List.exists_cons_of_ne_nil r.code.words_ne_nil
  obtain ⟨-, more, hof⟩ := hd.tokensOf file h hall hlast hw
  rw [SourceUnit.keptTokens, hd.kind_eq file, if_neg hd.sound.notMacro, hof,
    headTokens_code hd.sound.declarative]

/-- The signature of what a row declares is that of its line. -/
theorem Declares.signature_eq (file : Path) (h : Readable all)
    (hall : all = front ++ (r.code.words ++ rest)) (hd : Declares o front.length r id d)
    (hlast : d.last < all.length) :
    ((sourceOf all).unitOf file [] o).signature id = r.code.signature := by
  obtain ⟨v, vs, hv⟩ := List.exists_cons_of_ne_nil (CodeLine.kept_ne_nil hd.sound.declarative)
  have hsome : (tokensAfter (sourceOf all).lines o.ownerOf (front ++ r.code.silent)
      r.code.kept).isEmpty = false := by
    rw [hv]
    rfl
  rw [SourceUnit.signature, hd.keptTokens file h hall hlast, hsome, if_neg Bool.false_ne_true,
    textOfTokens_tokensAfter, joined_kept hd.sound.declarative]

/-- **What a row declares begins with the first word of its line, and its signature ends on that
line.** -/
theorem Declares.begins (file : Path) (h : Readable all)
    (hall : all = front ++ (r.code.words ++ rest)) (hd : Declares o front.length r id d)
    (hlast : d.last < all.length) {w : Word} {ws : List Word}
    (hw : r.code.words = w :: ws) {directive : Directive}
    (hdirective : (Category.ofKind r.kind).directive? = some directive) :
    let u := (sourceOf all).unitOf file [] o
    let t := tokenAfter (sourceOf all).lines o.ownerOf front w
    t.cursor = id ∧ t.extent.start.line = lineEnds front + 1 ∧
      u.Begins t (tokensAfter (sourceOf all).lines o.ownerOf (front ++ [w]) ws)
        (lineEnds front + 1) directive := by
  intro u t
  -- nothing around a declaration owns its first lexeme
  have hcursor : t.cursor = id := by
    show (o.owners.getD front.length none).getD 0 = id
    rw [Array.getD_eq_getD_getElem?, hd.owner]
    rfl
  have hline : ∀ v ∈ tokensAfter (sourceOf all).lines o.ownerOf front r.code.words,
      v.extent.start.line = lineEnds front + 1 ∧ v.extent.stop.line = lineEnds front + 1 :=
    fun v hv => line_of_mem_tokensAfter h hall r.code.gap_ne_line hv
  have hwords : tokensAfter (sourceOf all).lines o.ownerOf front r.code.words =
      t :: tokensAfter (sourceOf all).lines o.ownerOf (front ++ [w]) ws := by
    rw [hw]
    rfl
  obtain ⟨hstart, -⟩ := hd.tokensOf file h hall hlast hw
  have hfirst : t ∈ tokensAfter (sourceOf all).lines o.ownerOf front r.code.words := by
    rw [hwords]
    exact List.mem_cons_self
  refine ⟨hcursor, (hline t hfirst).1, ?_, ?_, ?_, ?_, ?_⟩
  · exact r.code.kind_ne_comment w (by rw [hw]; exact List.mem_cons_self)
  · rw [hcursor]
    exact Nat.le_of_eq (congrArg Place.offset hstart.symm)
  · rw [hcursor, hd.kind_eq file, hdirective]
  · rw [hcursor, hd.keptTokens file h hall hlast]
    refine (hline _ ?_).2
    -- what is kept stands within the line, so it ends there
    obtain ⟨tail, htail⟩ := CodeLine.words_eq hd.sound.declarative
    have hkept : ∀ v ∈ tokensAfter (sourceOf all).lines o.ownerOf (front ++ r.code.silent)
        r.code.kept, v ∈ tokensAfter (sourceOf all).lines o.ownerOf front r.code.words := by
      intro v hv
      rw [htail, tokensAfter_append, tokensAfter_append]
      exact List.mem_append_right _ (List.mem_append_left _ hv)
    rcases List.mem_cons.1 List.getLastD_mem_cons with hlast | hlast
    · rw [hlast]
      exact hfirst
    · exact hkept _ hlast
  · intro v hv
    exact Nat.le_of_eq (hline v (by rw [hwords]; exact List.mem_cons_of_mem _ hv)).2

/-! ## Documentation -/

theorem lineEnds_docs (docs : List DocText) : lineEnds (docs.map DocText.word) = docs.length := by
  induction docs with
  | nil => rfl
  | cons t docs ih => simp [ih, DocText.word]

theorem isDocLine_tokenAfter (lines : LineTable) (owner : Nat → CursorId) (front : List Word)
    (t : DocText) : (tokenAfter lines owner front t.word).isDocLine = true := by
  simp [Token.isDocLine, tokenAfter, DocText.word, DocText.line]

/-- The documentation of a row follows line by line. -/
theorem consecutive_docs (h : Readable all) (owner : Nat → CursorId) {docs : List DocText}
    (hall : all = front ++ (docs.map DocText.word ++ rest)) :
    Consecutive (lineEnds front + 1)
      (tokensAfter (sourceOf all).lines owner front (docs.map DocText.word)) := by
  induction docs generalizing front with
  | nil => trivial
  | cons t docs ih =>
    have hnext := @ih (front ++ [t.word]) (by rw [hall]; simp)
    have hline : lineEnds (front ++ [t.word]) = lineEnds front + 1 := by
      simp [DocText.word]
    rw [hline] at hnext
    subst hall
    obtain ⟨hstart, hstop⟩ := line_tokenAfter h
    exact ⟨isDocLine_tokenAfter _ _ _ t, hstart, hstop, hnext⟩

theorem spelling_docs (lines : LineTable) (owner : Nat → CursorId) (docs : List DocText) :
    (tokensAfter lines owner front (docs.map DocText.word)).map Token.spelling =
      docs.map DocText.line := by
  induction docs generalizing front with
  | nil => rfl
  | cons t docs ih =>
    rw [List.map_cons, tokensAfter, List.map_cons, ih, List.map_cons]
    simp [tokenAfter, DocText.word]

/-- Documentation lines spell out no directive. -/
theorem announcesDirective_docs (lines : LineTable) (owner : Nat → CursorId) (docs : List DocText) :
    ∀ v ∈ tokensAfter lines owner front (docs.map DocText.word),
      Comment.announcesDirective v.spelling = false := by
  intro v hv
  have hmem : v.spelling ∈ docs.map DocText.line := by
    rw [← spelling_docs lines owner docs]
    exact List.mem_map_of_mem hv
  obtain ⟨t, -, ht⟩ := List.mem_map.1 hmem
  rw [← ht]
  simp [Comment.announcesDirective, DocText.line, List.isPrefixOf]

/-- A line of code does not document. -/
theorem isDocLine_code (lines : LineTable) (owner : Nat → CursorId) (code : CodeLine) {t : Token}
    (ht : t ∈ tokensAfter lines owner front code.words) : t.isDocLine = false := by
  obtain ⟨w, hw, hkind⟩ := kind_of_mem_tokensAfter ht
  have hcode : t.kind ≠ .comment := by
    rw [hkind]
    exact code.kind_ne_comment w hw
  simp [Token.isDocLine, hcode]

end

end Printed

end DocIndex
