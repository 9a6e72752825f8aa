import DocIndex.Proofs.Printed.Unit

/-!
# Scanning a printed tree

A printed text is scanned row by row. The tokens of rows without documentation are passed over; in
front of a documented row there is nothing else left, and its lines are filed under what it
declares.

* `scan_rows` — rows that have their cursors are filed in order.
* `scan_print` — **scanning a printed tree gives back what it documents.**
-/

namespace DocIndex

namespace Printed

open Outline SourceUnit

/-- What a filed comment tells. -/
def Documented.ofComment (d : DirectiveComment) : Documented :=
  { context := d.context, signature := d.signature, text := d.comment.text }

section

variable {all front : List Word} {o : Outline} {r : Row} {rs : List Row} {id : CursorId} {d : Draft}
  {ts : TokenStream} {skipped : List Token}

/-- What is filed for the lines of a row is what the row documents. -/
theorem documented_entry (file : Path) (h : Readable all) {before rest : List Word}
    (hall : all = before ++ (r.code.words ++ rest)) (hmodule : o.moduleName = none)
    (hd : Declares o before.length r id d) (hlast : d.last < all.length) (hdocs : r.docs ≠ [])
    {directive : Directive} (hdirective : (Category.ofKind r.kind).directive? = some directive)
    (nextLine : Nat) :
    let docs := tokensAfter (sourceOf all).lines o.ownerOf front (r.docs.map DocText.word)
    r.documented? = some (Documented.ofComment
      (((sourceOf all).unitOf file [] o).entry docs nextLine directive id)) := by
  obtain ⟨p, hparent, hlt, hpath⟩ := hd.path
  have hscopes := scopePath_of_path (sourceOf all) file [] hd.draft hparent hlt hpath
  have hsignature := hd.signature_eq file h hall hlast
  have hmodule' : ((sourceOf all).unitOf file [] o).moduleName = none := hmodule
  rw [Row.documented?, hdirective, if_neg (by simpa using hdocs)]
  simp only [Documented.ofComment, entry, documentation, hscopes, hsignature, hmodule',
    spelling_docs, Option.map_some, Option.getD_none]

/-- A documented row is filed under what it declares. -/
theorem file_row (file : Path) (options : ScanOptions) (h : Readable all)
    (hall : all = front ++ (r.words ++ wordsOf rs)) (hmodule : o.moduleName = none)
    (hdocs : r.docs ≠ []) (hd : Declares o (front.length + r.docs.length) r id d)
    (hlast : d.last < all.length) (hskipped : ∀ v ∈ skipped, v.isDocLine = false)
    (hts : ts.toList =
      skipped ++ tokensAfter (sourceOf all).lines o.ownerOf front (r.words ++ wordsOf rs)) :
    ∃ c ts', ((sourceOf all).unitOf file [] o).fileNext? options ts =
        .ok (some { filed := .directive c, logs := [], stream := ts' }) ∧
      r.documented? = some (Documented.ofComment c) ∧
      ts'.toList =
        tokensAfter (sourceOf all).lines o.ownerOf (front ++ r.words) (wordsOf rs) := by
  obtain ⟨directive, hdirective⟩ := hd.sound.directive
  obtain ⟨w, ws, hw⟩ := List.exists_cons_of_ne_nil r.code.words_ne_nil
  let lines := (sourceOf all).lines
  let before := front ++ r.docs.map DocText.word
  let docs := tokensAfter lines o.ownerOf front (r.docs.map DocText.word)
  let t := tokenAfter lines o.ownerOf before w
  let same := tokensAfter lines o.ownerOf (before ++ [w]) ws
  let after := tokensAfter lines o.ownerOf (front ++ r.words) (wordsOf rs)
  have hwords : front ++ r.words = before ++ r.code.words := by
    simp only [Row.words, before, List.append_assoc]
  have hbefore : all = before ++ (r.code.words ++ wordsOf rs) := by
    rw [hall, ← List.append_assoc, hwords, List.append_assoc]
  have hafter : all = (front ++ r.words) ++ wordsOf rs := by rw [hall, List.append_assoc]
  have hlen : before.length = front.length + r.docs.length := by
    rw [List.length_append, List.length_map]
  have hcount : docs.length = r.docs.length := by
    rw [length_tokensAfter, List.length_map]
  have hne : docs ≠ [] := by
    intro hnil
    rw [hnil] at hcount
    exact hdocs (List.length_eq_zero_iff.1 hcount.symm)
  -- the tokens to come
  have htokens : ts.toList = skipped ++ (docs ++ t :: (same ++ after)) := by
    rw [hts, Row.words, List.append_assoc, tokensAfter_append, tokensAfter_append, hw]
    simp only [tokensAfter, List.cons_append, docs, t, same, after, lines, before, Row.words, hw,
      List.append_assoc]
  have hconsecutive : Consecutive (lineEnds front + 1) docs :=
    consecutive_docs h o.ownerOf (by rw [hall, Row.words, List.append_assoc])
  have hplain : ∀ v ∈ docs, Comment.announcesDirective v.spelling = false :=
    announcesDirective_docs lines o.ownerOf r.docs
  -- the code follows on the line behind the run, and the next row behind the code
  have hline : lineEnds before + 1 = lineEnds front + 1 + docs.length := by
    rw [lineEnds_append, lineEnds_docs, hcount]; omega
  rw [← hlen] at hd
  obtain ⟨hcursor, hstart, hbegins⟩ := hd.begins file h hbefore hlast hw hdirective
  rw [hline] at hstart hbegins
  have hnext : ∀ v ∈ after.head?, lineEnds front + 1 + docs.length < v.extent.stop.line := by
    intro v hv
    rw [line_head_tokensAfter h hafter v hv, hwords, lineEnds_append, CodeLine.lineEnds_words,
      hline]
    exact Nat.lt_succ_self _
  obtain ⟨ts', hfile, hrest⟩ := fileNext?_eq options hskipped hne hconsecutive hplain hstart hbegins
    hnext htokens
  refine ⟨_, ts', hfile, ?_, hrest⟩
  rw [show t.cursor = id from hcursor]
  exact documented_entry file h hbefore hmodule hd hlast hdocs hdirective _

/-- **Rows that have their cursors are filed in order.** -/
theorem scan_rows (file : Path) (options : ScanOptions) (h : Readable all)
    (ho : o.Ready (sourceOf all) (sourceOf all).size) (hall : all = front ++ wordsOf rs)
    (hf : Found o front.length rs) (st : ScanState)
    (hskipped : ∀ v ∈ skipped, v.isDocLine = false)
    (hts : ts.toList =
      skipped ++ tokensAfter (sourceOf all).lines o.ownerOf front (wordsOf rs)) :
    ∃ cs, ((sourceOf all).unitOf file [] o).scanFrom options st ts =
        ({ st with directiveComments := st.directiveComments ++ cs }, none) ∧
      cs.map Documented.ofComment = rs.filterMap Row.documented? := by
  induction rs generalizing front st ts skipped with
  | nil =>
    refine ⟨[], ?_, rfl⟩
    rw [List.append_nil]
    refine scanFrom_none fun v hv => hskipped v ?_
    rwa [hts, wordsOf_nil, tokensAfter, List.append_nil] at hv
  | cons r rs ih =>
    obtain ⟨hfound, hf⟩ := hf
    rw [wordsOf_cons] at hall hts
    have hall' : all = (front ++ r.words) ++ wordsOf rs := by rw [hall, List.append_assoc]
    rw [← List.length_append] at hf
    by_cases hdocs : r.docs = []
    · -- what is not documented is passed over with what has been so far
      have hwords : r.words = r.code.words := by rw [Row.words, hdocs]; rfl
      have hnone : r.documented? = none := by rw [Row.documented?, hdocs]; rfl
      rw [List.filterMap_cons_none hnone]
      have hcode : ∀ v ∈ skipped ++ tokensAfter (sourceOf all).lines o.ownerOf front r.words,
          v.isDocLine = false := by
        intro v hv
        rcases List.mem_append.1 hv with hv | hv
        · exact hskipped v hv
        · rw [hwords] at hv
          exact isDocLine_code _ _ r.code hv
      rw [tokensAfter_append, ← List.append_assoc] at hts
      exact ih hall' hf st hcode hts
    · -- nothing is left in front of the run but what was passed over
      obtain ⟨id, d, hd⟩ := hfound hdocs
      have hlast : d.last < all.length := by
        rw [← size_sourceOf h.cuttable]
        exact ho.within id d hd.pos hd.draft
      obtain ⟨c, ts', hfile, hrow, hrest⟩ :=
        file_row file options h hall ho.moduleName hdocs hd hlast hskipped hts
      have hnothing : ∀ v ∈ ([] : List Token), v.isDocLine = false := by
        intro v hv
        cases hv
      obtain ⟨cs, hscan, hcs⟩ := ih hall' hf
        { st with directiveComments := st.directiveComments ++ [c] } hnothing hrest
      refine ⟨c :: cs, ?_, ?_⟩
      · rw [scanFrom_some hfile, hscan]
        simp
      · rw [List.map_cons, hcs, List.filterMap_cons_some hrow]

end

/-- **Scanning a printed tree gives back what it documents**: the text is read without trouble, no
comment floats, and the comments are filed in the order of the tree, each with its own lines, under
its directive, scopes and signature. -/
theorem scan_print (file : Path) (items : List Item) (modified : Timestamp)
    (options : ScanOptions) :
    let u := parseText file (print items).toList []
    u.diagnostics = [] ∧
      ∃ comments, (u.scan modified options).result = .ok comments ∧
        comments.diagnostics = [] ∧ comments.floatingComments = [] ∧
          comments.directiveComments.map Documented.ofComment = Item.documentedOf [] items := by
  let rows := Item.rowsOf [] items
  let s := sourceOf (wordsOf rows)
  let o := Outline.ofSource file.text [] s
  have hread : Readable (wordsOf rows) := (readable_wordsOf rows).1
  have hrows : Reads s [] none rows := reads_items [] items
  obtain ⟨ho, hf⟩ : o.Ready s s.size ∧ Found o ([] : List Word).length rows :=
    hrows.ofSource (shows_sourceOf hread.cuttable) (size_sourceOf hread.cuttable) file.text
  intro u
  -- the text is cut into the words of its rows
  have hfaults : (Lexed.ofText (spell (wordsOf rows))).faults = [] := by
    rw [ofText_spell hread.cuttable]
  have hu : u = s.unitOf file [] o := by
    have htext : u = s.unitOf file (Lexed.ofText (spell (wordsOf rows))).faults o :=
      congrArg (fun cs => parseText file cs []) (print_eq items)
    rw [htext, hfaults]
  have hdiagnostics : u.diagnostics = [] := by
    rw [hu]
    simp only [Source.unitOf, ho.notes, List.map_nil, List.append_nil]
  have htokens : (TokenStream.ofList u.tokens.toList).toList =
      [] ++ tokensAfter s.lines o.ownerOf [] (wordsOf rows) := by
    rw [hu, tokens_unitOf hread.cuttable]
    rfl
  have hnothing : ∀ v ∈ ([] : List Token), v.isDocLine = false := by
    intro v hv
    cases hv
  obtain ⟨cs, hscan, hcs⟩ :=
    scan_rows file options hread ho (List.nil_append _).symm hf u.scanStart hnothing htokens
  rw [← hu] at hscan
  refine ⟨hdiagnostics, ?_⟩
  rw [scan, hscan]
  exact ⟨_, rfl, hdiagnostics, rfl, hcs.trans (documented_items [] items).symm⟩

end Printed

end DocIndex
