import DocIndex.Comment.File
import DocIndex.Proofs.Comment.Stored
import DocIndex.Proofs.Fallible
import Mathlib.Data.List.DropRight

/-!
# What scanned files hold

* `parse_name_parse` — a directive that was read is read again from its name.
* `Disk.scan_ok` — what the scan of a file on disk leads to: its comments are of that file, their
  directives are canonical, and its time is that of the file.
-/

namespace DocIndex

open Text

namespace Text

theorem trim_eq (cs : List Char) : trim cs = (cs.dropWhile isBlank).rdropWhile isBlank :=
  rfl

/-- A text without outer blanks has none to lose. -/
theorem trim_trim (cs : List Char) : trim (trim cs) = trim cs := by
  have hhead : (trim cs).dropWhile isBlank = trim cs := by
    rw [trim_eq, List.dropWhile_eq_self_iff]
    intro hl
    have hfront : (cs.dropWhile isBlank).rdropWhile isBlank <+: cs.dropWhile isBlank :=
      List.rdropWhile_prefix _ _
    have hl' : 0 < (cs.dropWhile isBlank).length := Nat.lt_of_lt_of_le hl hfront.length_le
    have hsame := hfront.getElem hl
    rw [hsame]
    exact List.dropWhile_get_zero_not isBlank cs hl'
  rw [trim_eq (trim cs), hhead, trim_eq, List.rdropWhile_idempotent]

end Text

namespace Directive

/-- A directive that was read is read again from its name. -/
theorem parse_name_parse (s : String) : parse (parse s).name = parse s := by
  have known {name : String} {d : Directive} (h : ofBareName? name = some d) :
      parse d.name = d := by
    unfold ofBareName? at h
    split at h <;> cases h <;> decide
  cases h : ofBareName? (String.ofList (dropDomain (trim s.toList))) with
  | some d =>
    have hs : parse s = d := by
      rw [parse, h, Option.getD_some]
    rw [hs, known h]
  | none =>
    have hs : parse s = custom (String.ofList (trim s.toList)) := by
      rw [parse, h, Option.getD_none]
    rw [hs, name, parse, String.toList_ofList, trim_trim, h, Option.getD_none]

/-- So is the directive of a category. -/
theorem parse_name_of_category {category : Category} {d : Directive}
    (h : category.directive? = some d) : parse d.name = d := by
  cases category <;> cases h <;> decide

end Directive

/-! ## What is filed -/

/-- The comment is of the file at `path`, and its directive is read again from its name. -/
structure DirectiveComment.FiledAt (path : Path) (d : DirectiveComment) : Prop where
  file_eq : d.comment.file = path
  canonical : d.Canonical

variable {c c' : Comment} {ts ts' : TokenStream}

theorem file_endRun {t : Token} (h : endRun c t ts = .ok (c', ts')) : c' = c := by
  unfold endRun at h
  split at h
  · cases h
    rfl
  · cases h

theorem file_readRun (h : readRun c ts = .ok (c', ts')) : c'.file = c.file := by
  fun_induction readRun c ts with
  | case1 c ts => cases h; rfl
  | case2 c ts t ts'' hn hstop => rw [file_endRun h]
  | case3 c ts t ts'' hn hgo hdoc ih => exact ih h
  | case4 => cases h
  | case5 c ts t ts'' hn hgo hdoc hblock ih => exact ih h

/-- A comment is of the file that it is read from. -/
theorem file_nextRun? {file : Path} (h : nextRun? file ts = .ok (some (c, ts'))) :
    c.file = file := by
  unfold nextRun? at h
  split at h
  · cases h
  · obtain ⟨⟨c', ts''⟩, hr, he⟩ := Fallible.map_eq_ok.1 h
    cases he
    exact file_readRun hr

theorem explicit?_canonical {e : ExplicitDirective} (h : c.explicit? = some (e, c')) :
    Directive.parse e.directive.name = e.directive ∧ c'.file = c.file := by
  unfold Comment.explicit? at h
  split at h
  · cases h
  · obtain ⟨e', he, heq⟩ := Option.map_eq_some_iff.1 h
    cases heq
    refine ⟨?_, rfl⟩
    unfold Comment.directiveOfLine? at he
    split at he
    · split at he
      · cases he
      · split at he
        · obtain ⟨d, -, rfl⟩ := Option.map_eq_some_iff.1 he
          dsimp only
          rw [Directive.parse_name_parse]
        · cases he
    · cases he

theorem filedAt_fileComment {options : ScanOptions} {moduleName : String} {floating : Bool}
    {declaration : Option Declaration} {d : DirectiveComment}
    (h : fileComment options moduleName c floating declaration = .directive d) :
    d.FiledAt c.file := by
  unfold fileComment at h
  dsimp only at h
  split at h
  · rename_i e c' he
    cases h
    exact ⟨(explicit?_canonical he).2, (explicit?_canonical he).1⟩
  · split at h
    · split at h
      · cases h
        exact ⟨rfl, Directive.parse_name_of_category ‹_›⟩
      · cases h
    · split at h <;> cases h

namespace SourceUnit

variable {u : SourceUnit} {options : ScanOptions}

theorem filedAt_fileNext? {f : FiledComment} (h : u.fileNext? options ts = .ok (some f))
    {d : DirectiveComment} (hd : f.filed = .directive d) : d.FiledAt u.path := by
  obtain ⟨c, ts₁, next, ts₂, found, hr, -, -, hfiled, -, -⟩ := of_fileNext? h
  rw [← file_nextRun? hr]
  exact filedAt_fileComment (hfiled.symm.trans hd)

theorem filedAt_scanFrom (options : ScanOptions) {st : ScanState} (ts : TokenStream)
    (hst : ∀ d ∈ st.directiveComments, d.FiledAt u.path) :
    ∀ d ∈ (u.scanFrom options st ts).1.directiveComments, d.FiledAt u.path := by
  fun_induction scanFrom u options st ts with
  | case1 st ts e he => exact hst
  | case2 st ts hn => exact hst
  | case3 st ts f hf ih =>
    refine ih fun d hd => ?_
    unfold ScanState.add at hd
    dsimp only at hd
    split at hd
    · rcases List.mem_append.1 hd with hd | hd
      · exact hst d hd
      · obtain rfl := List.mem_singleton.1 hd
        exact filedAt_fileNext? hf ‹_›
    · exact hst d hd
    · exact hst d hd

theorem scan_ok {modified : Timestamp} {f : FileComments}
    (h : (u.scan modified options).result = .ok f) :
    f.modified = modified ∧ ∀ d ∈ f.directiveComments, d.FiledAt u.path := by
  unfold scan at h
  split at h
  · cases h
  · rename_i st hst
    cases h
    have hstart : ∀ d ∈ u.scanStart.directiveComments, d.FiledAt u.path := nofun
    have hfiled := filedAt_scanFrom options (.ofList u.tokens.toList) hstart
    rw [hst] at hfiled
    exact ⟨rfl, hfiled⟩

end SourceUnit

/-! ## Files on disk -/

namespace Disk

variable {d : Disk} {path : Path}

/-- A file that can be read has a time. -/
theorem modified?_of_read {bytes : List UInt8} (h : d.read path = .ok bytes) :
    ∃ t, d.modified? path = some t := by
  unfold read at h
  obtain ⟨t, ht, h⟩ := Fallible.bind_eq_ok.1 h
  unfold modified?
  rw [ht]
  dsimp only
  split at h
  · exact ⟨_, rfl⟩
  · cases h

/-- **The comments of a scanned file are its own, and its time is that of the file.** -/
theorem scan_ok {args : List String} {options : ScanOptions} {f : FileComments}
    (h : (d.scan path args options).result = .ok f) :
    d.modified? path = some f.modified ∧ ∀ c ∈ f.directiveComments, c.FiledAt path := by
  unfold scan at h
  split at h
  · cases h
  · rename_i bytes hread
    obtain ⟨t, ht⟩ := modified?_of_read hread
    obtain ⟨hmodified, hfiled⟩ := SourceUnit.scan_ok (Fallible.mapError_eq_ok.1 h)
    rw [ht, Option.getD_some] at hmodified
    rw [ht, hmodified]
    exact ⟨rfl, hfiled⟩

/-- What is scanned depends on the bytes and the time of the file alone. -/
theorem scan_congr {d' : Disk} (hread : d'.read path = d.read path)
    (hmodified : d'.modified? path = d.modified? path) (args : List String)
    (options : ScanOptions) : d'.scan path args options = d.scan path args options := by
  rw [scan, scan, hread, hmodified]

end Disk

end DocIndex
