import DocIndex.Proofs.Layout.Reading
import DocIndex.Proofs.Lead
import DocIndex.Proofs.Progress.Whole

/-!
# Where cursors end

A cursor that ends with no lexeme of the text reaches over the whole of it. Whatever is read, a
cursor ends with a lexeme; the one exception is an enumeration that is a declaration of its own and
whose body the text ends in. Then reading goes on behind the end of the text, and the scopes that
are still open are closed there.

* `Outline.Ended` — every cursor ends with a lexeme, apart from some.
* `Outline.LeavesEnumOpen` — the exception.
* `ended_read` — one declaration, with what is read in it.
* `ended_step`, `ended_closeAll` — one step, and the end of the text.
-/

namespace DocIndex

namespace Source

variable (s : Source)

/-- Where the body of an enumeration ends that is read from `i` on: at its closing brace, or behind
the text. -/
def enumBodyEnd (i : Nat) : Nat :=
  if i < s.size then
    if s.is i "\x7d" then i
    else if s.is i "#" && s.startsLine i then enumBodyEnd (s.lineEnd i + 1)
    else if s.isIdentifier i then enumBodyEnd ((s.enumeratorEnd i).index + 1)
    else enumBodyEnd (i + 1)
  else i
termination_by s.size - i
decreasing_by
  · have := le_lineEnd (s := s) i; omega
  · have := le_enumeratorEnd (s := s) i; omega
  · omega

theorem next_readEnumerators (id : CursorId) (o : Outline) (i : Nat) :
    (Outline.readEnumerators s id o i).2 = s.enumBodyEnd i := by
  fun_induction Outline.readEnumerators s id o i with
  | case1 o i hi hbrace => rw [enumBodyEnd, if_pos hi, if_pos hbrace]
  | case2 o i hi hbrace hline ih => rw [enumBodyEnd, if_pos hi, if_neg hbrace, if_pos hline, ih]
  | case3 o i hi hbrace hline hname e last ih =>
    rw [enumBodyEnd, if_pos hi, if_neg hbrace, if_neg hline, if_pos hname, ih]
  | case4 o i hi hbrace hline hname ih =>
    rw [enumBodyEnd, if_pos hi, if_neg hbrace, if_neg hline, if_neg hname, ih]
  | case5 o i hi => rw [enumBodyEnd, if_neg hi]

theorem enumBodyEnd_le {i : Nat} (hi : i ≤ s.size) : s.enumBodyEnd i ≤ s.size := by
  rw [← s.next_readEnumerators 0 default i]
  exact readEnumerators_le hi

/-! ## Heads end within the text -/

variable {s} {i : Nat}

theorem recordName_le (qualifier : List String) (isSpecialized : Bool) (hi : i ≤ s.size) :
    (s.recordName qualifier isSpecialized i).index ≤ s.size := by
  have hname {i : Nat} (hi : s.isIdentifier i = true) :
      (if s.is (i + 1) "<" then s.angleEnd (i + 1) + 1 else i + 1) ≤ s.size := by
    have hlt := lt_size_of_isIdentifier hi
    split
    · exact angleEndFrom_lt (Nat.zero_lt_of_lt hlt)
    · exact hlt
  fun_induction recordName s qualifier isSpecialized i with
  | case1 qualifier isSpecialized i h a j hcolons ih => exact ih (lt_size_of_is hcolons)
  | case2 qualifier isSpecialized i h a j _ => exact hname h
  | case3 => exact hi

theorem recordHead_le (macros : Macros) (hi : i ≤ s.size) : (s.recordHead macros i).2 ≤ s.size := by
  have hname := recordName_le [] false (skipDecorations_le macros hi)
  simp only [recordHead]
  split
  · rename_i hfinal
    exact lt_size_of_is hfinal
  · exact hname

theorem underlyingEnd_le (hi : i ≤ s.size) : s.underlyingEnd i ≤ s.size := by
  fun_induction underlyingEnd s i with
  | case1 => exact hi
  | case2 i h _ ih => exact ih h
  | case3 => exact hi

theorem enumHead_le (macros : Macros) (hi : i < s.size) : (s.enumHead macros i).2 ≤ s.size := by
  have hkey : s.enumKeyEnd i ≤ s.size := by
    unfold enumKeyEnd
    split
    · rename_i hclass
      simp only [Bool.or_eq_true] at hclass
      rcases hclass with hclass | hclass <;> exact lt_size_of_is hclass
    · exact hi
  have hname := skipDecorations_le macros hkey
  simp only [enumHead, enumName]
  generalize (s.skipDecorations macros (s.enumKeyEnd i)).index = j at hname
  have hbehind : (if s.isIdentifier j then j + 1 else j) ≤ s.size := by
    split
    · rename_i hword
      exact lt_size_of_isIdentifier hword
    · exact hname
  generalize (if s.isIdentifier j = true then j + 1 else j) = k at hbehind ⊢
  split
  · exact underlyingEnd_le hbehind
  · exact hbehind

theorem is_of_linkage {start brace : Nat} (h : s.announced start i = .linkage brace) :
    s.is brace "\x7b" = true := by
  unfold announced at h
  split at h <;> (try split at h) <;> simp_all

theorem is_of_access {start : Nat} (h : s.announced start i = .access) :
    s.is (i + 1) ":" = true := by
  unfold announced at h
  split at h <;> (try split at h) <;> simp_all

theorem is_of_enumeration {start : Nat} (h : s.announced start i = .enumeration) :
    s.is i "enum" = true := by
  have hword : s.spelling i = "enum" := by
    unfold announced at h
    split at h <;> (try split at h) <;> simp_all
  have hlt : i < s.size := by
    refine Nat.lt_of_not_le fun hle => ?_
    rw [spelling, Array.getElem?_eq_none hle] at hword
    exact absurd hword (by decide)
  simp only [is, hlt, hword, decide_true, Bool.true_and, beq_self_eq_true]

/-- Behind a lexeme of the text, declarators end with one. -/
theorem declaratorsEnd_lt (hi : i < s.size) :
    (Outline.declaratorsEnd s (i + 1)).index < s.size := by
  unfold Outline.declaratorsEnd
  split
  · rename_i hsemi
    exact lt_size_of_is hsemi
  split
  · exact statementEnd_lt (Nat.zero_lt_of_lt hi)
  · exact hi

end Source

namespace Outline

open Source

/-- Every cursor but the file ends with a lexeme of the text, apart from those in `ids`. -/
structure Ended (s : Source) (ids : List CursorId) (o : Outline) : Prop where
  last : ∀ (id : CursorId) (d : Draft), 0 < id → o.drafts[id]? = some d →
    d.last < s.size ∨ id ∈ ids

namespace Ended

variable {s : Source} {ids ids' : List CursorId} {o o' : Outline} {first last : Nat}

theorem congr (h : o.Ended s ids) (hd : o'.drafts = o.drafts) : o'.Ended s ids :=
  ⟨by rw [hd]; exact h.last⟩

theorem mono (h : o.Ended s ids) (hids : ids ⊆ ids') : o.Ended s ids' :=
  ⟨fun id d hpos hd => (h.last id d hpos hd).imp_right fun hmem => hids hmem⟩

theorem note (h : o.Ended s ids) (notes : List Note) : (o.note notes).Ended s ids :=
  h.congr rfl

theorem claim (h : o.Ended s ids) (first last : Nat) (id : CursorId) :
    (o.claim first last id).Ended s ids :=
  h.congr rfl

theorem define (h : o.Ended s ids) (name : String) (hasParameters : Bool) :
    (o.define name hasParameters).Ended s ids :=
  h.congr rfl

theorem undefine (h : o.Ended s ids) (name : String) : (o.undefine name).Ended s ids :=
  h.congr rfl

theorem nameModule (h : o.Ended s ids) (name : String) : (o.nameModule name).Ended s ids :=
  h.congr rfl

theorem openScope (h : o.Ended s ids) (path : List String) (name : String) (id : CursorId) :
    (o.openScope path name id).Ended s ids :=
  h.congr (Laid.drafts_openScope o path name id)

theorem declare (h : o.Ended s ids) (kind : CursorKind) (spelling : String) (parent : CursorId)
    (hfirst : first < s.size) (hlast : last < s.size) :
    (o.declare kind spelling first last parent).1.Ended s ids := by
  refine ⟨fun id d hpos hd => ?_⟩
  rw [Laid.getElem?_declare] at hd
  split at hd
  · cases hd
    exact .inl (Nat.max_lt.2 ⟨hlast, hfirst⟩)
  · exact h.last id d hpos hd

theorem add (h : o.Ended s ids) (kind : CursorKind) (spelling : String) (parent : CursorId)
    (hfirst : first < s.size) (hlast : last < s.size) :
    (o.add kind spelling first last parent).Ended s ids :=
  (h.declare kind spelling parent hfirst hlast).claim ..

theorem reachTo (h : o.Ended s ids) (id : CursorId) (hlast : last < s.size ∨ id ∈ ids) :
    (o.reachTo id last).Ended s ids := by
  refine ⟨fun i d hpos hd => ?_⟩
  rw [Laid.getElem?_reachTo] at hd
  split at hd
  · rename_i heq
    obtain ⟨e, -, rfl⟩ := Option.map_eq_some_iff.1 hd
    exact heq ▸ hlast
  · exact h.last i d hpos hd

end Ended

end Outline

/-- What a declaration leads to: cursors that end with a lexeme, and a place no further than behind
the text. -/
structure Outcome.Ended (s : Source) (ids : List CursorId) (r : Outcome) : Prop where
  outline : r.outline.Ended s ids
  next : r.next ≤ s.size

namespace Outline

open Source

variable {s : Source} {ids : List CursorId} {o : Outline} {scope : Scope} {start i last : Nat}
  {templated : Bool} {id : CursorId}

/-- A cursor that is over as soon as it begins, and reading goes on behind it. -/
theorem Ended.added (h : o.Ended s ids) (kind : CursorKind) (spelling : String) (parent : CursorId)
    (hs : start < s.size) (hlast : last < s.size) :
    ((o.add kind spelling start last parent).done (last + 1)).Ended s ids :=
  ⟨h.add kind spelling parent hs hlast, hlast⟩

/-! ## Preprocessor lines -/

theorem ended_readDirective (h : o.Ended s ids) (hi : i < s.size) :
    (o.readDirective s i).Ended s ids := by
  have hlast : s.lastCode i (s.lineEnd i) < s.size :=
    Nat.lt_of_le_of_lt (s.lastCode_le (le_lineEnd i)).2 (s.lineEnd_lt hi)
  have hline := h.declare .preprocessingDirective (s.spelling (i + 1)) 0 hi hlast
  unfold readDirective
  simp only
  split
  · rename_i hdefine
    simp only [Bool.and_eq_true, decide_eq_true_eq] at hdefine
    have hname : i + 2 < s.size := by omega
    exact ((hline.define ..).claim ..).add .macroDefinition _ 0 hname hlast
  split
  · exact (hline.undefine _).claim ..
  · exact hline.claim ..

/-! ## Functions, variables, modules, aliases and type definitions -/

section

variable (h : o.Ended s ids) (hs : start < s.size)
include h hs

theorem ended_readPlain : (o.readPlain s scope start i templated).Ended s ids := by
  have hstop : (s.shape o.macros i).stop < s.size :=
    stop_shapeFrom_lt (Nat.zero_lt_of_lt hs) (Nat.le_refl i)
  replace h := h.note (s.shape o.macros i).notes
  unfold readPlain
  simp only
  split
  · exact h.added _ _ _ hs hstop
  · split
    · exact h.added _ _ _ hs hstop
    · exact h.added _ _ _ hs hstop

theorem ended_readSimple {kind : CursorKind} :
    (o.readSimple s scope kind start i).Ended s ids :=
  (h.note _).added kind _ _ hs (stop_shapeFrom_lt (Nat.zero_lt_of_lt hs) (Nat.le_refl (i + 1)))

theorem ended_readModule : (o.readModule s scope start i).Ended s ids := by
  have hlast : (s.statementEnd (i + 1)).index < s.size := statementEnd_lt (Nat.zero_lt_of_lt hs)
  have hnote := h.note (s.statementEnd (i + 1)).notes
  unfold readModule
  simp only
  split
  · exact (hnote.nameModule _).added _ _ _ hs hlast
  · exact hnote.added _ _ _ hs hlast

theorem ended_readUsing : (o.readUsing s scope start i templated).Ended s ids := by
  have hlast : (s.statementEnd (i + 1)).index < s.size := statementEnd_lt (Nat.zero_lt_of_lt hs)
  replace h := h.note ((s.statementEnd (i + 1)).notes ++ (s.skipDecorations o.macros (i + 2)).notes)
  unfold readUsing
  simp only
  split
  · exact h.added _ _ _ hs hlast
  split
  · exact h.added _ _ _ hs hlast
  · exact h.added _ _ _ hs hlast

theorem ended_readTypedefRest : (o.readTypedefRest s scope start i).Ended s ids :=
  (h.note _).added .typedefDecl _ _ hs (statementEnd_lt (Nat.zero_lt_of_lt hs))

/-! ## Scopes -/

theorem ended_readLinkage {brace : Nat} (hbrace : brace < s.size) :
    (o.readLinkage scope start brace).Ended s ids :=
  ⟨(h.declare .unexposedDecl "" scope.parent hs hbrace).claim .., hbrace⟩

theorem ended_openNamespaces {brace : Nat} (hbrace : brace < s.size) (parent : CursorId)
    (path : List String) (opened : List CursorId) (names : List String) :
    (openNamespaces start brace parent path opened names o).1.Ended s ids := by
  induction names generalizing o parent path opened with
  | nil => exact h
  | cons name names ih =>
    have hd := h.declare .namespaceDecl name parent hs hbrace
    simp only [openNamespaces]
    split
    · exact ih hd ..
    · exact ih (hd.openScope ..) ..

theorem ended_readNamespace : (o.readNamespace s scope start i).Ended s ids := by
  rw [readNamespace_eq]
  replace h := h.note (s.skipBrackets (s.namespaceNames [] (i + 1)).2).notes
  unfold readNamespaceFrom
  split
  · exact (h.note _).added _ _ _ hs (statementEnd_lt (Nat.zero_lt_of_lt hs))
  split
  · rename_i hbrace
    have hlt := lt_size_of_is hbrace
    exact ⟨(ended_openNamespaces h hs hlt ..).claim .., hlt⟩
  · exact ended_readPlain (h.note _) hs

theorem ended_openRecord {n : RecordName} {kind : CursorKind} {parent : CursorId}
    {outer : Option Nat} {brace : Nat} (hbrace : s.is brace "\x7b" = true) :
    (openRecord scope n kind start parent outer o brace).Ended s ids := by
  have hlt := lt_size_of_is hbrace
  have hd := h.declare kind n.name parent hs hlt
  simp only [openRecord]
  split
  · exact ⟨hd.claim .., hlt⟩
  · exact ⟨(hd.claim ..).openScope .., hlt⟩

theorem ended_readRecord {outer : Option Nat} (hi : i < s.size) :
    (o.readRecord s scope start i templated outer).Ended s ids := by
  have hhead := recordHead_le o.macros hi
  rw [readRecord_eq]
  replace h := h.note (s.skipDecorations o.macros (i + 1)).notes
  generalize (s.recordHead o.macros (i + 1)).2 = j at hhead ⊢
  unfold readRecordFrom
  simp only
  split
  · rename_i hbrace
    exact ended_openRecord h hs hbrace
  split
  · split
    · rename_i hbrace
      exact ended_openRecord (h.note _) hs hbrace
    · exact ((h.note _).note _).added _ _ _ hs (show min _ (s.size - 1) < s.size by omega)
  split
  · exact ⟨h, hhead⟩
  split
  · rename_i hsemi
    exact h.added _ _ _ hs (lt_size_of_is hsemi)
  · exact ended_readPlain h hs

/-! ## Enumerations -/

omit h hs in
theorem ended_readEnumerators (h : o.Ended s ids) :
    (readEnumerators s id o i).1.Ended s ids := by
  fun_induction readEnumerators s id o i with
  | case1 => exact h
  | case2 o i hi _ _ ih => exact ih (ended_readDirective h hi)
  | case3 o i hi _ _ _ e last ih =>
    have hend : e.index < s.size := enumeratorEnd_lt hi
    have hlast : last ≤ e.index := (s.lastCode_le (le_enumeratorEnd i)).2
    exact ih ((h.note _).add _ _ _ hi (Nat.lt_of_le_of_lt hlast hend))
  | case4 o i hi _ _ _ ih => exact ih (h.claim ..)
  | case5 => exact h

/-- The body of an enumeration, closed or the first part of a type definition. -/
theorem ended_readEnumBody {brace : Nat} {inTypedef : Bool}
    (hclosed : inTypedef = true ∨ s.enumBodyEnd (brace + 1) < s.size) :
    (o.readEnumBody s id start brace inTypedef).Ended s ids := by
  have hbody : (readEnumerators s id o (brace + 1)).1.Ended s ids := ended_readEnumerators h
  have hend : (enumEnd s inTypedef (s.enumBodyEnd (brace + 1))).index < s.size := by
    unfold enumEnd
    split
    · exact Nat.lt_of_le_of_lt (Nat.min_le_right _ _) (by omega)
    · rename_i hown
      exact declaratorsEnd_lt (hclosed.resolve_left hown)
  rw [← s.next_readEnumerators id o] at hend
  refine ⟨?_, hend⟩
  simp only [readEnumBody, done]
  refine Ended.reachTo ?_ id (.inl (Nat.max_lt.2 ⟨hend, hs⟩))
  refine Ended.claim (Ended.note ?_ _) _ _ _
  split
  · exact hbody.note _
  · exact hbody

theorem ended_readEnumeration {inTypedef : Bool} (hi : i < s.size)
    (hclosed : inTypedef = true ∨ s.is (s.enumHead o.macros i).2 "\x7b" = false ∨
      s.enumBodyEnd ((s.enumHead o.macros i).2 + 1) < s.size) :
    (o.readEnumeration s scope start i inTypedef).Ended s ids := by
  have hhead := enumHead_le o.macros hi
  rw [readEnumeration_eq]
  replace h := h.note (s.skipDecorations o.macros (s.enumKeyEnd i)).notes
  generalize (s.enumHead o.macros i).2 = j at hhead hclosed ⊢
  unfold readEnumerationFrom
  split
  · rename_i hbrace
    have hd := (h.declare .enumDecl (s.enumHead o.macros i).1 scope.parent hs
      (lt_size_of_is hbrace)).claim start j o.drafts.size
    exact ended_readEnumBody hd hs (hclosed.imp_right fun hc => hc.resolve_left (by simp [hbrace]))
  split
  · exact ⟨h, hhead⟩
  split
  · rename_i hsemi
    exact h.added _ _ _ hs (lt_size_of_is hsemi)
  · exact ended_readPlain h hs

/-! ## Type definitions -/

theorem ended_readTypedef : (o.readTypedef s scope start i).Ended s ids := by
  rw [readTypedef_eq]
  split
  · rename_i hkey
    have hlt := lt_size_of_startsRecord hkey
    have hr : (o.readRecord s scope (i + 1) (i + 1) false (some start)).Ended s ids :=
      ended_readRecord h hlt hlt
    unfold readTypedefAfter
    split
    · exact hr
    · exact ended_readTypedefRest hr.outline hs
  split
  · rename_i hkey
    have hlt := lt_size_of_is hkey
    have hr : (o.readEnumeration s scope (i + 1) (i + 1) true).Ended s ids :=
      ended_readEnumeration h hlt hlt (.inl rfl)
    rw [readTypedefAfter, opened_readEnumeration]
    exact ended_readTypedefRest hr.outline hs
  · exact ended_readTypedefRest h hs

end

/-! ## An enumeration that is left open -/

/-- The declaration whose own words begin at the lead is an enumeration whose body the text ends
in. -/
structure LeavesEnumOpen (s : Source) (start : Nat) (l : Lead) : Prop where
  called : s.isMacroCall l.outline.macros l.index = false
  announced : s.announced start l.index = .enumeration
  brace : s.is (s.enumHead l.outline.macros l.index).2 "\x7b" = true
  unclosed : s.size ≤ s.enumBodyEnd ((s.enumHead l.outline.macros l.index).2 + 1)

/-- The cursor of an enumeration whose head has been read, at whose brace the body begins. -/
def enumOpened (s : Source) (scope : Scope) (start i : Nat) (o : Outline) : Outline :=
  let brace := (s.enumHead o.macros i).2
  ((o.note (s.skipDecorations o.macros (s.enumKeyEnd i)).notes).declare .enumDecl
    (s.enumHead o.macros i).1 start brace scope.parent).1.claim start brace o.drafts.size

/-- Where the text ends in its body, the enumeration reaches behind the end of the text, and so does
reading. -/
theorem readEnumeration_open (scope : Scope) (hs : start < s.size)
    (hbrace : s.is (s.enumHead o.macros i).2 "\x7b" = true)
    (hopen : s.size ≤ s.enumBodyEnd ((s.enumHead o.macros i).2 + 1)) :
    ∃ o₁ : Outline, o₁.drafts = (readEnumerators s o.drafts.size (enumOpened s scope start i o)
        ((s.enumHead o.macros i).2 + 1)).1.drafts ∧
      o.readEnumeration s scope start i false =
        (o₁.reachTo o.drafts.size s.size).done (s.size + 1) := by
  have hend : s.enumBodyEnd ((s.enumHead o.macros i).2 + 1) = s.size :=
    Nat.le_antisymm (s.enumBodyEnd_le (lt_size_of_is hbrace)) hopen
  have hreach : declaratorsEnd s (s.size + 1) = ⟨s.size, []⟩ := by
    have hbehind (word : String) : s.is (s.size + 1) word = false :=
      Bool.eq_false_iff.2 fun hword => absurd (lt_size_of_is hword) (by omega)
    have hname : s.isIdentifier (s.size + 1) = false :=
      Bool.eq_false_iff.2 fun hname => absurd (lt_size_of_isIdentifier hname) (by omega)
    simp [declaratorsEnd, hbehind, hname]
  rw [readEnumeration_eq]
  unfold readEnumerationFrom
  rw [if_pos hbrace]
  simp only [readEnumBody, next_readEnumerators, hend, Nat.le_refl, if_true, Bool.false_eq_true,
    if_false, hreach, Nat.max_eq_left (Nat.le_of_lt hs)]
  refine ⟨_, ?_, rfl⟩
  rfl

/-- The declaration is read as the enumeration that it is. -/
theorem LeavesEnumOpen.read_eq {l : Lead} (hopen : LeavesEnumOpen s start l) :
    l.read s scope start = l.outline.readEnumeration s scope start l.index false := by
  have henum := is_of_enumeration hopen.announced
  have hbrace : ¬ (s.is l.index "\x7d" && start < l.index) = true := by
    simp only [is, Bool.and_eq_true, beq_iff_eq] at henum ⊢
    rw [henum.2]
    exact fun hword => absurd hword.1.2 (by decide)
  rw [Lead.read, readDeclaration_announced (lt_size_of_is henum) hbrace (by simp [hopen.called]),
    hopen.announced]
  rfl

theorem ended_openEnumeration (scope : Scope) (h : o.Ended s []) (hs : start < s.size)
    (hbrace : s.is (s.enumHead o.macros i).2 "\x7b" = true)
    (hopen : s.size ≤ s.enumBodyEnd ((s.enumHead o.macros i).2 + 1)) :
    (o.readEnumeration s scope start i false).outline.Ended s [o.drafts.size] ∧
      (o.readEnumeration s scope start i false).next = s.size + 1 := by
  obtain ⟨o₁, hdrafts, hread⟩ := readEnumeration_open scope hs hbrace hopen
  have hd : (enumOpened s scope start i o).Ended s [] :=
    ((h.note _).declare .enumDecl _ scope.parent hs (lt_size_of_is hbrace)).claim ..
  have hbody := ((ended_readEnumerators hd).mono (List.nil_subset [o.drafts.size])).congr hdrafts
  rw [hread]
  exact ⟨hbody.reachTo o.drafts.size (.inr List.mem_cons_self), rfl⟩

/-! ## All declarations -/

theorem ended_addMacroCall (h : o.Ended s ids) (hi : i < s.size) :
    (o.addMacroCall s i).1.Ended s ids :=
  (h.note _).add .macroInstantiation _ 0 hi (macroCallEnd_lt hi)

/-- What reading a declaration leads to: every cursor ends with a lexeme, unless an enumeration is
left open. Then all but that one do, and the text is over. -/
def EndedUnlessOpen (s : Source) (start : Nat) (l : Lead) (r : Outcome) : Prop :=
  r.Ended s [] ∨ LeavesEnumOpen s start l ∧ r.outline.Ended s [l.outline.drafts.size] ∧
    r.opened = none ∧ r.next = s.size + 1

/-- What a word announces that does not stand in front of a declaration. -/
theorem ended_readAnnounced {l : Lead} (h : l.outline.Ended s []) (hs : start < s.size)
    (hlt : l.index < s.size) (hcalled : ¬ s.isMacroCall l.outline.macros l.index = true)
    (hexported : s.announced start l.index ≠ .exported)
    (htemplate : s.announced start l.index ≠ .templateHead) :
    EndedUnlessOpen s start l (readAnnounced s scope start l.outline l.index l.templated
      (s.announced start l.index)) := by
  cases ha : s.announced start l.index with
  | exported => exact absurd ha hexported
  | templateHead => exact absurd ha htemplate
  | namespaceHead keyword => exact .inl (ended_readNamespace h hs)
  | linkage brace => exact .inl (ended_readLinkage h hs (lt_size_of_is (is_of_linkage ha)))
  | moduleLine => exact .inl (ended_readModule h hs)
  | access =>
    have hcolon := lt_size_of_is (is_of_access ha)
    exact .inl (h.added .accessSpecifier "" scope.parent hs hcolon)
  | record => exact .inl (ended_readRecord h hs hlt)
  | enumeration =>
    by_cases hopen : s.is (s.enumHead l.outline.macros l.index).2 "\x7b" = true ∧
        s.size ≤ s.enumBodyEnd ((s.enumHead l.outline.macros l.index).2 + 1)
    · obtain ⟨hended, hnext⟩ := ended_openEnumeration scope h hs hopen.1 hopen.2
      refine .inr ⟨⟨by simpa using hcalled, ha, hopen.1, hopen.2⟩, hended, ?_, hnext⟩
      exact opened_readEnumeration
    · refine .inl (ended_readEnumeration h hs hlt (.inr ?_))
      rw [Decidable.not_and_iff_or_not, Bool.not_eq_true, Nat.not_le] at hopen
      exact hopen
  | usingLine => exact .inl (ended_readUsing h hs)
  | typedefLine => exact .inl (ended_readTypedef h hs)
  | simple kind => exact .inl (ended_readSimple h hs)
  | plain => exact .inl (ended_readPlain h hs)

/-- **A declaration leads to cursors that end with a lexeme**, unless an enumeration is left
open. -/
theorem ended_read {l : Lead} (h : l.outline.Ended s []) (hs : start < s.size)
    (hi : start ≤ l.index) (hle : l.index ≤ s.size) :
    EndedUnlessOpen s start (l.ownWords s start) (l.read s scope start) := by
  fun_induction Lead.ownWords s start l with
  | case1 l l' hnext ih =>
    have hlt := Lead.lt_of_next? hnext
    rw [Lead.read_next? hnext]
    obtain ⟨hin, -, ⟨-, -, -, rfl⟩ | ⟨-, ⟨-, rfl⟩ | ⟨ha, rfl⟩⟩⟩ := Lead.next?_cases hnext
    · exact ih (ended_addMacroCall h hin) (by omega) (macroCallEnd_lt hin)
    · exact ih h (by omega) hin
    · exact ih h (by omega) (angleEndFrom_lt (Nat.zero_lt_of_lt hs))
  | case2 l hnone =>
    rcases Nat.lt_or_ge l.index s.size with hlt | hge
    case inr =>
      rw [Lead.read, readDeclaration, dif_neg (Nat.not_lt_of_ge hge)]
      exact .inl ⟨h, hle⟩
    by_cases hbrace : (s.is l.index "\x7d" && start < l.index) = true
    · rw [Lead.read, readDeclaration, dif_pos hlt, if_pos hbrace]
      exact .inl ⟨h.add _ _ _ hs (by omega), hle⟩
    rw [Lead.next?, if_neg (not_or.2 ⟨Nat.not_le_of_lt hlt, hbrace⟩)] at hnone
    by_cases hcalled : s.isMacroCall l.outline.macros l.index = true
    · have hcall := ended_addMacroCall h hlt
      rw [if_pos hcalled] at hnone
      rw [Lead.read, readDeclaration_macroCall hlt hbrace hcalled]
      split
      · rename_i hsemi
        exact .inl ⟨hcall.claim .., lt_size_of_is hsemi⟩
      rename_i hsemi
      split
      · exact .inl ⟨hcall, macroCallEnd_lt hlt⟩
      · rename_i halone
        simp [hsemi, halone] at hnone
    · rw [if_neg hcalled] at hnone
      rw [Lead.read, readDeclaration_announced hlt hbrace hcalled]
      exact ended_readAnnounced h hs hlt hcalled (by rintro ha; simp [ha] at hnone)
        (by rintro ha; simp [ha] at hnone)

/-! ## Closing scopes -/

/-- What begins at these edges begins with a lexeme of the text. -/
def InText (s : Source) (edges : List Edge) : Prop :=
  ∀ e ∈ edges, e.first < s.size

theorem ended_reachTo_all (h : o.Ended s ids) {opened : List CursorId}
    (hlast : last < s.size ∨ opened ⊆ ids) :
    (opened.foldl (fun o id => o.reachTo id last) o).Ended s ids := by
  induction opened generalizing o with
  | nil => exact h
  | cons id opened ih =>
    refine ih (h.reachTo id (hlast.imp_right fun hsub => hsub List.mem_cons_self)) ?_
    exact hlast.imp_right fun hsub _ hmem => hsub (List.mem_cons_of_mem id hmem)

/-- **A scope that is closed ends with a lexeme**, if it is closed within the text. -/
theorem ended_close (scope : Scope) {closing : Closing} {after : Nat} (h : o.Ended s ids)
    (hedges : InText s closing.edges) (hpos : 0 < after)
    (hafter : after ≤ s.size ∨ Edge.opened closing.edges ⊆ ids) :
    (close s scope closing o after).1.Ended s ids ∧
      (after ≤ s.size → (close s scope closing o after).2 ≤ s.size) := by
  obtain ⟨k, rfl⟩ := Nat.exists_eq_add_one.2 hpos
  cases closing with
  | linkage id start =>
    have hs : start < s.size := hedges ⟨start, [id]⟩ List.mem_cons_self
    exact ⟨h.reachTo id (hafter.imp (fun hk => Nat.max_lt.2 ⟨hk, hs⟩)
      fun hsub => hsub List.mem_cons_self), fun hk => hk⟩
  | namespaces opened start =>
    have hs : start < s.size := hedges ⟨start, opened⟩ List.mem_cons_self
    exact ⟨ended_reachTo_all h (hafter.imp (fun hk => Nat.max_lt.2 ⟨hk, hs⟩)
      fun hsub => by simpa [Closing.edges] using hsub), fun hk => hk⟩
  | record id start =>
    have hs : start < s.size := hedges ⟨start, [id]⟩ List.mem_cons_self
    refine ⟨?_, fun hk => declaratorsEnd_lt hk⟩
    refine ((h.note _).claim ..).reachTo id (hafter.imp (fun hk => ?_) fun hsub =>
      hsub List.mem_cons_self)
    exact Nat.max_lt.2 ⟨declaratorsEnd_lt hk, hs⟩
  | typedefRecord id start outer =>
    have hs : start < s.size := hedges ⟨start, [id]⟩ List.mem_cons_self
    have houter : outer < s.size :=
      hedges ⟨outer, []⟩ (List.mem_cons_of_mem _ List.mem_cons_self)
    have hreach : ((o.claim (min (k + 1) k) k id).reachTo id (max k start)).Ended s ids :=
      (h.claim ..).reachTo id
        (hafter.imp (fun hk => Nat.max_lt.2 ⟨hk, hs⟩) fun hsub => hsub List.mem_cons_self)
    have hrest : (((o.claim (min (k + 1) k) k id).reachTo id (max k start)).readTypedefRest s scope
        outer (k + 1)).Ended s ids :=
      ended_readTypedefRest hreach houter
    exact ⟨hrest.outline, fun _ => hrest.next⟩

/-- Where the text ends, every scope that is still open ends with its last lexeme, unless reading
has gone on behind that. -/
theorem ended_closeAll {frames : List Frame} (h : o.Ended s ids)
    (hedges : InText s (Frame.edges frames)) (hi : s.size ≤ i)
    (hafter : i ≤ s.size ∨ Edge.opened (Frame.edges frames) ⊆ ids) :
    (closeAll s frames o i).Ended s ids := by
  induction frames generalizing o i with
  | nil => exact h
  | cons f around ih =>
    have hfirst : InText s f.closing.edges := fun e he => hedges e (List.mem_append_left _ he)
    have hpos : 0 < i := by
      cases hclosing : f.closing <;> rw [hclosing] at hfirst <;>
        exact Nat.lt_of_lt_of_le (Nat.zero_lt_of_lt (hfirst _ List.mem_cons_self)) hi
    have hopened : Edge.opened (Frame.edges (f :: around)) =
        Edge.opened f.closing.edges ++ Edge.opened (Frame.edges around) :=
      List.flatMap_append
    rw [hopened, List.append_subset] at hafter
    obtain ⟨hclose, hnext⟩ := ended_close (scopeOf around)
      (h.note [⟨i, .noClosingBrace⟩]) hfirst hpos (hafter.imp_right And.left)
    exact ih hclose (fun e he => hedges e (List.mem_append_right _ he)) (le_next_close hi)
      (hafter.imp hnext And.right)

/-! ## Reading a whole text -/

/-- At the lexeme that is read next begins an enumeration that is left open. -/
structure EndsInEnum (s : Source) (r : Reading) : Prop where
  lt : r.next < s.size
  starts : startsDeclaration s r.next = true
  leaves : LeavesEnumOpen s r.next (r.lead s)

/-- **A step leads to cursors that end with a lexeme**, unless an enumeration is left open. -/
theorem ended_step {frames : List Frame} (h : o.Ended s []) (hedges : InText s (Frame.edges frames))
    (hi : i < s.size) :
    (step s o frames i).outline.Ended s [] ∧ (step s o frames i).next ≤ s.size ∨
      EndsInEnum s ⟨o, frames, i⟩ ∧
        (step s o frames i).outline.Ended s
          [((⟨o, frames, i⟩ : Reading).lead s).outline.drafts.size] ∧
        (step s o frames i).frames = frames ∧ (step s o frames i).next = s.size + 1 := by
  by_cases hstarts : startsDeclaration s i = true
  · rw [step_declaration o frames hstarts]
    have hread : EndedUnlessOpen s i ((⟨o, frames, i⟩ : Reading).lead s)
        (readDeclaration s (scopeOf frames) i o i false) :=
      ended_read (l := ⟨o, i, false⟩) h hi (Nat.le_refl i) (Nat.le_of_lt hi)
    rcases hread with hread | ⟨hleaves, hread, hopened, hnext⟩
    · exact .inl ⟨hread.outline, hread.next⟩
    · refine .inr ⟨⟨hi, hstarts, hleaves⟩, hread, ?_, hnext⟩
      simp only [hopened, Option.toList_none, List.nil_append]
  · refine .inl ?_
    unfold step
    simp only
    split
    · exact ⟨h.claim .., hi⟩
    split
    · exact ⟨ended_readDirective h hi, s.lineEnd_lt hi⟩
    split
    · cases frames with
      | nil => exact ⟨h.note _, hi⟩
      | cons f around =>
        obtain ⟨hclose, hnext⟩ := ended_close (scopeOf around)
          (h.claim i i (scopeOf (f :: around)).owner)
          (fun e he => hedges e (List.mem_append_left _ he)) (Nat.succ_pos i) (.inl hi)
        exact ⟨hclose, hnext hi⟩
    split
    · exact ⟨h.claim .., hi⟩
    · rename_i hcomment hline hbrace hsemi
      simp [startsDeclaration, hcomment, hline, hbrace, hsemi] at hstarts

/-- **Reading to the end leads to cursors that end with a lexeme**, unless an enumeration is left
open. Then all do but that one and the scopes around it. -/
theorem ended_readFrom {frames : List Frame} (h : o.Ended s [])
    (hlaid : o.Laid s (Frame.edges frames) i) (hframes : Frame.Nested frames) (hi : i ≤ s.size) :
    (readFrom s o frames i).Ended s [] ∨
      ∃ r, Comes s ⟨o, frames, i⟩ r ∧ EndsInEnum s r ∧
        (readFrom s o frames i).Ended s
          ((r.lead s).outline.drafts.size :: Edge.opened (Frame.edges r.frames)) := by
  have hedges {frames : List Frame} {o : Outline} {i : Nat}
      (hlaid : o.Laid s (Frame.edges frames) i) : InText s (Frame.edges frames) :=
    fun e he => (hlaid.reached e he).2
  fun_induction readFrom s o frames i with
  | case1 o frames i hlt r ih =>
    obtain ⟨hlaid', hframes'⟩ := laid_step hlaid hframes hlt
    rcases ended_step h (hedges hlaid) hlt with ⟨hended, hnext⟩ | ⟨hends, hended, hsame, hnext⟩
    · refine (ih hended hlaid' hframes' hnext).imp_right ?_
      rintro ⟨r', hcomes, hends, hended⟩
      exact ⟨r', .step hlt hcomes, hends, hended⟩
    · -- reading has gone on behind the end of the text
      refine .inr ⟨⟨o, frames, i⟩, .refl _, hends, ?_⟩
      have hnext : r.next = s.size + 1 := hnext
      have hover : ¬ r.next < s.size := by omega
      have hsub : Edge.opened (Frame.edges r.frames) ⊆
          ((⟨o, frames, i⟩ : Reading).lead s).outline.drafts.size ::
            Edge.opened (Frame.edges frames) := by
        rw [hsame]
        exact List.subset_cons_self _ _
      rw [readFrom, if_neg hover]
      exact ended_closeAll (hended.mono (List.cons_subset_cons _ (List.nil_subset _)))
        (hedges hlaid') (by omega) (.inr hsub)
  | case2 o frames i hge =>
    exact .inl (ended_closeAll h (hedges hlaid) (Nat.le_of_not_lt hge) (.inl hi))

/-- The outline of a text, whatever the text. -/
theorem ended_ofSource (fileName : String) (macros : Macros) (s : Source) :
    (ofSource fileName macros s).Ended s [] ∨
      ∃ r, Comes s ⟨.start fileName s.size macros, [], 0⟩ r ∧ EndsInEnum s r ∧
        (ofSource fileName macros s).Ended s
          ((r.lead s).outline.drafts.size :: Edge.opened (Frame.edges r.frames)) := by
  have hstart : (start fileName s.size macros).Ended s [] :=
    ⟨fun id d hpos hd => absurd (eq_zero_of_start hd) (Nat.ne_of_gt hpos)⟩
  have hlaid : (start fileName s.size macros).Laid s (Frame.edges []) 0 :=
    laid_start s fileName macros
  exact ended_readFrom hstart hlaid trivial (Nat.zero_le _)

end Outline

end DocIndex
