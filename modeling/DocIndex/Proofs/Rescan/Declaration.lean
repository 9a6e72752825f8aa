import DocIndex.Comment.Signature
import DocIndex.Outline.Progress
import DocIndex.Proofs.Rescan.Shape

/-!
# The declaration that a statement is

A text that is one statement is read as one declaration, whatever its words announce, unless it is
cut short: by a label such as `public:`, or by a brace or a `;` within what follows the `:` of a
class head.

* `Outcome.Covers` — what was read is one declaration, from the first lexeme to the last.
* `covers_readDeclaration` — **a statement is read so.**
-/

namespace DocIndex

/-! ## One declaration -/

namespace Outline

/-- The first lexeme belongs to nothing so far. -/
structure Vacant (o : Outline) : Prop where
  pos : 0 < o.drafts.size
  free : o.owners[0]? = some none

/-- Nothing has been recognised that a comment could be attached to, and no macro is known. -/
structure Bare (o : Outline) : Prop extends o.Vacant where
  undocumented : ∀ d ∈ o.drafts, d.kind.canBeDocumented = false
  macros : o.macros = []

/-- The cursor reaches from the first lexeme, which belongs to it, to lexeme `stop`. If no comment
can be attached to it, none can be attached to any other. -/
structure Spans (o : Outline) (stop : Nat) (id : CursorId) (d : Draft) : Prop where
  pos : 0 < id
  owner : o.owners[0]? = some (some id)
  draft : o.drafts[id]? = some d
  first : d.first = 0
  last : d.last = stop
  kind : d.kind ≠ .macroDefinition
  alone : d.kind.canBeDocumented = false → ∀ e ∈ o.drafts, e.kind.canBeDocumented = false

variable {o : Outline} {stop : Nat} {kind : CursorKind}

theorem bare_start (name : String) {size : Nat} (hsize : 0 < size) :
    (Outline.start name size []).Bare where
  pos := Nat.one_pos
  free := by simp [Outline.start, hsize]
  undocumented d hd := by
    obtain rfl : d = _ := by simpa [Outline.start] using hd
    rfl
  macros := rfl

theorem Bare.note (h : o.Bare) (notes : List Note) : (o.note notes).Bare :=
  ⟨⟨h.pos, h.free⟩, h.undocumented, h.macros⟩

theorem Bare.nameModule (h : o.Bare) (name : String) : (o.nameModule name).Bare :=
  ⟨⟨h.pos, h.free⟩, h.undocumented, h.macros⟩

theorem Vacant.note (h : o.Vacant) (notes : List Note) : (o.note notes).Vacant :=
  ⟨h.pos, h.free⟩

/-- A cursor that is added behind the first lexeme leaves that as it is. -/
theorem Vacant.add_behind (h : o.Vacant) (kind : CursorKind) (spelling : String) {first : Nat}
    (hfirst : 0 < first) (last : Nat) (parent : CursorId) :
    (o.add kind spelling first last parent).Vacant where
  pos := by
    show 0 < (o.drafts.push _).size
    rw [Array.size_push]
    exact Nat.succ_pos _
  free := by
    show (claimFrom _ first (last + 1 - first) o.owners)[0]? = some none
    rw [getElem?_claimFrom, if_neg (by omega), h.free]

theorem Vacant.spans_add (h : o.Vacant) (hkind : kind ≠ .macroDefinition)
    (halone : kind.canBeDocumented = false → ∀ d ∈ o.drafts, d.kind.canBeDocumented = false)
    (spelling : String) (stop : Nat) (parent : CursorId) :
    ∃ id d, (o.add kind spelling 0 stop parent).Spans stop id d ∧ d.kind = kind := by
  refine ⟨o.drafts.size, _,
    ⟨h.pos, ?_, Array.getElem?_push_size, rfl, Nat.max_zero stop, hkind, ?_⟩, rfl⟩
  · show (claimFrom _ 0 (stop + 1 - 0) o.owners)[0]? = _
    rw [getElem?_claimFrom, if_pos (by omega), h.free]
    rfl
  · intro hdoc e he
    rcases Array.mem_push.1 he with he | rfl
    · exact halone hdoc e he
    · exact hdoc

end Outline

/-- What was read is one declaration that reaches to lexeme `stop`; it is `sure` that a comment can
be attached to it. -/
structure Outcome.Covers (r : Outcome) (stop : Nat) (sure : Prop) : Prop where
  next : r.next = stop + 1
  opened : r.opened = none
  spans : ∃ id d, r.outline.Spans stop id d ∧ (sure → d.kind.canBeDocumented = true)

theorem Outcome.Covers.mono {r : Outcome} {stop : Nat} {sure sure' : Prop}
    (h : r.Covers stop sure) (himp : sure' → sure) : r.Covers stop sure' := by
  obtain ⟨id, d, hspans, hsure⟩ := h.spans
  exact ⟨h.next, h.opened, id, d, hspans, fun hs => hsure (himp hs)⟩

namespace Outline

section

variable {s : Source} {scope : Scope} {o : Outline} {stop i key : Nat} {kind : CursorKind}
  {templated : Bool}

/-- A cursor that is added for the whole text. -/
theorem Vacant.covers_add (h : o.Vacant) (hkind : kind ≠ .macroDefinition)
    (hdoc : kind.canBeDocumented = true) (spelling : String) (stop : Nat) (parent : CursorId) :
    ((o.add kind spelling 0 stop parent).done (stop + 1)).Covers stop True := by
  obtain ⟨id, d, hspans, hd⟩ :=
    h.spans_add hkind (fun hnot => by rw [hdoc] at hnot; cases hnot) spelling stop parent
  exact ⟨rfl, rfl, id, d, hspans, fun _ => by rw [hd, hdoc]⟩

/-- A cursor that no comment is attached to, added for the whole text. -/
theorem Bare.covers_add (h : o.Bare) (spelling : String) (stop : Nat) (parent : CursorId) :
    ((o.add .unexposedDecl spelling 0 stop parent).done (stop + 1)).Covers stop False := by
  obtain ⟨id, d, hspans, -⟩ :=
    h.spans_add (show CursorKind.unexposedDecl ≠ .macroDefinition by decide)
      (fun _ => h.undocumented) spelling stop parent
  exact ⟨rfl, rfl, id, d, hspans, False.elim⟩

theorem functionKind_documented (d : Shape) (record : Option String) (templated : Bool)
    (name : String) :
    functionKind d record templated name ≠ .macroDefinition ∧
      (functionKind d record templated name).canBeDocumented = true := by
  unfold functionKind
  (repeat' split) <;> decide

/-- A declaration that no keyword decides is certain to be one if it is certain to be named. -/
theorem covers_readPlain (h : s.IsStatement stop) (hr : s.Runs stop i) (hb : o.Bare) :
    (o.readPlain s scope 0 i templated).Covers stop (s.namesFrom none i = true) := by
  obtain ⟨hstop, hsure⟩ := Source.shape_runs h hr o.macros
  unfold readPlain
  simp only
  rw [hstop]
  have hb := hb.note (s.shape o.macros i).notes
  cases hname : (s.shape o.macros i).name with
  | none =>
    rw [hname] at hsure
    exact (hb.covers_add "" stop scope.parent).mono fun hfirst => absurd (hsure hfirst) (by decide)
  | some nameAt =>
    simp only
    split
    · obtain ⟨hother, hdoc⟩ := functionKind_documented (s.shape o.macros i) _ templated _
      exact (hb.toVacant.covers_add hother hdoc ..).mono fun _ => trivial
    · split
      · exact (hb.toVacant.covers_add (by decide) (by decide) ..).mono fun _ => trivial
      · exact (hb.toVacant.covers_add (by decide) (by decide) ..).mono fun _ => trivial

theorem covers_readSimple (h : s.IsStatement stop) (hr : s.Runs stop (i + 1)) (hb : o.Bare)
    (hkind : kind ≠ .macroDefinition) (hdoc : kind.canBeDocumented = true) :
    (o.readSimple s scope kind 0 i).Covers stop True := by
  obtain ⟨hstop, -⟩ := Source.shape_runs h hr o.macros
  unfold readSimple
  simp only
  rw [hstop]
  exact (hb.note _).toVacant.covers_add hkind hdoc ..

theorem covers_readModule (h : s.IsStatement stop) (hr : s.Runs stop (i + 1)) (hb : o.Bare) :
    (o.readModule s scope 0 i).Covers stop False := by
  have hstop := hr.index_statementEnd h
  unfold readModule
  simp only
  rw [hstop]
  generalize s.concatFrom (i + 1) (stop - (i + 1)) = name
  generalize ho : (if (!name.isEmpty && name.toList.head? != some ':' &&
      decide (s.spelling i = "module")) = true
    then (o.note (s.statementEnd (i + 1)).notes).nameModule name
    else o.note (s.statementEnd (i + 1)).notes) = o'
  have hb : o'.Bare := by
    rw [← ho]
    split
    · exact (hb.note _).nameModule name
    · exact hb.note _
  cases !name.isEmpty && name.toList.head? != some ':' with
  | true => exact (hb.toVacant.covers_add (by decide) (by decide) ..).mono False.elim
  | false => exact hb.covers_add ..

theorem covers_readUsing (h : s.IsStatement stop) (hr : s.Runs stop (i + 1)) (hb : o.Bare) :
    (o.readUsing s scope 0 i templated).Covers stop True := by
  have hstop := hr.index_statementEnd h
  unfold readUsing
  simp only
  rw [hstop]
  have hv (notes : List Note) := (hb.note notes).toVacant
  split
  · exact (hv _).covers_add (by decide) (by decide) ..
  split
  · split
    · exact (hv _).covers_add (by decide) (by decide) ..
    · exact (hv _).covers_add (by decide) (by decide) ..
  · exact (hv _).covers_add (by decide) (by decide) ..

theorem covers_readTypedefRest (hstop : (s.statementEnd i).index = stop) (hv : o.Vacant) :
    (o.readTypedefRest s scope 0 i).Covers stop True := by
  unfold readTypedefRest
  simp only
  rw [hstop]
  exact (hv.note _).covers_add (by decide) (by decide) ..

theorem covers_readNamespace (h : s.IsStatement stop) (hr : s.Runs stop (i + 1)) (hb : o.Bare) :
    (o.readNamespace s scope 0 i).Covers stop False := by
  have hr := (hr.namespaceNames h []).skipBrackets h
  unfold readNamespace
  simp only
  split
  · rename_i hequals
    rw [hr.index_statementEnd h]
    exact ((hb.note _).note _).toVacant.covers_add (by decide) (by decide) .. |>.mono False.elim
  split
  · rename_i hbrace
    exact absurd (Source.spelling_of_is hbrace) (hr.ne_brace h).1
  · exact (covers_readPlain h hr ((hb.note _).note _)).mono False.elim

end

end Outline

/-! ## Classes and enumerations -/

namespace Source

variable (s : Source)

/-- Where the head of a class ends whose key is lexeme `key`. -/
def recordHeadEnd (key : Nat) : Nat :=
  let n := s.recordName [] false (s.skipDecorations [] (key + 1)).index
  if s.is n.index "final" then n.index + 1 else n.index

/-- Where the head of an enumeration ends whose keyword is lexeme `key`. -/
def enumHeadEnd (key : Nat) : Nat :=
  let j := if s.is (key + 1) "class" || s.is (key + 1) "struct" then key + 2 else key + 1
  let a := s.skipDecorations [] j
  if s.isIdentifier a.index then a.index + 1 else a.index

/-- Where the head of a class or an enumeration ends whose first word is lexeme `key`. -/
def headEnd? (key : Nat) : Option Nat :=
  if ["struct", "class", "union"].contains (s.spelling key) then some (s.recordHeadEnd key)
  else if s.spelling key = "enum" then some (s.enumHeadEnd key)
  else none

/-- From lexeme `j` on, if that is a `:`, stands neither a brace nor a `;` up to the end. -/
def PlainBehind (j : Nat) : Prop :=
  s.is j ":" = true → ∀ k, j < k → k + 1 < s.size → s.spelling k ≠ "\x7b" ∧ s.spelling k ≠ ";"

variable {s : Source} {stop key : Nat}

theorem Runs.recordHeadEnd (hr : s.Runs stop (key + 1)) (h : s.IsStatement stop) :
    s.Runs stop (s.recordHeadEnd key) := by
  have hr := (hr.skipDecorations h).recordName h [] false
  unfold Source.recordHeadEnd
  simp only
  split
  · exact hr.succ_of_is h ‹_› (by decide)
  · exact hr

theorem Runs.enumHeadEnd (hr : s.Runs stop (key + 1)) (h : s.IsStatement stop) :
    s.Runs stop (s.enumHeadEnd key) := by
  have hkey : s.Runs stop
      (if s.is (key + 1) "class" || s.is (key + 1) "struct" then key + 2 else key + 1) := by
    split
    · rename_i his
      rw [Bool.or_eq_true] at his
      exact his.elim (fun his => hr.succ_of_is h his (by decide))
        fun his => hr.succ_of_is h his (by decide)
    · exact hr
  unfold Source.enumHeadEnd
  simp only
  generalize (if s.is (key + 1) "class" || s.is (key + 1) "struct" then key + 2 else key + 1) = j
    at hkey
  have hr := hkey.skipDecorations h
  split
  · exact hr.succ_of_isIdentifier h ‹_›
  · exact hr

/-- What follows the `:` of a class head reaches to the end. -/
theorem baseListEnd_of_plain {j : Nat} (h : s.IsStatement stop) (hplain : s.PlainBehind j)
    (hcolon : s.is j ":" = true) :
    min (s.baseListEnd (j + 1)).index (s.size - 1) = stop ∧
      ¬s.is (s.baseListEnd (j + 1)).index "\x7b" = true := by
  have hle : stop ≤ (s.baseListEnd (j + 1)).index :=
    le_baseListEnd_of_bare (fun k hk hlt => hplain hcolon k hk (by rw [h.size]; omega)) h
  refine ⟨by rw [h.size]; omega, fun hbrace => ?_⟩
  -- the only lexeme that is left for a brace is the `;`
  have hlt := lt_size_of_is hbrace
  rw [h.size] at hlt
  have heq : (s.baseListEnd (j + 1)).index = stop := by omega
  rw [heq] at hbrace
  exact (Runs.stop.ne_brace h).1 (spelling_of_is hbrace)

/-- What follows the `:` of an enumeration's head reaches to the end. -/
theorem Runs.underlyingEnd {j : Nat} (hr : s.Runs stop j) (h : s.IsStatement stop)
    (hplain : s.PlainBehind j) :
    s.Runs stop (if s.is j ":" then s.underlyingEnd j else j) := by
  split
  · rename_i hcolon
    have hend : s.underlyingEnd j = stop := by
      refine underlyingEnd_of_bare hr.le (fun k hk hlt => ?_) h
      rcases Nat.eq_or_lt_of_le hk with rfl | hk
      · rw [spelling_of_is hcolon]
        decide
      · exact hplain hcolon k hk (by rw [h.size]; omega)
    rw [hend]
    exact .stop
  · exact hr

end Source

namespace Outline

section

variable {s : Source} {scope : Scope} {o : Outline} {stop i key : Nat} {templated : Bool}

theorem recordKind_documented (templated isSpecialized : Bool) (word : String) :
    recordKind templated isSpecialized word ≠ .macroDefinition ∧
      (recordKind templated isSpecialized word).canBeDocumented = true := by
  unfold recordKind
  (repeat' split) <;> decide

/-- How a class is read whose head holds no body. -/
theorem exists_readRecord (h : s.IsStatement stop) (hr : s.Runs stop (key + 1))
    (hplain : s.PlainBehind (s.recordHeadEnd key)) (hb : o.Bare) (start : Nat) (templated : Bool)
    (outer : Option Nat) :
    ∃ (o' : Outline) (j : Nat) (kind : CursorKind) (name : String) (parent : CursorId),
      o'.Bare ∧ s.Runs stop j ∧ kind ≠ .macroDefinition ∧ kind.canBeDocumented = true ∧
      (o.readRecord s scope start key templated outer =
          (o'.add kind name start stop parent).done (stop + 1) ∨
        o.readRecord s scope start key templated outer =
          if outer.isSome then o'.done j
          else if s.is j ";" then (o'.add kind name start j parent).done (j + 1)
          else o'.readPlain s scope start key templated) := by
  have hr := hr.recordHeadEnd h
  unfold Source.recordHeadEnd at hr hplain
  unfold readRecord
  rw [hb.macros]
  simp only at hr hplain ⊢
  generalize s.recordName [] false (s.skipDecorations [] (key + 1)).index = n at hr hplain
  generalize (if s.is n.index "final" then n.index + 1 else n.index) = j at hr hplain
  obtain ⟨hother, hdoc⟩ := recordKind_documented templated n.isSpecialized (s.spelling key)
  rw [if_neg (fun hbrace => (hr.ne_brace h).1 (Source.spelling_of_is hbrace))]
  by_cases hcolon : s.is j ":" = true
  · -- the list of base classes reaches to the end, and no body follows it
    obtain ⟨hlast, hbrace⟩ := Source.baseListEnd_of_plain h hplain hcolon
    rw [if_pos hcolon, if_neg hbrace, hlast]
    exact ⟨_, j, _, _, _, ((hb.note _).note _).note _, hr, hother, hdoc, .inl rfl⟩
  · rw [if_neg hcolon]
    exact ⟨_, j, _, _, _, hb.note _, hr, hother, hdoc, .inr rfl⟩

theorem covers_readRecord (h : s.IsStatement stop) (hkey : s.Runs stop key)
    (hr : s.Runs stop (key + 1)) (hplain : s.PlainBehind (s.recordHeadEnd key)) (hb : o.Bare) :
    (o.readRecord s scope 0 key templated none).Covers stop (s.namesFrom none key = true) := by
  obtain ⟨o', j, kind, name, parent, hb', hr', hother, hdoc, hread | hread⟩ :=
    exists_readRecord h hr hplain hb 0 templated none
  · rw [hread]
    exact (hb'.toVacant.covers_add hother hdoc ..).mono fun _ => trivial
  · rw [hread, if_neg (by decide)]
    split
    · rename_i hsemicolon
      rw [hr'.eq_stop (Source.spelling_of_is hsemicolon)]
      exact (hb'.toVacant.covers_add hother hdoc ..).mono fun _ => trivial
    · exact covers_readPlain h hkey hb'

variable (scope) in
/-- A class that begins a type definition ends within the statement. -/
theorem vacant_readRecord (h : s.IsStatement stop) (hr : s.Runs stop (key + 1)) (hpos : 0 < key)
    (hplain : s.PlainBehind (s.recordHeadEnd key)) (hb : o.Bare) (outer : Nat) :
    let r := o.readRecord s scope key key false (some outer)
    r.opened = none ∧ r.outline.Vacant ∧ (s.statementEnd r.next).index = stop := by
  obtain ⟨o', j, kind, name, parent, hb', hr', -, -, hread | hread⟩ :=
    exists_readRecord h hr hplain hb key false (some outer)
  · -- nothing is left behind the class, and the type definition still ends with the text
    rw [hread]
    refine ⟨rfl, hb'.toVacant.add_behind _ _ hpos _ _, ?_⟩
    show (s.statementEnd (stop + 1)).index = stop
    rw [Source.statementEnd, if_neg (by rw [h.size]; omega), h.size]
    exact Nat.add_sub_cancel ..
  · rw [hread]
    exact ⟨rfl, hb'.toVacant, hr'.index_statementEnd h⟩

variable (scope) in
/-- How an enumeration is read whose head holds no body. -/
theorem exists_readEnumeration (h : s.IsStatement stop) (hr : s.Runs stop (key + 1))
    (hplain : s.PlainBehind (s.enumHeadEnd key)) (hb : o.Bare) (start : Nat) (inTypedef : Bool) :
    ∃ (o' : Outline) (j : Nat) (name : String), o'.Bare ∧ s.Runs stop j ∧
      o.readEnumeration s scope start key inTypedef =
        if inTypedef then o'.done j
        else if s.is j ";" then (o'.add .enumDecl name start j scope.parent).done (j + 1)
        else o'.readPlain s scope start key false := by
  have hr := (hr.enumHeadEnd h).underlyingEnd h hplain
  unfold Source.enumHeadEnd at hr
  unfold readEnumeration
  rw [hb.macros]
  simp only at hr ⊢
  generalize (if s.is (key + 1) "class" || s.is (key + 1) "struct" then key + 2 else key + 1) = j
    at hr
  generalize (if s.isIdentifier (s.skipDecorations [] j).index then
    (s.skipDecorations [] j).index + 1 else (s.skipDecorations [] j).index) = e at hr
  generalize (if s.is e ":" then s.underlyingEnd e else e) = k at hr
  rw [if_neg (fun hbrace => (hr.ne_brace h).1 (Source.spelling_of_is hbrace))]
  exact ⟨_, k, _, hb.note _, hr, rfl⟩

theorem covers_readEnumeration (h : s.IsStatement stop) (hkey : s.Runs stop key)
    (hr : s.Runs stop (key + 1)) (hplain : s.PlainBehind (s.enumHeadEnd key)) (hb : o.Bare) :
    (o.readEnumeration s scope 0 key false).Covers stop (s.namesFrom none key = true) := by
  obtain ⟨o', j, name, hb', hr', hread⟩ := exists_readEnumeration scope h hr hplain hb 0 false
  rw [hread, if_neg Bool.false_ne_true]
  split
  · rename_i hsemicolon
    rw [hr'.eq_stop (Source.spelling_of_is hsemicolon)]
    exact (hb'.toVacant.covers_add (by decide) (by decide) ..).mono fun _ => trivial
  · exact covers_readPlain h hkey hb'

/-- Where a class key or `enum` stands behind a type definition's keyword or in its place, the head
holds no body. -/
theorem covers_readTypedef (h : s.IsStatement stop) (hr : s.Runs stop (i + 1)) (hb : o.Bare)
    (hplain : ∀ j ∈ s.headEnd? (i + 1), s.PlainBehind j) :
    (o.readTypedef s scope 0 i).Covers stop True := by
  unfold readTypedef
  split
  · rename_i hkey
    have hkey : s.spelling (i + 1) ∈ ["struct", "class", "union"] := by
      simp only [Bool.or_eq_true] at hkey
      rcases hkey with (hkey | hkey) | hkey <;> rw [Source.spelling_of_is hkey] <;> decide
    have hr' : s.Runs stop (i + 1 + 1) := by
      have hwords : ∀ word ∈ ["struct", "class", "union"], word ∉ ";" :: bracketWords := by decide
      exact hr.succ_of_spelling h (hwords _ hkey)
    have hplain' : s.PlainBehind (s.recordHeadEnd (i + 1)) :=
      hplain _ (by rw [Source.headEnd?, if_pos (List.contains_iff_mem.2 hkey)]; rfl)
    obtain ⟨hopened, hvacant, hstop⟩ :=
      vacant_readRecord scope h hr' (Nat.succ_pos i) hplain' hb 0
    simp only
    rw [hopened]
    exact covers_readTypedefRest hstop hvacant
  split
  · rename_i hkey
    have hkey := Source.spelling_of_is hkey
    have hr' : s.Runs stop (i + 1 + 1) := hr.succ_of_spelling h (by rw [hkey]; decide)
    have hplain' : s.PlainBehind (s.enumHeadEnd (i + 1)) :=
      hplain _ (by rw [Source.headEnd?, hkey]; rfl)
    obtain ⟨o', j, name, hb', hr', hread⟩ :=
      exists_readEnumeration scope h hr' hplain' hb (i + 1) true
    rw [hread]
    exact covers_readTypedefRest (hr'.index_statementEnd h) hb'.toVacant
  · exact covers_readTypedefRest (hr.index_statementEnd h) hb.toVacant

end

end Outline

/-! ## All declarations -/

namespace Source

/-- What stands where a word announces something. -/
def Announces (s : Source) (i : Nat) : Announced → Prop
  | .namespaceHead keyword =>
    s.spelling i = "namespace" ∧ keyword = i ∨
      s.spelling i = "inline" ∧ s.is (i + 1) "namespace" = true ∧ keyword = i + 1
  | .linkage brace =>
    s.spelling i = "extern" ∧ s.kind? (i + 1) = some .literal ∧ s.is brace "\x7b" = true ∧
        brace = i + 2 ∨
      s.spelling i = "export" ∧ s.is brace "\x7b" = true ∧ brace = i + 1
  | .exported => s.spelling i = "export"
  | .moduleLine => s.spelling i ∈ ["module", "import"]
  | .templateHead => s.spelling i = "template" ∧ s.is (i + 1) "<" = true
  | .access => True
  | .record => s.spelling i ∈ ["struct", "class", "union"]
  | .enumeration => s.spelling i = "enum"
  | .usingLine => s.spelling i = "using"
  | .typedefLine => s.spelling i = "typedef"
  | .simple kind =>
    s.spelling i ∈ ["friend", "concept", "static_assert"] ∧ kind ≠ .macroDefinition ∧
      kind.canBeDocumented = true
  | .plain => True

theorem announces_announced (s : Source) (start i : Nat) : s.Announces i (s.announced start i) := by
  unfold announced
  split <;> (try split) <;> simp_all [Announces] <;> decide

/-- A block of linkage would open with a brace behind `export`, or behind a language, and no brace
stands outside of groups. -/
theorem announced_ne_linkage {s : Source} {stop i : Nat} (h : s.IsStatement stop)
    (hr : s.Runs stop i) (start brace : Nat) : s.announced start i ≠ .linkage brace := by
  intro ha
  rcases ha ▸ s.announces_announced start i with ⟨hword, hliteral, his, rfl⟩ | ⟨hword, his, rfl⟩
  · have hr' : s.Runs stop (i + 1) := hr.succ_of_spelling h (by rw [hword]; decide)
    have hr'' : s.Runs stop (i + 1 + 1) := by
      refine hr'.succ_of_spelling h fun hmem => ?_
      rw [h.marks _ (hr'.lt_size h) hmem] at hliteral
      cases hliteral
    exact absurd (spelling_of_is his) (hr''.ne_brace h).1
  · have hr' : s.Runs stop (i + 1) := hr.succ_of_spelling h (by rw [hword]; decide)
    exact absurd (spelling_of_is his) (hr'.ne_brace h).1

/-- Behind the template heads and the `export` that stand from lexeme `i` on. -/
def behindHeads (s : Source) (i : Nat) : Nat :=
  if i < s.size then
    match ha : s.announced 0 i with
    | .exported => behindHeads s (i + 1)
    | .templateHead => behindHeads s (s.angleEnd (i + 1) + 1)
    | _ => i
  else i
termination_by s.size - i
decreasing_by
  · omega
  · have := le_angleEnd (lt_size_of_is (is_of_announced ha)); omega

variable {s : Source}

theorem behindHeads_exported {i : Nat} (hi : i < s.size) (ha : s.announced 0 i = .exported) :
    s.behindHeads i = s.behindHeads (i + 1) := by
  rw [behindHeads, if_pos hi]
  split <;> simp_all

theorem behindHeads_templateHead {i : Nat} (hi : i < s.size)
    (ha : s.announced 0 i = .templateHead) :
    s.behindHeads i = s.behindHeads (s.angleEnd (i + 1) + 1) := by
  rw [behindHeads, if_pos hi]
  split <;> simp_all

theorem behindHeads_eq_self {i : Nat} {a : Announced} (ha : s.announced 0 i = a)
    (hother : a ≠ .exported ∧ a ≠ .templateHead) : s.behindHeads i = i := by
  subst ha
  rw [behindHeads]
  split
  · split <;> simp_all
  · rfl

/-- Reading is not cut short at lexeme `i`: no label stands there, and what follows the `:` of a
class head holds neither a brace nor a `;`. -/
structure Uncut (s : Source) (i : Nat) : Prop where
  noLabel : s.announced 0 i ≠ .access
  noBody : ∀ j ∈ s.headEnd? (if s.is i "typedef" then i + 1 else i), s.PlainBehind j

/-- The words from lexeme `i` on name something, or announce something that needs no name. -/
def namesAt (s : Source) (i : Nat) : Bool :=
  match s.announced 0 i with
  | .namespaceHead _ | .moduleLine => false
  | .usingLine | .typedefLine | .simple _ => true
  | _ => s.namesFrom none i

end Source

namespace Outline

variable {s : Source} {scope : Scope} {o : Outline} {stop i : Nat} {templated : Bool}

/-- **A statement is read as one declaration**, behind whatever stands in front of its own words. -/
theorem covers_readDeclaration (h : s.IsStatement stop) (hr : s.Runs stop i) (hb : o.Bare)
    (huncut : s.Uncut (s.behindHeads i)) :
    (readDeclaration s scope 0 o i templated).Covers stop (s.namesAt (s.behindHeads i) = true) := by
  fun_induction readDeclaration s scope 0 o i templated with
  | case1 o i templated hi hbrace =>
    -- no brace stands outside of groups
    rw [Bool.and_eq_true] at hbrace
    exact absurd (Source.spelling_of_is hbrace.1) (hr.ne_brace h).2
  | case2 o i templated hi _ hother => simp [Source.isMacroCall, hb.macros] at hother
  | case3 o i templated hi _ hother => simp [Source.isMacroCall, hb.macros] at hother
  | case4 o i templated hi _ hother => simp [Source.isMacroCall, hb.macros] at hother
  | case5 o i templated hi _ _ keyword ha =>
    rw [Source.behindHeads_eq_self ha (by simp)]
    have hannounces := ha ▸ s.announces_announced 0 i
    have hr' : s.Runs stop (keyword + 1) := by
      rcases hannounces with ⟨hword, rfl⟩ | ⟨hword, his, rfl⟩
      · exact hr.succ_of_spelling h (by rw [hword]; decide)
      · exact (hr.succ_of_spelling h (by rw [hword]; decide)).succ_of_is h his (by decide)
    refine (covers_readNamespace h hr' hb).mono fun hnames => ?_
    rw [Source.namesAt, ha] at hnames
    cases hnames
  | case6 o i templated hi _ _ brace ha =>
    exact absurd ha (Source.announced_ne_linkage h hr 0 brace)
  | case7 o i templated hi _ _ ha ih =>
    rw [Source.behindHeads_exported hi ha] at huncut ⊢
    have hannounces := ha ▸ s.announces_announced 0 i
    exact ih (hr.succ_of_spelling h (by rw [hannounces]; decide)) hb huncut
  | case8 o i templated hi _ _ ha =>
    rw [Source.behindHeads_eq_self ha (by simp)]
    have hannounces := ha ▸ s.announces_announced 0 i
    have hwords : ∀ word ∈ ["module", "import"], word ∉ ";" :: bracketWords := by decide
    have hr' := hr.succ_of_spelling h (hwords _ hannounces)
    refine (covers_readModule h hr' hb).mono fun hnames => ?_
    rw [Source.namesAt, ha] at hnames
    cases hnames
  | case9 o i templated hi _ _ ha ih =>
    rw [Source.behindHeads_templateHead hi ha] at huncut ⊢
    have hannounces := ha ▸ s.announces_announced 0 i
    have hr' : s.Runs stop (i + 1) := hr.succ_of_spelling h (by rw [hannounces.1]; decide)
    exact ih (hr'.behind_angleEnd h hannounces.2) hb huncut
  | case10 o i templated hi _ _ ha =>
    rw [Source.behindHeads_eq_self ha (by simp)] at huncut
    exact absurd ha huncut.noLabel
  | case11 o i templated hi _ _ ha =>
    rw [Source.behindHeads_eq_self ha (by simp)] at huncut ⊢
    have hannounces := ha ▸ s.announces_announced 0 i
    have hwords : ∀ word ∈ ["struct", "class", "union"],
        word ∉ ";" :: bracketWords ∧ word ≠ "typedef" := by decide
    obtain ⟨hword, hkey⟩ := hwords _ hannounces
    have hplain := huncut.noBody (s.recordHeadEnd i) (by
      rw [if_neg fun his => hkey (Source.spelling_of_is his), Source.headEnd?,
        if_pos (List.contains_iff_mem.2 hannounces)]
      rfl)
    refine (covers_readRecord h hr (hr.succ_of_spelling h hword) hplain hb).mono fun hnames => ?_
    rwa [Source.namesAt, ha] at hnames
  | case12 o i templated hi _ _ ha =>
    rw [Source.behindHeads_eq_self ha (by simp)] at huncut ⊢
    have hannounces := ha ▸ s.announces_announced 0 i
    have hplain := huncut.noBody (s.enumHeadEnd i) (by
      rw [if_neg fun his => absurd (hannounces.symm.trans (Source.spelling_of_is his)) (by decide),
        Source.headEnd?, hannounces]
      rfl)
    have hr' := hr.succ_of_spelling h (by rw [hannounces]; decide)
    refine (covers_readEnumeration h hr hr' hplain hb).mono fun hnames => ?_
    rwa [Source.namesAt, ha] at hnames
  | case13 o i templated hi _ _ ha =>
    have hannounces := ha ▸ s.announces_announced 0 i
    have hr' := hr.succ_of_spelling h (by rw [hannounces]; decide)
    exact (covers_readUsing h hr' hb).mono fun _ => trivial
  | case14 o i templated hi _ _ ha =>
    rw [Source.behindHeads_eq_self ha (by simp)] at huncut
    have hannounces := ha ▸ s.announces_announced 0 i
    have hr' := hr.succ_of_spelling h (by rw [hannounces]; decide)
    have htypedef : s.is i "typedef" = true := by rw [hr.is_eq h, hannounces]; rfl
    have hplain := huncut.noBody
    rw [if_pos htypedef] at hplain
    exact (covers_readTypedef h hr' hb hplain).mono fun _ => trivial
  | case15 o i templated hi _ _ kind ha =>
    obtain ⟨hword, hother, hdoc⟩ := ha ▸ s.announces_announced 0 i
    have hwords : ∀ word ∈ ["friend", "concept", "static_assert"], word ∉ ";" :: bracketWords := by
      decide
    have hr' := hr.succ_of_spelling h (hwords _ hword)
    exact (covers_readSimple h hr' hb hother hdoc).mono fun _ => trivial
  | case16 o i templated hi _ _ ha =>
    rw [Source.behindHeads_eq_self ha (by simp)]
    refine (covers_readPlain h hr hb).mono fun hnames => ?_
    rwa [Source.namesAt, ha] at hnames
  | case17 o i templated hi => exact absurd (hr.lt_size h) hi

end Outline

end DocIndex
