import DocIndex.Proofs.Body.Declaration
import DocIndex.Proofs.Layout.Named
import DocIndex.Proofs.Window.Reading

/-!
# What a step does to cursors and scopes

Most of what is read declares neither a function nor a variable and opens no scope. What does is
told here once and for all, so that what holds of parents and scopes need not be followed through
every way of reading.

* `Outline.Silent` — cursors may be added, but no functions, variables or scopes.
* `Lead.Does` — what reading a declaration may do; `Lead.read_does` says that it does nothing else.
* `Outline.step_does` — the same for a step.
* `Outline.grows_comes` — a cursor stays as it is but for its end.
-/

namespace DocIndex

/-- Cursors of this kind are functions and variables, fields among them. -/
def CursorKind.isPlain (kind : CursorKind) : Bool :=
  match Category.ofKind kind with
  | .function | .variable | .member => true
  | _ => false

namespace Outline

/-- Cursors stay but for their ends. -/
structure Grows (o o' : Outline) : Prop where
  drafts : ∀ (id : CursorId) (d : Draft), o.drafts[id]? = some d →
    ∃ last, o'.drafts[id]? = some { d with last }

/-- Cursors stay but for their ends, and those that are new are neither functions nor variables. -/
structure NoPlain (o o' : Outline) : Prop where
  grows : o.Grows o'
  plain : ∀ (id : CursorId) (d : Draft), o'.drafts[id]? = some d → d.kind.isPlain = true →
    id < o.drafts.size

/-- New cursors are neither functions nor variables, and no scope is opened by its name. -/
structure Silent (o o' : Outline) : Prop where
  noPlain : o.NoPlain o'
  scopes : o'.scopes = o.scopes

variable {s : Source} {scope : Scope} {o o' o'' : Outline} {id : CursorId} {kind : CursorKind}
  {start i first last : Nat} {templated : Bool}

theorem Grows.of_eq (hd : o'.drafts = o.drafts) : o.Grows o' := by
  refine ⟨fun id d h => ⟨d.last, ?_⟩⟩
  rw [hd]
  exact h

theorem Grows.refl (o : Outline) : o.Grows o :=
  .of_eq rfl

theorem Grows.trans (h : o.Grows o') (h' : o'.Grows o'') : o.Grows o'' := by
  refine ⟨fun id d hd => ?_⟩
  obtain ⟨last, hd'⟩ := h.drafts id d hd
  obtain ⟨last', hd''⟩ := h'.drafts id _ hd'
  exact ⟨last', hd''⟩

theorem Grows.size_le (h : o.Grows o') : o.drafts.size ≤ o'.drafts.size := by
  by_contra hlt
  have hid : o'.drafts.size < o.drafts.size := by omega
  obtain ⟨last, hd'⟩ := h.drafts o'.drafts.size _ (Array.getElem?_eq_getElem hid)
  exact Nat.lt_irrefl _ (Array.getElem?_eq_some_iff.1 hd').1

theorem grows_declare (o : Outline) (kind : CursorKind) (spelling : String) (first last : Nat)
    (parent : CursorId) : o.Grows (o.declare kind spelling first last parent).1 := by
  refine ⟨fun id d hd => ⟨d.last, ?_⟩⟩
  have hlt := (Array.getElem?_eq_some_iff.1 hd).1
  rw [Laid.getElem?_declare, if_neg (Nat.ne_of_lt hlt), hd]

theorem draft_declare (o : Outline) (kind : CursorKind) (spelling : String) (first last : Nat)
    (parent : CursorId) :
    (o.declare kind spelling first last parent).1.drafts[o.drafts.size]? =
      some ⟨kind, spelling, first, max last first, some parent⟩ :=
  (Laid.getElem?_declare _).trans (if_pos rfl)

theorem grows_reachTo (o : Outline) (id : CursorId) (last : Nat) : o.Grows (o.reachTo id last) := by
  refine ⟨fun i d hd => ?_⟩
  rw [Laid.getElem?_reachTo, hd]
  split
  · exact ⟨last, rfl⟩
  · exact ⟨d.last, rfl⟩

theorem grows_openScope (o : Outline) (path : List String) (name : String) (id : CursorId) :
    o.Grows (o.openScope path name id) :=
  .of_eq (Laid.drafts_openScope ..)

theorem NoPlain.of_eq (hd : o'.drafts = o.drafts) : o.NoPlain o' := by
  refine ⟨.of_eq hd, fun id d h _ => ?_⟩
  rw [hd] at h
  exact (Array.getElem?_eq_some_iff.1 h).1

theorem NoPlain.trans (h : o.NoPlain o') (h' : o'.NoPlain o'') : o.NoPlain o'' := by
  refine ⟨h.grows.trans h'.grows, fun id d hd hkind => ?_⟩
  -- the cursor has its kind from where it was declared
  have hlt := h'.plain id d hd hkind
  obtain ⟨last, hlast⟩ := h'.grows.drafts id _ (Array.getElem?_eq_getElem hlt)
  obtain rfl := Option.some.inj (hd.symm.trans hlast)
  exact h.plain id _ (Array.getElem?_eq_getElem hlt) hkind

theorem noPlain_declare (o : Outline) {kind : CursorKind} (hkind : kind.isPlain = false)
    (spelling : String) (first last : Nat) (parent : CursorId) :
    o.NoPlain (o.declare kind spelling first last parent).1 := by
  refine ⟨grows_declare .., fun id d hd hplain => ?_⟩
  rw [Laid.getElem?_declare] at hd
  split at hd
  · obtain rfl := Option.some.inj hd
    rw [hkind] at hplain
    exact Bool.noConfusion hplain
  · exact (Array.getElem?_eq_some_iff.1 hd).1

namespace Silent

theorem grows (h : o.Silent o') : o.Grows o' :=
  h.noPlain.grows

theorem congr (hd : o'.drafts = o.drafts) (hs : o'.scopes = o.scopes) : o.Silent o' :=
  ⟨.of_eq hd, hs⟩

theorem refl (o : Outline) : o.Silent o :=
  congr rfl rfl

theorem trans (h : o.Silent o') (h' : o'.Silent o'') : o.Silent o'' :=
  ⟨h.noPlain.trans h'.noPlain, h'.scopes.trans h.scopes⟩

theorem note (h : o.Silent o') (notes : List Note) : o.Silent (o'.note notes) :=
  h.trans (congr rfl rfl)

theorem claim (h : o.Silent o') (first last : Nat) (id : CursorId) :
    o.Silent (o'.claim first last id) :=
  h.trans (congr rfl rfl)

theorem define (h : o.Silent o') (name : String) (hasParameters : Bool) :
    o.Silent (o'.define name hasParameters) :=
  h.trans (congr rfl rfl)

theorem undefine (h : o.Silent o') (name : String) : o.Silent (o'.undefine name) :=
  h.trans (congr rfl rfl)

theorem nameModule (h : o.Silent o') (name : String) : o.Silent (o'.nameModule name) :=
  h.trans (congr rfl rfl)

theorem declare (h : o.Silent o') (hkind : kind.isPlain = false) (spelling : String)
    (first last : Nat) (parent : CursorId) :
    o.Silent (o'.declare kind spelling first last parent).1 :=
  h.trans ⟨noPlain_declare o' hkind .., rfl⟩

theorem add (h : o.Silent o') (hkind : kind.isPlain = false) (spelling : String)
    (first last : Nat) (parent : CursorId) : o.Silent (o'.add kind spelling first last parent) :=
  (h.declare hkind spelling first last parent).claim ..

theorem reachTo (h : o.Silent o') (id : CursorId) (last : Nat) :
    o.Silent (o'.reachTo id last) := by
  refine h.trans ⟨⟨grows_reachTo .., fun i d hd _ => ?_⟩, rfl⟩
  have hlt := (Array.getElem?_eq_some_iff.1 hd).1
  rwa [Outline.reachTo, Array.size_modify] at hlt

/-! ## Statements -/

theorem readDirective (h : o.Silent o') (i : Nat) : o.Silent (o'.readDirective s i) := by
  unfold Outline.readDirective
  simp only
  have hkind : CursorKind.preprocessingDirective.isPlain = false := by decide
  have hline := h.declare hkind (s.spelling (i + 1)) i (s.lastCode i (s.lineEnd i)) 0
  split
  · exact ((hline.define ..).claim ..).add (by decide) ..
  split
  · exact (hline.undefine ..).claim ..
  · exact hline.claim ..

theorem readSimple (h : o.Silent o') (hkind : kind.isPlain = false) (start i : Nat) :
    o.Silent (o'.readSimple s scope kind start i).outline :=
  (h.note _).add hkind ..

theorem readModule (h : o.Silent o') (start i : Nat) :
    o.Silent (o'.readModule s scope start i).outline := by
  unfold Outline.readModule
  simp only [done]
  apply add
  · split
    · exact (h.note _).nameModule _
    · exact h.note _
  · split
    · decide
    · decide

theorem readUsing (h : o.Silent o') (start i : Nat) :
    o.Silent (o'.readUsing s scope start i templated).outline := by
  unfold Outline.readUsing
  simp only [done]
  split
  · exact (h.note _).add (by decide) ..
  split
  · refine (h.note _).add ?_ ..
    split
    · decide
    · decide
  · exact (h.note _).add (by decide) ..

theorem readTypedefRest (h : o.Silent o') (start i : Nat) :
    o.Silent (o'.readTypedefRest s scope start i).outline :=
  (h.note _).add (by decide) ..

/-! ## Enumerations -/

theorem readEnumerators (h : o.Silent o') (id : CursorId) (i : Nat) :
    o.Silent (Outline.readEnumerators s id o' i).1 := by
  fun_induction Outline.readEnumerators s id o' i with
  | case1 => exact h
  | case2 o' i _ _ _ ih => exact ih (h.readDirective i)
  | case3 o' i _ _ _ _ e last ih => exact ih ((h.note _).add (by decide) ..)
  | case4 o' i _ _ _ _ ih => exact ih (h.claim ..)
  | case5 => exact h

theorem readEnumBody (h : o.Silent o') (id : CursorId) (start brace : Nat) (inTypedef : Bool) :
    o.Silent (o'.readEnumBody s id start brace inTypedef).outline := by
  unfold Outline.readEnumBody
  simp only [done]
  have hbody := h.readEnumerators (s := s) id (brace + 1)
  refine ((note ?_ _).claim ..).reachTo ..
  split
  · exact hbody.note _
  · exact hbody

/-- An enumeration in a type definition is read on behind it. -/
theorem readEnumeration (h : o.Silent o') (start i : Nat) :
    o.Silent (o'.readEnumeration s scope start i true).outline := by
  rw [readEnumeration_eq]
  unfold readEnumerationFrom
  split
  · exact (((h.note _).declare (by decide) ..).claim ..).readEnumBody ..
  · rw [if_pos rfl]
    exact h.note _

/-! ## The ends of scopes -/

theorem close (h : o.Silent o') (closing : Closing) (after : Nat) :
    o.Silent (Outline.close s scope closing o' after).1 := by
  cases closing with
  | linkage id start => exact h.reachTo ..
  | namespaces ids start =>
    simp only [Outline.close]
    induction ids generalizing o' with
    | nil => exact h
    | cons id ids ih => exact ih (h.reachTo ..)
  | record id start => exact ((h.note _).claim ..).reachTo ..
  | typedefRecord id start outer => exact ((h.claim ..).reachTo ..).readTypedefRest ..

end Silent

/-! ## Classes -/

theorem opened_openRecord (scope : Scope) (n : Source.RecordName) (kind : CursorKind) (start : Nat)
    (parent : CursorId) (outer : Option Nat) (o : Outline) (brace : Nat) :
    ∃ f, (openRecord scope n kind start parent outer o brace).opened = some f := by
  unfold openRecord
  simp only
  split
  · exact ⟨_, rfl⟩
  · exact ⟨_, rfl⟩

theorem isPlain_recordKind {isSpecialized : Bool} {key : String} :
    (recordKind templated isSpecialized key).isPlain = false := by
  unfold recordKind
  (repeat' split) <;> decide

/-- A class is opened, or no more than its head is read, or it is the type of a variable. -/
theorem readRecord_cases (s : Source) (scope : Scope) (start key : Nat) (templated : Bool)
    (outer : Option Nat) (o : Outline) :
    (∃ (o' : Outline) (kind : CursorKind) (brace : Nat), o.Silent o' ∧ kind.isPlain = false ∧
        o.readRecord s scope start key templated outer =
          openRecord scope (s.recordHead o.macros (key + 1)).1 kind start
            ((o.resolve scope.path (s.recordHead o.macros (key + 1)).1.qualifier).getD scope.parent)
            outer o' brace) ∨
      (∃ o' next, o.Silent o' ∧ o.readRecord s scope start key templated outer = o'.done next) ∨
      (outer = none ∧ s.plainAt? o.macros key .record = some key ∧
        ∃ notes, o.readRecord s scope start key templated outer =
          (o.note notes).readPlain s scope start key templated) := by
  have hnote (notes : List Note) : o.Silent (o.note notes) := (Silent.refl o).note notes
  rw [readRecord_eq]
  unfold readRecordFrom
  simp only
  split
  · exact .inl ⟨_, _, _, hnote _, isPlain_recordKind, rfl⟩
  rename_i hbrace
  split
  · split
    · exact .inl ⟨_, _, _, (hnote _).note _, isPlain_recordKind, rfl⟩
    · exact .inr (.inl ⟨_, _, (((hnote _).note _).note _).add isPlain_recordKind .., rfl⟩)
  rename_i hcolon
  split
  · exact .inr (.inl ⟨_, _, hnote _, rfl⟩)
  rename_i houter
  split
  · exact .inr (.inl ⟨_, _, (hnote _).add isPlain_recordKind .., rfl⟩)
  · rename_i hsemi
    refine .inr (.inr ⟨by simpa using houter, ?_, _, rfl⟩)
    simp only [Source.plainAt?, hbrace, hcolon, hsemi, Bool.or_self, Bool.false_eq_true, if_false]

theorem isPlain_functionKind {d : Shape} {record : Option String} {name : String} :
    (functionKind d record templated name).isPlain = true := by
  unfold functionKind
  (repeat' split) <;> decide

end Outline

theorem Source.isPlain_of_simple {s : Source} {start i : Nat} {kind : CursorKind}
    (h : s.announced start i = .simple kind) : kind.isPlain = false := by
  unfold announced at h
  split at h <;> (try split at h) <;> cases h <;> decide

namespace Lead

open Outline Source

variable {s : Source} {scope : Scope} {start : Nat} {l l' : Lead}

/-- Where the key of a class stands that is read at the lead, as a declaration or as the first part
of a type definition. -/
def classKey? (s : Source) (start : Nat) (l : Lead) : Option Nat :=
  match l.announced? s start with
  | some .record => some l.index
  | some .typedefLine => if startsRecord s (l.index + 1) then some (l.index + 1) else none
  | _ => none

/-- What reading a declaration may lead to, from where its own words begin. -/
inductive Does (s : Source) (scope : Scope) (start : Nat) (l : Lead) : Outcome → Prop
  /-- No function, no variable, and no scope. -/
  | passes {o : Outline} {next : Nat} (silent : l.outline.Silent o) :
      Does s scope start l (o.done next)
  /-- A function or a variable that is named at `n`. -/
  | names {o : Outline} {j n last next : Nat} {kind : CursorKind} {spelling : String}
      (plain : l.plainAt? s start = some j) (name : (s.shape l.outline.macros j).name = some n)
      (drafts : o.drafts = l.outline.drafts) (scopes : o.scopes = l.outline.scopes)
      (isPlain : kind.isPlain = true) :
      Does s scope start l ((o.add kind spelling start last
        ((o.resolve scope.path (s.qualifierOf n)).getD scope.parent)).done next)
  /-- A block within the scope around. -/
  | linkage {brace : Nat} : Does s scope start l (l.outline.readLinkage scope start brace)
  /-- Namespaces, the outer one first. -/
  | namespaces {o : Outline} {brace : Nat} {names : List String} (silent : l.outline.Silent o) :
      Does s scope start l
        (((openNamespaces start brace scope.parent scope.path [] names o).1.claim start brace
          (openNamespaces start brace scope.parent scope.path [] names o).2.2.1).enter (brace + 1)
          (.ofNamespace (openNamespaces start brace scope.parent scope.path [] names o).2.2.1
            (openNamespaces start brace scope.parent scope.path [] names o).2.2.2)
          (.namespaces (openNamespaces start brace scope.parent scope.path [] names o).2.1 start))
  /-- A class. -/
  | record {o : Outline} {key first brace : Nat} {n : RecordName} {kind : CursorKind}
      {outer : Option Nat} (silent : l.outline.Silent o) (isPlain : kind.isPlain = false)
      (classKey : l.classKey? s start = some key)
      (head : (s.recordHead l.outline.macros (key + 1)).1 = n) :
      Does s scope start l
        (openRecord scope n kind first
          ((l.outline.resolve scope.path n.qualifier).getD scope.parent) outer o brace)

/-- What is read for its shape is a function or a variable, if it has a name. -/
theorem readPlain_named {o : Outline} {j n : Nat} (hname : (s.shape o.macros j).name = some n)
    (scope : Scope) (start : Nat) (templated : Bool) :
    ∃ (o' : Outline) (kind : CursorKind) (spelling : String) (last next : Nat),
      o'.drafts = o.drafts ∧ o'.scopes = o.scopes ∧ kind.isPlain = true ∧
        o.readPlain s scope start j templated = (o'.add kind spelling start last
          ((o'.resolve scope.path (s.qualifierOf n)).getD scope.parent)).done next := by
  rw [readPlain_eq, declarePlain, hname]
  simp only
  split
  · exact ⟨o.note (s.shape o.macros j).notes, _, _, _, _, rfl, rfl, isPlain_functionKind, rfl⟩
  · refine ⟨o.note (s.shape o.macros j).notes, _, _, _, _, rfl, rfl, ?_, rfl⟩
    split
    · decide
    · decide

theorem does_readPlain {o : Outline} {j : Nat} {templated : Bool}
    (hplain : l.plainAt? s start = some j) (hd : o.drafts = l.outline.drafts)
    (hs : o.scopes = l.outline.scopes) (hm : o.macros = l.outline.macros) :
    l.Does s scope start (o.readPlain s scope start j templated) := by
  cases hname : (s.shape l.outline.macros j).name with
  | none =>
    rw [readPlain_eq, declarePlain, hm, hname]
    exact .passes (((Silent.congr hd hs).note _).add (by decide) ..)
  | some n =>
    obtain ⟨o', kind, spelling, last, next, hd', hs', hkind, hread⟩ :=
      readPlain_named (show (s.shape o.macros j).name = some n by rw [hm, hname])
        scope start templated
    rw [hread]
    exact .names hplain hname (hd'.trans hd) (hs'.trans hs) hkind

theorem does_readNamespace {keyword : Nat}
    (ha : l.announced? s start = some (.namespaceHead keyword)) :
    l.Does s scope start (l.outline.readNamespace s scope start keyword) := by
  have hsilent (notes : List Note) := (Silent.refl l.outline).note notes
  rw [readNamespace_eq]
  unfold readNamespaceFrom
  split
  · exact .passes (((hsilent _).note _).add (by decide) ..)
  rename_i hassign
  split
  · exact .namespaces (hsilent _)
  · rename_i hbrace
    refine does_readPlain ?_ rfl rfl rfl
    simp only [plainAt?, ha, Option.bind_some, Source.plainAt?, hassign, hbrace, Bool.or_self,
      Bool.false_eq_true, if_false]

theorem does_readRecord {templated : Bool} (ha : l.announced? s start = some .record) :
    l.Does s scope start (l.outline.readRecord s scope start l.index templated none) := by
  have hkey : l.classKey? s start = some l.index := by
    simp only [classKey?, ha]
  rcases readRecord_cases s scope start l.index templated none l.outline with
    ⟨o', kind, brace, hsilent, hkind, hr⟩ | ⟨o', next, hsilent, hr⟩ | ⟨-, hplain, notes, hr⟩
  · rw [hr]
    exact .record hsilent hkind hkey rfl
  · rw [hr]
    exact .passes hsilent
  · rw [hr]
    refine does_readPlain ?_ rfl rfl rfl
    rw [plainAt?, ha, Option.bind_some]
    exact hplain

theorem does_readEnumeration (ha : l.announced? s start = some .enumeration) :
    l.Does s scope start (l.outline.readEnumeration s scope start l.index false) := by
  have hsilent (notes : List Note) := (Silent.refl l.outline).note notes
  rw [readEnumeration_eq]
  unfold readEnumerationFrom
  split
  · exact .passes ((((hsilent _).declare (by decide) ..).claim ..).readEnumBody ..)
  rename_i hbrace
  rw [if_neg Bool.false_ne_true]
  split
  · exact .passes ((hsilent _).add (by decide) ..)
  · rename_i hsemi
    refine does_readPlain ?_ rfl rfl rfl
    simp only [plainAt?, ha, Option.bind_some, Source.plainAt?, hbrace, hsemi, Bool.or_self,
      Bool.false_eq_true, if_false]

theorem does_readTypedef (ha : l.announced? s start = some .typedefLine) :
    l.Does s scope start (l.outline.readTypedef s scope start l.index) := by
  rw [readTypedef_eq]
  split
  · rename_i hstarts
    have hkey : l.classKey? s start = some (l.index + 1) := by
      simp only [classKey?, ha, hstarts, if_true]
    rcases readRecord_cases s scope (l.index + 1) (l.index + 1) false (some start) l.outline with
      ⟨o', kind, brace, hsilent, hkind, hr⟩ | ⟨o', next, hsilent, hr⟩ | ⟨houter, -⟩
    · -- the rest is read behind the body
      obtain ⟨f, hopened⟩ := opened_openRecord scope
        (s.recordHead l.outline.macros (l.index + 1 + 1)).1 kind (l.index + 1)
        ((l.outline.resolve scope.path
          (s.recordHead l.outline.macros (l.index + 1 + 1)).1.qualifier).getD scope.parent)
        (some start) o' brace
      rw [hr, readTypedefAfter, hopened]
      exact .record hsilent hkind hkey rfl
    · rw [hr]
      exact .passes (hsilent.readTypedefRest ..)
    · cases houter
  split
  · rw [readTypedefAfter, opened_readEnumeration]
    exact .passes (((Silent.refl _).readEnumeration ..).readTypedefRest ..)
  · exact .passes ((Silent.refl _).readTypedefRest ..)

theorem silent_addMacroCall (l : Lead) : l.outline.Silent (l.outline.addMacroCall s l.index).1 :=
  (((Silent.refl _).note _).declare (by decide) ..).claim ..

/-- **What reading a declaration does**, from where its own words begin. -/
theorem read_does (h : l.next? s start = none) : l.Does s scope start (l.read s scope start) := by
  by_cases hlt : l.index < s.size
  · by_cases hbrace : (s.is l.index "\x7d" && start < l.index) = true
    · rw [read, readDeclaration, dif_pos hlt, if_pos hbrace]
      exact .passes ((Silent.refl _).add (by decide) ..)
    have hgoes : ¬ (s.size ≤ l.index ∨ (s.is l.index "\x7d" && start < l.index) = true) :=
      fun hor => hor.elim (by omega) hbrace
    rw [next?, if_neg hgoes] at h
    by_cases hcalled : s.isMacroCall l.outline.macros l.index = true
    · rw [if_pos hcalled] at h
      rw [read, readDeclaration_macroCall hlt hbrace hcalled]
      split
      · exact .passes ((l.silent_addMacroCall).claim ..)
      · rename_i hsemi
        split
        · exact .passes l.silent_addMacroCall
        · rename_i halone
          simp only [hsemi, halone, Bool.or_self, Bool.false_eq_true, if_false] at h
          cases h
    · rw [if_neg hcalled] at h
      have ha := announced?_eq (l := l) ⟨hlt, hbrace⟩ hcalled
      rw [read, readDeclaration_announced hlt hbrace hcalled]
      generalize hannounced : s.announced start l.index = a at ha h ⊢
      cases a with
      | namespaceHead keyword => exact does_readNamespace ha
      | linkage brace => exact .linkage
      | exported => cases h
      | moduleLine => exact .passes ((Silent.refl _).readModule ..)
      | templateHead => cases h
      | access => exact .passes ((Silent.refl _).add (by decide) ..)
      | record => exact does_readRecord ha
      | enumeration => exact does_readEnumeration ha
      | usingLine => exact .passes ((Silent.refl _).readUsing ..)
      | typedefLine => exact does_readTypedef ha
      | simple kind =>
        exact .passes ((Silent.refl _).readSimple (isPlain_of_simple hannounced) ..)
      | plain =>
        have hplain : l.plainAt? s start = some l.index := by
          rw [plainAt?, ha, Option.bind_some]
          rfl
        exact does_readPlain hplain rfl rfl rfl
  · rw [read, readDeclaration, dif_neg hlt]
    exact .passes (Silent.refl _)

/-- The words in front of a declaration declare neither functions nor variables. -/
theorem silent_ownWords (l : Lead) : l.outline.Silent (l.ownWords s start).outline := by
  fun_induction ownWords s start l with
  | case1 l l' h ih =>
    refine Silent.trans ?_ ih
    obtain ⟨-, -, ⟨-, -, -, rfl⟩ | ⟨-, ⟨-, rfl⟩ | ⟨-, rfl⟩⟩⟩ := next?_cases h
    · exact l.silent_addMacroCall
    · exact Silent.refl _
    · exact Silent.refl _
  | case2 l h => exact Silent.refl _

end Lead

namespace Outline

variable {s : Source} {o : Outline}

theorem noPlain_openNamespaces (start brace : Nat) (parent : CursorId) (path : List String)
    (ids : List CursorId) (names : List String) :
    o.NoPlain (openNamespaces start brace parent path ids names o).1 := by
  induction names generalizing o parent path ids with
  | nil => exact .of_eq rfl
  | cons name names ih =>
    have hkind : CursorKind.namespaceDecl.isPlain = false := by decide
    have hdeclare := noPlain_declare o hkind name start brace parent
    simp only [openNamespaces]
    split
    · exact hdeclare.trans (ih ..)
    · exact (hdeclare.trans (.of_eq (Laid.drafts_openScope ..))).trans (ih ..)

theorem noPlain_openRecord {kind : CursorKind} (hkind : kind.isPlain = false) (scope : Scope)
    (n : Source.RecordName) (start : Nat) (parent : CursorId) (outer : Option Nat) (brace : Nat) :
    o.NoPlain (openRecord scope n kind start parent outer o brace).outline := by
  have hdeclare := noPlain_declare o hkind n.name start brace parent
  unfold openRecord
  simp only
  split
  · exact hdeclare.trans (.of_eq rfl)
  · exact hdeclare.trans (.of_eq (Laid.drafts_openScope ..))

end Outline

/-- Nothing but a function or a variable is told apart from other cursors. -/
theorem Lead.Does.noPlain {s : Source} {scope : Scope} {start : Nat} {l : Lead} {r : Outcome}
    (h : l.Does s scope start r) :
    l.outline.NoPlain r.outline ∨
      ∃ (j n : Nat) (o : Outline) (kind : CursorKind) (spelling : String) (last : Nat),
        l.plainAt? s start = some j ∧ (s.shape l.outline.macros j).name = some n ∧
          o.drafts = l.outline.drafts ∧ r.outline = o.add kind spelling start last
            ((o.resolve scope.path (s.qualifierOf n)).getD scope.parent) := by
  cases h with
  | passes silent => exact .inl silent.noPlain
  | names plain name drafts _ _ => exact .inr ⟨_, _, _, _, _, _, plain, name, drafts, rfl⟩
  | linkage => exact .inl ((Outline.noPlain_declare _ (by decide) ..).trans (.of_eq rfl))
  | namespaces silent =>
    exact .inl ((silent.noPlain.trans (Outline.noPlain_openNamespaces ..)).trans (.of_eq rfl))
  | record silent isPlain =>
    exact .inl (silent.noPlain.trans (Outline.noPlain_openRecord isPlain ..))

theorem Lead.Does.grows {s : Source} {scope : Scope} {start : Nat} {l : Lead} {r : Outcome}
    (h : l.Does s scope start r) : l.outline.Grows r.outline := by
  rcases h.noPlain with hplain | ⟨_, _, o, _, _, _, -, -, hdrafts, hr⟩
  · exact hplain.grows
  · rw [hr]
    exact ((Outline.Grows.of_eq hdrafts).trans (Outline.grows_declare ..)).trans (.of_eq rfl)

namespace Outline

variable {s : Source}

/-- **What a step does**: no function, no variable and no scope, or what reading a declaration
does. -/
theorem step_does (s : Source) (r : Reading) :
    (r.outline.Silent (step s r.outline r.frames r.next).outline ∧
        (step s r.outline r.frames r.next).frames <:+ r.frames) ∨
      (startsDeclaration s r.next = true ∧
        ∃ out, (r.lead s).Does s (scopeOf r.frames) r.next out ∧
          step s r.outline r.frames r.next =
            ⟨out.outline, out.opened.toList ++ r.frames, out.next⟩) := by
  by_cases hstarts : startsDeclaration s r.next = true
  · exact .inr ⟨hstarts, _, Lead.read_does Lead.next?_ownWords, step_lead hstarts⟩
  have hsilent := Silent.refl r.outline
  refine .inl ?_
  unfold step
  simp only
  split
  · exact ⟨hsilent.claim .., List.suffix_refl _⟩
  rename_i hcomment
  split
  · exact ⟨hsilent.readDirective _, List.suffix_refl _⟩
  rename_i hline
  split
  · split
    · exact ⟨hsilent.note _, List.nil_suffix⟩
    · rename_i f around hframes
      rw [hframes]
      exact ⟨(hsilent.claim ..).close .., List.suffix_cons f around⟩
  rename_i hbrace
  split
  · exact ⟨hsilent.claim .., List.suffix_refl _⟩
  · rename_i hsemi
    simp [startsDeclaration, hcomment, hline, hbrace, hsemi] at hstarts

theorem silent_lead (s : Source) (r : Reading) : r.outline.Silent (r.lead s).outline :=
  Lead.silent_ownWords ⟨r.outline, r.next, false⟩

theorem grows_step (s : Source) (r : Reading) :
    r.outline.Grows (step s r.outline r.frames r.next).outline := by
  rcases step_does s r with ⟨hsilent, -⟩ | ⟨-, out, hdoes, hstep⟩
  · exact hsilent.grows
  · rw [hstep]
    exact (silent_lead s r).grows.trans hdoes.grows

theorem silent_closeAll (frames : List Frame) (o : Outline) (i : Nat) :
    o.Silent (closeAll s frames o i) := by
  induction frames generalizing o i with
  | nil => exact Silent.refl o
  | cons f around ih => exact (((Silent.refl o).note _).close ..).trans (ih ..)

/-- **A cursor stays as it is but for its end** while reading comes on. -/
theorem grows_comes {r r' : Reading} (hcomes : Comes s r r') : r.outline.Grows r'.outline := by
  induction hcomes with
  | refl r => exact Grows.refl _
  | @step r r' _ _ ih => exact (grows_step s r).trans ih

end Outline

end DocIndex
