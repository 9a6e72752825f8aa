import DocIndex.Comment.Signature
import DocIndex.Proofs.Source.Stretches
import DocIndex.Proofs.Window.Groups

/-!
# Names

Where the name of a cursor is written is found out while its declaration is read: by the shape of a
declaration, by a declarator, in the head of a class or of an alias. Each looks elsewhere, and the
cursor gets its end only later, behind a body. Whichever it is, the name is an identifier that the
cursor reaches over. A macro is named by the lexeme that it begins with, which may be any.

* `ShapeState.Identified` — what may be the name of a declaration, while its shape is read.
* `Outline.Named` — **every cursor that goes by one lexeme reaches over it.**
* `named_readDeclaration`, `named_step`, `named_ofText` — one declaration, one step, the whole
  text.
-/

namespace DocIndex

/-! ## Names in declarations -/

/-- Lexeme `n` is an identifier in front of lexeme `i`, and no earlier than `first`. -/
structure Source.NameIn (s : Source) (first i n : Nat) : Prop where
  le : first ≤ n
  lt : n < i
  identifier : s.isIdentifier n = true

theorem Source.NameIn.mono {s : Source} {first first' i j n : Nat} (h : s.NameIn first i n)
    (hfirst : first' ≤ first) (hij : i ≤ j) : s.NameIn first' j n :=
  ⟨Nat.le_trans hfirst h.le, Nat.lt_of_lt_of_le h.lt hij, h.identifier⟩

/-- What may name a declaration that begins with lexeme `first` stands in front of lexeme `i`.
A function may be named by its `operator` keyword as well. -/
structure ShapeState.Identified (s : Source) (first i : Nat) (st : ShapeState) : Prop where
  name : st.shape.isFunction = false → ∀ n ∈ st.shape.name, s.NameIn first i n
  lastIdentifier : ∀ n ∈ st.lastIdentifier, s.NameIn first i n

/-- What a step has found may name the declaration. -/
def ShapeStep.Identified (s : Source) (first : Nat) : ShapeStep → Prop
  | .done d => d.isFunction = false → ∀ n ∈ d.name, s.NameIn first (d.stop + 1) n
  | .next i st => st.Identified s first i

theorem ShapeState.identified_empty {s : Source} {first i : Nat} :
    ShapeState.empty.Identified s first i where
  name _ n hn := by cases hn
  lastIdentifier n hn := by cases hn

namespace ShapeState.Identified

variable {s : Source} {first i j stop : Nat} {st : ShapeState} (h : st.Identified s first i)
include h

theorem mono (hij : i ≤ j) : st.Identified s first j where
  name hf n hn := (h.name hf n hn).mono (Nat.le_refl _) hij
  lastIdentifier n hn := (h.lastIdentifier n hn).mono (Nat.le_refl _) hij

theorem note (notes : List Note) : (st.note notes).Identified s first i :=
  ⟨h.name, h.lastIdentifier⟩

theorem nameLast : st.nameLast.Identified s first i := by
  refine ⟨fun hf n hn => ?_, h.lastIdentifier⟩
  cases hname : st.shape.name with
  | none =>
    rw [ShapeState.nameLast, hname] at hn
    exact h.lastIdentifier n hn
  | some m =>
    rw [ShapeState.nameLast, hname] at hn
    exact h.name hf n (hname ▸ hn)

theorem beginInit : st.beginInit.Identified s first i := by
  unfold ShapeState.beginInit
  split
  · exact ⟨h.name, h.lastIdentifier⟩
  · exact ⟨h.nameLast.name, h.nameLast.lastIdentifier⟩

theorem withIdentifier {n : Nat} (hn : s.NameIn first i n) :
    (st.withIdentifier n).Identified s first i :=
  ⟨h.name, fun m hm => by cases hm; exact hn⟩

/-- A declaration that ends is named by what it is named by, or else by its last identifier. -/
theorem finish (hi : min i s.size ≤ stop + 1) :
    (ShapeStep.done (st.finish stop)).Identified s first := by
  intro hf n hn
  have hname := h.nameLast.name hf n hn
  have hsize := Source.lt_size_of_isIdentifier hname.identifier
  have hlt := hname.lt
  refine ⟨hname.le, ?_, hname.identifier⟩
  show n < stop + 1
  omega

end ShapeState.Identified

namespace Source

section

variable {s : Source} {macros : Macros} {first i : Nat} {st : ShapeState}
  (h : st.Identified s first i) (hlt : i < s.size)
include h hlt

theorem identified_skipGroup : (s.skipGroup st i).Identified s first :=
  (h.mono (Nat.le_succ_of_le (le_groupEnd hlt))).note _

theorem identified_nameInside (hfirst : first ≤ i) :
    (s.nameInside st i).Identified s first (s.groupEnd i + 1) := by
  have h := h.mono (Nat.le_succ_of_le (le_groupEnd hlt))
  unfold nameInside
  split
  · split
    · rename_i n hn
      obtain ⟨hle, hend, hidentifier⟩ := mem_declaredName? hn
      exact h.withIdentifier ⟨by omega, by omega, hidentifier⟩
    · exact h
  · exact h

theorem identified_nameAtParen (hfirst : first ≤ i) :
    (s.nameAtParen macros st i).Identified s first (s.groupEnd i + 1) := by
  have hgroup := h.mono (Nat.le_succ_of_le (le_groupEnd hlt))
  unfold nameAtParen
  split
  · split
    · exact hgroup
    · exact ⟨nofun, hgroup.lastIdentifier⟩
  · split
    · split
      · exact ⟨nofun, hgroup.lastIdentifier⟩
      · exact identified_nameInside h hlt hfirst
    · exact identified_nameInside h hlt hfirst

theorem identified_braceStep : (s.braceStep st i).Identified s first := by
  unfold braceStep
  split
  · exact identified_skipGroup h hlt
  split
  · exact identified_skipGroup h.nameLast hlt
  split
  · exact identified_skipGroup h hlt
  · -- only a function has a body
    rename_i hfunction _
    intro hf
    have hf : st.shape.isFunction = false := hf
    rw [hf] at hfunction
    exact absurd rfl hfunction

/-- **A step finds nothing but identifiers** that a declaration other than a function may be named
by. -/
theorem identified_shapeStep (hfirst : first ≤ i) :
    (s.shapeStep macros first st i).Identified s first := by
  have hnext := h.mono (Nat.le_succ i)
  unfold shapeStep
  split
  · exact hnext
  split
  · unfold angleStep
    split
    · exact ⟨hnext.name, hnext.lastIdentifier⟩
    · exact ⟨hnext.name, hnext.lastIdentifier⟩
    · exact ⟨hnext.name, hnext.lastIdentifier⟩
    all_goals first | exact identified_skipGroup h hlt | exact hnext
  unfold plainStep
  cases hm : s.mark i <;> simp only
  case semicolon => exact h.finish (by omega)
  case closeBrace => exact (h.note _).finish (by omega)
  case openBrace => exact identified_braceStep h hlt
  case openParen =>
    split
    · exact (identified_nameAtParen h hlt hfirst).note _
    · exact identified_skipGroup h hlt
  case openBracket => exact identified_skipGroup h hlt
  case equals =>
    split
    · exact hnext
    · exact hnext.beginInit
  case staticWord => exact ⟨hnext.name, hnext.lastIdentifier⟩
  case comma =>
    split
    · exact hnext.nameLast
    · exact hnext
  case greater | shiftRight | other =>
    split
    · rename_i hname
      rw [Bool.and_eq_true] at hname
      exact hnext.withIdentifier ⟨hfirst, Nat.lt_succ_self i, hname.1⟩
    · exact hnext
  all_goals
    split
    · exact ⟨hnext.name, hnext.lastIdentifier⟩
    · exact hnext

end

variable {s : Source}

theorem identified_shapeFrom {macros : Macros} {first i : Nat} {st : ShapeState}
    (h : st.Identified s first i) (hfirst : first ≤ i) :
    (ShapeStep.done (s.shapeFrom macros first st i)).Identified s first := by
  fun_induction shapeFrom s macros first st i with
  | case1 st i hi d hstep =>
    rw [← hstep]
    exact identified_shapeStep h hi hfirst
  | case2 st i hi j st' hstep ih =>
    have hlt := lt_of_shapeStep hi hstep
    have hnext : (s.shapeStep macros first st i).Identified s first :=
      identified_shapeStep h hi hfirst
    rw [hstep] at hnext
    exact ih hnext (by omega)
  | case3 st i hi => exact (h.note _).finish (by omega)

/-- **A declaration that is no function is named by one of its identifiers.** -/
theorem nameIn_shape {macros : Macros} {i n : Nat}
    (hf : (s.shape macros i).isFunction = false) (hn : n ∈ (s.shape macros i).name) :
    s.NameIn i ((s.shape macros i).stop + 1) n :=
  identified_shapeFrom ShapeState.identified_empty (Nat.le_refl i) hf n hn

/-- No identifier is a brace that closes a scope. -/
def NoWordCloses (s : Source) : Prop :=
  ∀ k, s.isIdentifier k = true → s.spelling k ≠ "\x7d"

theorem noWordCloses_ofText (cs : List Char) : (ofText cs).NoWordCloses := by
  intro k hk heq
  obtain ⟨c, ds, hspelling, hc⟩ := word_of_isIdentifier hk
  rw [heq] at hspelling
  obtain ⟨rfl, -⟩ := List.cons.inj hspelling
  cases hc

/-- A statement does not end in front of an identifier that it begins with. -/
theorem le_statementEnd_of_isIdentifier {i : Nat} (hword : s.NoWordCloses)
    (hi : s.isIdentifier i = true) : i ≤ (s.statementEnd i).index := by
  have hlt := lt_size_of_isIdentifier hi
  rw [statementEnd, if_pos hlt]
  split
  · exact Nat.le_refl i
  split
  · exact le_statementEnd hlt (Nat.lt_succ_of_le (le_groupEnd hlt))
  · rw [if_neg (hword i hi)]
    exact le_statementEnd hlt (Nat.lt_succ_self i)

/-- The name in the head of a class is one of its identifiers. -/
theorem nameIn_recordName {qualifier : List String} {isSpecialized : Bool} {i : Nat}
    (hname : (s.recordName qualifier isSpecialized i).name ≠ "") :
    ∃ k, s.NameIn i (s.recordName qualifier isSpecialized i).index k ∧
      s.spelling k = (s.recordName qualifier isSpecialized i).name := by
  have hbehind (i : Nat) : i < if s.is (i + 1) "<" then s.angleEnd (i + 1) + 1 else i + 1 := by
    split
    · have := le_angleEnd (lt_size_of_is ‹_›)
      omega
    · exact Nat.lt_succ_self i
  fun_induction recordName s qualifier isSpecialized i with
  | case1 qualifier isSpecialized i _ a j _ ih =>
    have hlt : i < j := hbehind i
    obtain ⟨k, hk, hspelling⟩ := ih hname
    exact ⟨k, hk.mono (by omega) (Nat.le_refl _), hspelling⟩
  | case2 qualifier isSpecialized i hidentifier a j _ =>
    exact ⟨i, ⟨Nat.le_refl i, hbehind i, hidentifier⟩, rfl⟩
  | case3 => exact absurd rfl hname

theorem nameIn_recordHead {macros : Macros} {i : Nat}
    (hname : (s.recordHead macros i).1.name ≠ "") :
    ∃ k, s.NameIn i (s.recordHead macros i).2 k ∧
      s.spelling k = (s.recordHead macros i).1.name := by
  obtain ⟨k, hk, hspelling⟩ := nameIn_recordName hname
  refine ⟨k, hk.mono (le_skipDecorations macros i) ?_, hspelling⟩
  simp only [recordHead]
  split
  · exact Nat.le_succ _
  · exact Nat.le_refl _

end Source

/-! ## Named cursors -/

/-- Cursors of these categories go by a single lexeme. A function may go by several. -/
def Category.isNamed : Category → Bool
  | function | unsupported => false
  | _ => true

/-- Lexeme `k` names the cursor. -/
structure Draft.NamedAt (s : Source) (d : Draft) (k : Nat) : Prop where
  first_le : d.first ≤ k
  le_last : k ≤ d.last
  lt_size : k < s.size
  spelling : s.spelling k = d.spelling
  /-- A macro begins with its name, which may be any lexeme. -/
  head : d.kind = .macroDefinition → k = d.first ∧ d.last < s.size
  identifier : d.kind ≠ .macroDefinition → s.isIdentifier k = true

namespace Outline

/-- Every cursor that goes by a single lexeme reaches over it, and it stands in front of `next`.
Neither the file nor the cursors `ids`, whose bodies are open, are macros. -/
structure Named (s : Source) (ids : List CursorId) (next : Nat) (o : Outline) : Prop where
  opened : ∀ id ∈ 0 :: ids, ∃ d, o.drafts[id]? = some d ∧ d.kind ≠ .macroDefinition
  named : ∀ (id : CursorId) (d : Draft), o.drafts[id]? = some d →
    (Category.ofKind d.kind).isNamed = true → d.spelling ≠ "" → ∃ k < next, d.NamedAt s k

end Outline

/-- If a cursor of this kind goes by a single lexeme, it is spelled like an identifier from lexeme
`first` on in front of lexeme `i`, unless it has no name. -/
structure Source.Names (s : Source) (kind : CursorKind) (spelling : String) (first i : Nat) :
    Prop where
  noMacro : kind ≠ .macroDefinition
  name : (Category.ofKind kind).isNamed = true → spelling ≠ "" →
    ∃ k, s.NameIn first i k ∧ s.spelling k = spelling

namespace Source.Names

variable {s : Source} {kind : CursorKind} {spelling : String} {first i k : Nat}

theorem of_other (hkind : (Category.ofKind kind).isNamed = false) :
    s.Names kind spelling first i where
  noMacro := by
    rintro rfl
    cases hkind
  name hnamed := by
    rw [hkind] at hnamed
    cases hnamed

theorem of_nameIn (hkind : kind ≠ .macroDefinition) (hk : s.NameIn first i k) :
    s.Names kind (s.spelling k) first i :=
  ⟨hkind, fun _ _ => ⟨k, hk, rfl⟩⟩

end Source.Names

namespace Outline.Named

variable {s : Source} {ids ids' : List CursorId} {next next' first last : Nat} {o o' : Outline}
  {id : CursorId} {kind : CursorKind} {spelling : String}

/-! ## Reading on -/

theorem congr (h : o.Named s ids next) (hd : o'.drafts = o.drafts) : o'.Named s ids next :=
  ⟨by rw [hd]; exact h.opened, by rw [hd]; exact h.named⟩

theorem note (h : o.Named s ids next) (notes : List Note) : (o.note notes).Named s ids next :=
  h.congr rfl

theorem claim (h : o.Named s ids next) (first last : Nat) (id : CursorId) :
    (o.claim first last id).Named s ids next :=
  h.congr rfl

theorem define (h : o.Named s ids next) (name : String) (hasParameters : Bool) :
    (o.define name hasParameters).Named s ids next :=
  h.congr rfl

theorem nameModule (h : o.Named s ids next) (name : String) :
    (o.nameModule name).Named s ids next :=
  h.congr rfl

theorem openScope (h : o.Named s ids next) (path : List String) (name : String) (id : CursorId) :
    (o.openScope path name id).Named s ids next :=
  h.congr (Laid.drafts_openScope o path name id)

theorem subset (h : o.Named s ids next) (hids : ids' ⊆ ids) : o.Named s ids' next :=
  ⟨fun id hid => h.opened id (List.cons_subset_cons 0 hids hid), h.named⟩

/-- Behind the end of the text all places are alike. -/
theorem mono (h : o.Named s ids next) (hnext : min next s.size ≤ next') :
    o.Named s ids next' where
  opened := h.opened
  named id d hd hkind hspelling := by
    -- the name stands in the text itself
    obtain ⟨k, hlt, hk⟩ := h.named id d hd hkind hspelling
    have hsize := hk.lt_size
    exact ⟨k, by omega, hk⟩

/-- A cursor whose body is open comes to reach over all that has been read. -/
theorem reachTo (h : o.Named s ids next) (hid : id ∈ ids) (hlast : min next s.size ≤ last + 1) :
    (o.reachTo id last).Named s ids next := by
  constructor
  · intro i hi
    obtain ⟨d, hd, hkind⟩ := h.opened i hi
    rw [Laid.getElem?_reachTo, hd]
    split
    · exact ⟨_, rfl, hkind⟩
    · exact ⟨d, rfl, hkind⟩
  · intro i d hd hnamed hspelling
    rw [Laid.getElem?_reachTo] at hd
    split at hd
    · -- its end comes behind all names so far
      rename_i heq
      subst heq
      obtain ⟨e, he, rfl⟩ := Option.map_eq_some_iff.1 hd
      obtain ⟨k, hlt, hk⟩ := h.named id e he hnamed hspelling
      obtain ⟨e', he', hkind⟩ := h.opened id (List.mem_cons_of_mem 0 hid)
      obtain rfl : e = e' := Option.some.inj (he.symm.trans he')
      have hsize := hk.lt_size
      refine ⟨k, hlt, hk.first_le, ?_, hk.lt_size, hk.spelling, fun heq => absurd heq hkind,
        hk.identifier⟩
      show k ≤ last
      omega
    · exact h.named i d hd hnamed hspelling

/-! ## New cursors -/

/-- A cursor that goes by a single lexeme needs one. -/
theorem declare_named (h : o.Named s ids next) (first last : Nat) (parent : CursorId)
    (hname : (Category.ofKind kind).isNamed = true → spelling ≠ "" →
      ∃ k < next, Draft.NamedAt s ⟨kind, spelling, first, max last first, some parent⟩ k) :
    (o.declare kind spelling first last parent).1.Named s ids next := by
  constructor
  · intro i hi
    obtain ⟨d, hd, hkind⟩ := h.opened i hi
    rw [Laid.getElem?_declare, if_neg (Nat.ne_of_lt (Array.getElem?_eq_some_iff.1 hd).1)]
    exact ⟨d, hd, hkind⟩
  · intro i d hd hnamed hspelling
    rw [Laid.getElem?_declare] at hd
    split at hd
    · cases hd
      exact hname hnamed hspelling
    · exact h.named i d hd hnamed hspelling

/-- A cursor begins, and may stay open. -/
theorem declare (h : o.Named s ids next) (hname : s.Names kind spelling first (last + 1))
    (hnext : last < next) (parent : CursorId) :
    (o.declare kind spelling first last parent).1.Named s (o.drafts.size :: ids) next := by
  have hdeclared := h.declare_named first last parent fun hnamed hspelling => by
    obtain ⟨k, hk, hspelled⟩ := hname.name hnamed hspelling
    have hlt := hk.lt
    refine ⟨k, by omega, hk.le, ?_, Source.lt_size_of_isIdentifier hk.identifier, hspelled,
      fun heq => absurd heq hname.noMacro, fun _ => hk.identifier⟩
    show k ≤ max last first
    omega
  refine ⟨fun i hi => ?_, hdeclared.named⟩
  by_cases heq : i = o.drafts.size
  · exact ⟨_, (Laid.getElem?_declare i).trans (if_pos heq), hname.noMacro⟩
  · have hold : i ∈ 0 :: ids := by simpa [heq] using hi
    exact hdeclared.opened i hold

/-- A cursor that no single lexeme names. -/
theorem declare_other (h : o.Named s ids next) (kind : CursorKind)
    (hkind : (Category.ofKind kind).isNamed = false) (spelling : String) (first last : Nat)
    (parent : CursorId) : (o.declare kind spelling first last parent).1.Named s ids next :=
  h.declare_named first last parent fun hnamed => by
    rw [hkind] at hnamed
    cases hnamed

/-- A cursor that is over as soon as it begins. -/
theorem add (h : o.Named s ids next) (hname : s.Names kind spelling first (last + 1))
    (hnext : min next s.size ≤ last + 1) (parent : CursorId) :
    (o.add kind spelling first last parent).Named s ids (last + 1) :=
  (((h.mono hnext).declare hname (Nat.lt_succ_self last) parent).claim ..).subset
    (List.subset_cons_self _ _)

/-- A macro is named by the lexeme that it begins with. -/
theorem addMacro (h : o.Named s ids next) (hfirst : first ≤ last) (hlast : last < s.size)
    (hnext : last < next) (parent : CursorId) :
    (o.add .macroDefinition (s.spelling first) first last parent).Named s ids next := by
  refine (h.declare_named first last parent fun _ _ => ⟨first, by omega, Nat.le_refl first, ?_,
    by omega, rfl, fun _ => ⟨rfl, ?_⟩, fun hkind => absurd rfl hkind⟩).claim ..
  · show first ≤ max last first
    omega
  · show max last first < s.size
    omega

end Outline.Named

/-- What a declaration leads to: named cursors, and no macro among those whose bodies are open. -/
def Outcome.Named (s : Source) (ids : List CursorId) (r : Outcome) : Prop :=
  r.outline.Named s (Edge.opened (Frame.edges r.opened.toList) ++ ids) r.next

namespace Outline

open Source

variable {s : Source} {ids : List CursorId} {next start i : Nat} {o : Outline} {scope : Scope}
  {templated : Bool} {id : CursorId}

/-! ## Preprocessor lines -/

theorem named_readDirective (h : o.Named s ids i) (hi : i < s.size) :
    (o.readDirective s i).Named s ids (s.lineEnd i + 1) := by
  have hend : s.lineEnd i < s.size := s.lineEnd_lt hi
  obtain ⟨hfirst, hlast⟩ := s.lastCode_le (le_lineEnd (s := s) i)
  have hline := (h.mono (show min i s.size ≤ s.lineEnd i + 1 by omega)).declare_other
    .preprocessingDirective rfl (s.spelling (i + 1)) i (s.lastCode i (s.lineEnd i)) 0
  unfold readDirective
  simp only
  split
  · rename_i hdefine
    simp only [Bool.and_eq_true, decide_eq_true_eq] at hdefine
    have hdefined := (hline.define (s.spelling (i + 2))
      (s.is (i + 3) "(" && s.touchesNext (i + 2))).claim i (i + 1) o.drafts.size
    exact hdefined.addMacro (by omega) (by omega) (by omega) 0
  split
  · exact hline.congr rfl
  · exact hline.congr rfl

/-! ## Functions, variables, modules, aliases and type definitions -/

theorem isNamed_functionKind {d : Shape} {record : Option String} {name : String} :
    (Category.ofKind (functionKind d record templated name)).isNamed = false := by
  unfold functionKind
  (repeat' split) <;> rfl

theorem isNamed_of_simple {kind : CursorKind} (h : s.announced start i = .simple kind) :
    (Category.ofKind kind).isNamed = false := by
  unfold announced at h
  split at h <;> (try split at h) <;> cases h <;> rfl

section

variable (h : o.Named s ids next) (hnext : min next s.size ≤ i)
include h hnext

theorem named_readSimple {kind : CursorKind} (hkind : (Category.ofKind kind).isNamed = false) :
    (o.readSimple s scope kind start i).Named s ids := by
  have hreach := s.min_le_shape o.macros (i + 1)
  exact (h.note _).add (.of_other hkind) (by omega) scope.parent

theorem named_readModule : (o.readModule s scope start i).Named s ids := by
  have hreach := s.min_le_statementEnd (i + 1)
  have hnote := h.note (s.statementEnd (i + 1)).notes
  have hadd {o : Outline} (h : o.Named s ids next) {kind : CursorKind}
      (hkind : (Category.ofKind kind).isNamed = false) (name : String) :
      (o.add kind name start (s.statementEnd (i + 1)).index scope.parent).Named s ids
        ((s.statementEnd (i + 1)).index + 1) :=
    h.add (.of_other hkind) (by omega) scope.parent
  unfold readModule
  simp only
  split
  · refine hadd (hnote.nameModule _) ?_ _
    split <;> rfl
  · refine hadd hnote ?_ _
    split <;> rfl

variable (hle : start ≤ i)
include hle

theorem named_readPlain : (o.readPlain s scope start i templated).Named s ids := by
  have hreach := s.min_le_shape o.macros i
  replace h := h.note (s.shape o.macros i).notes
  unfold readPlain
  simp only
  split
  · exact h.add (.of_other rfl) (by omega) scope.parent
  rename_i n hn
  split
  · exact h.add (.of_other isNamed_functionKind) (by omega) _
  · rename_i hfunction
    have hname := nameIn_shape (Bool.eq_false_iff.2 hfunction) (Option.mem_def.2 hn)
    refine h.add (.of_nameIn ?_ (hname.mono hle (Nat.le_refl _))) (by omega) _
    split <;> exact nofun

/-- The name of an alias stands in front of where its statement ends, as no identifier closes a
scope. -/
theorem named_readUsing (hword : s.NoWordCloses) :
    (o.readUsing s scope start i templated).Named s ids := by
  have hreach := s.min_le_statementEnd (i + 1)
  replace h := h.note ((s.statementEnd (i + 1)).notes ++ (s.skipDecorations o.macros (i + 2)).notes)
  unfold readUsing
  simp only
  split
  · exact h.add (.of_other rfl) (by omega) scope.parent
  split
  · rename_i halias
    rw [Bool.and_eq_true] at halias
    have hlast := le_statementEnd_of_isIdentifier hword halias.1
    refine h.add (.of_nameIn ?_ ⟨by omega, Nat.lt_succ_of_le hlast, halias.1⟩) (by omega) _
    split <;> exact nofun
  · exact h.add (.of_other rfl) (by omega) scope.parent

theorem named_readTypedefRest : (o.readTypedefRest s scope start i).Named s ids := by
  have hreach := s.min_le_statementEnd i
  have hname : s.Names .typedefDecl
      (((s.declaredName? i (s.statementEnd i).index).map s.spelling).getD "") start
      ((s.statementEnd i).index + 1) := by
    cases hn : s.declaredName? i (s.statementEnd i).index with
    | none => exact ⟨nofun, fun _ hspelling => absurd rfl hspelling⟩
    | some n =>
      obtain ⟨hfirst, hlast, hidentifier⟩ := mem_declaredName? (Option.mem_def.2 hn)
      exact .of_nameIn nofun ⟨by omega, by omega, hidentifier⟩
  exact (h.note _).add hname (by omega) scope.parent

end

/-! ## Scopes -/

theorem named_readLinkage (h : o.Named s ids next) {brace : Nat} (hnext : next ≤ brace) :
    (o.readLinkage scope start brace).Named s ids :=
  ((h.mono (show min next s.size ≤ brace + 1 by omega)).declare (.of_other rfl)
    (Nat.lt_succ_self brace) scope.parent).claim ..

variable (start) in
theorem named_openNamespaces {brace : Nat} {opened : List CursorId}
    (h : o.Named s (opened ++ ids) (brace + 1)) (parent : CursorId) (path : List String)
    (names : List String) :
    (openNamespaces start brace parent path opened names o).1.Named s
      ((openNamespaces start brace parent path opened names o).2.1 ++ ids) (brace + 1) := by
  induction names generalizing o parent path opened with
  | nil => exact h
  | cons name names ih =>
    have hnamed : (o.declare .namespaceDecl name start brace parent).1.Named s
        ((opened ++ [o.drafts.size]) ++ ids) (brace + 1) :=
      (h.declare (.of_other rfl) (Nat.lt_succ_self brace) parent).subset (by simp)
    simp only [openNamespaces]
    split
    · exact ih hnamed ..
    · exact ih (hnamed.openScope ..) ..

theorem named_readNamespaceFrom (h : o.Named s ids next) {names : List String} {j : Nat}
    (hle : start ≤ j) (hnext : next ≤ j) :
    (o.readNamespaceFrom s scope start names j).Named s ids := by
  have hreach := s.min_le_statementEnd j
  unfold readNamespaceFrom
  split
  · exact (h.note _).add (.of_other rfl) (by omega) scope.parent
  split
  · have hopened : o.Named s ([] ++ ids) (j + 1) := h.mono (by omega)
    have hbody := named_openNamespaces start hopened scope.parent scope.path
      (if names.isEmpty then [""] else names)
    simpa [Outcome.Named, enter, Closing.edges] using hbody.claim ..
  · exact named_readPlain (h.note _) (by omega) hle

theorem named_readNamespace (h : o.Named s ids i) (hle : start ≤ i) {keyword : Nat}
    (hkeyword : i ≤ keyword) : (o.readNamespace s scope start keyword).Named s ids := by
  have hj := s.le_namespaceHead (keyword + 1)
  rw [readNamespace_eq]
  exact named_readNamespaceFrom (h.note _) (by omega) (by omega)

/-! ## Classes -/

theorem recordKind_ne {isSpecialized : Bool} {key : String} :
    recordKind templated isSpecialized key ≠ .macroDefinition := by
  unfold recordKind
  (repeat' split) <;> exact nofun

section

variable {outer : Option Nat} {n : RecordName} {kind : CursorKind} {parent : CursorId} {j : Nat}
  (h : o.Named s ids i) (hle : start ≤ i) (hij : i < j)
  (hname : n.name ≠ "" → ∃ k, s.NameIn i j k ∧ s.spelling k = n.name)
include h hle hij hname

omit h hij in
/-- The name of a class stands in front of whatever ends its head. -/
theorem names_record (hkind : kind ≠ .macroDefinition) {last : Nat}
    (hlast : min j s.size ≤ last + 1) : s.Names kind n.name start (last + 1) := by
  refine ⟨hkind, fun _ hspelling => ?_⟩
  obtain ⟨k, hk, hspelled⟩ := hname hspelling
  have hsize := lt_size_of_isIdentifier hk.identifier
  have hlt := hk.lt
  have hfirst := hk.le
  exact ⟨k, ⟨by omega, by omega, hk.identifier⟩, hspelled⟩

theorem named_openRecord (hkind : kind ≠ .macroDefinition) {brace : Nat} (hbrace : j ≤ brace) :
    (openRecord scope n kind start parent outer o brace).Named s ids := by
  have hopened : ((o.declare kind n.name start brace parent).1.claim start brace
      o.drafts.size).Named s (o.drafts.size :: ids) (brace + 1) :=
    ((h.mono (by omega)).declare (names_record hle hname hkind (by omega)) (Nat.lt_succ_self brace)
      parent).claim ..
  have hnamed (path : List String) := hopened.openScope path n.name o.drafts.size
  simp only [openRecord]
  cases outer with
  | none =>
    split
    · exact hopened
    · exact hnamed _
  | some first =>
    split
    · exact hopened
    · exact hnamed _

theorem named_readRecordFrom :
    (readRecordFrom s scope start i templated outer n parent o j).Named s ids := by
  have hbase := le_baseListEnd (s := s) (j + 1)
  unfold readRecordFrom
  simp only
  split
  · exact named_openRecord h hle hij hname recordKind_ne (Nat.le_refl j)
  split
  · split
    · exact named_openRecord (h.note _) hle hij hname recordKind_ne (by omega)
    · exact ((h.note _).note _).add (names_record hle hname recordKind_ne (by omega)) (by omega)
        parent
  split
  · exact h.mono (show min i s.size ≤ j by omega)
  split
  · exact h.add (names_record hle hname recordKind_ne (by omega)) (by omega) parent
  · exact named_readPlain h (by omega) hle

end

theorem named_readRecord (h : o.Named s ids i) (hle : start ≤ i) {outer : Option Nat} :
    (o.readRecord s scope start i templated outer).Named s ids := by
  have hj := s.le_recordHead o.macros (i + 1)
  rw [readRecord_eq]
  refine named_readRecordFrom (h.note _) hle (by omega) fun hname => ?_
  obtain ⟨k, hk, hspelling⟩ := nameIn_recordHead hname
  exact ⟨k, hk.mono (Nat.le_succ i) (Nat.le_refl _), hspelling⟩

/-! ## Enumerations -/

variable (id) in
theorem named_readEnumerators (h : o.Named s ids i) :
    (readEnumerators s id o i).1.Named s ids (readEnumerators s id o i).2 := by
  fun_induction readEnumerators s id o i with
  | case1 => exact h
  | case2 o i hi _ _ ih => exact ih (named_readDirective h hi)
  | case3 o i hi _ _ _ e last ih =>
    have hlast : i ≤ last ∧ last ≤ e.index := s.lastCode_le (le_enumeratorEnd i)
    have hadd : ((o.note e.notes).add .enumConstantDecl (s.spelling i) i last id).Named s ids
        (last + 1) :=
      (h.note e.notes).add (.of_other rfl) (by omega) id
    exact ih (hadd.mono (by omega))
  | case4 o i hi _ _ _ ih => exact ih ((h.mono (by omega)).claim ..)
  | case5 => exact h

theorem named_readEnumBody {brace : Nat} {inTypedef : Bool}
    (h : o.Named s (id :: ids) (brace + 1)) :
    (o.readEnumBody s id start brace inTypedef).Named s ids := by
  have hbody := named_readEnumerators id h
  generalize hr : readEnumerators s id o (brace + 1) = r at hbody
  have hend : min r.2 s.size ≤ (enumEnd s inTypedef r.2).index + 1 := by
    unfold enumEnd
    split
    · simp only; omega
    · have := s.min_le_declaratorsEnd (r.2 + 1)
      omega
  have hnoted : (if s.size ≤ r.2 then r.1.note [⟨r.2, .noClosingBrace⟩] else r.1).Named s
      (id :: ids) r.2 := by
    split
    · exact hbody.note _
    · exact hbody
  have hclaim := ((hnoted.note (enumEnd s inTypedef r.2).notes).mono hend).claim
    (min r.2 (enumEnd s inTypedef r.2).index) (enumEnd s inTypedef r.2).index id
  have hreach : min ((enumEnd s inTypedef r.2).index + 1) s.size ≤
      max (enumEnd s inTypedef r.2).index start + 1 := by omega
  rw [readEnumBody, hr]
  exact (hclaim.reachTo List.mem_cons_self hreach).subset (List.subset_cons_self _ _)

theorem named_readEnumeration {inTypedef : Bool} (h : o.Named s ids i) (hle : start ≤ i) :
    (o.readEnumeration s scope start i inTypedef).Named s ids := by
  have hj := s.lt_enumHead o.macros i
  rw [readEnumeration_eq]
  replace h := h.note (s.skipDecorations o.macros (s.enumKeyEnd i)).notes
  generalize (s.enumHead o.macros i).2 = j at hj
  unfold readEnumerationFrom
  split
  · exact named_readEnumBody (((h.mono (show min i s.size ≤ j + 1 by omega)).declare
      (.of_other rfl) (Nat.lt_succ_self j) scope.parent).claim ..)
  split
  · exact h.mono (show min i s.size ≤ j by omega)
  split
  · exact h.add (.of_other rfl) (by omega) scope.parent
  · exact named_readPlain h (by omega) hle

/-! ## Type definitions -/

theorem named_readTypedef (h : o.Named s ids i) (hle : start ≤ i) :
    (o.readTypedef s scope start i).Named s ids := by
  have hnext := h.mono (show min i s.size ≤ i + 1 by omega)
  rw [readTypedef_eq]
  split
  · rename_i hkey
    have hlt := lt_size_of_startsRecord hkey
    have hbehind : i + 1 < (o.readRecord s scope (i + 1) (i + 1) false (some start)).next :=
      lt_next_readRecord hlt (Nat.le_refl _)
    have hr : (o.readRecord s scope (i + 1) (i + 1) false (some start)).Named s ids :=
      named_readRecord hnext (Nat.le_refl _)
    unfold readTypedefAfter
    split
    · -- a body is open, and the rest is read behind it
      exact hr
    · rename_i hopened
      rw [Outcome.Named, hopened] at hr
      exact named_readTypedefRest hr (by omega) (by omega)
  split
  · rename_i hkey
    have hlt := lt_size_of_is hkey
    have hbehind : i + 1 < (o.readEnumeration s scope (i + 1) (i + 1) true).next :=
      lt_next_readEnumeration hlt (Nat.le_refl _)
    have hr : (o.readEnumeration s scope (i + 1) (i + 1) true).Named s ids :=
      named_readEnumeration hnext (Nat.le_refl _)
    rw [Outcome.Named, opened_readEnumeration] at hr
    rw [readTypedefAfter, opened_readEnumeration]
    exact named_readTypedefRest hr (by omega) (by omega)
  · exact named_readTypedefRest hnext (by omega) (by omega)

/-! ## All declarations -/

theorem named_addMacroCall (h : o.Named s ids i) :
    (o.addMacroCall s i).1.Named s ids (s.macroCallEnd o.macros i + 1) := by
  have hend := s.le_macroCallEnd o.macros i
  exact (((h.note _).mono (by omega)).declare_other .macroInstantiation rfl ..).claim ..

/-- **Reading a declaration leads to named cursors.** -/
theorem named_readDeclaration (hword : s.NoWordCloses) (h : o.Named s ids i) (hle : start ≤ i) :
    (readDeclaration s scope start o i templated).Named s ids := by
  fun_induction readDeclaration s scope start o i templated with
  | case1 o i templated hi hb =>
    simp only [Bool.and_eq_true, decide_eq_true_eq] at hb
    have hadd : (o.add .unexposedDecl "" start (i - 1) scope.parent).Named s ids (i - 1 + 1) :=
      h.add (.of_other rfl) (by omega) scope.parent
    exact hadd.mono (show min (i - 1 + 1) s.size ≤ i by omega)
  | case2 o i templated hi _ _ last o' id hcall hsemicolon =>
    have hcalled := named_addMacroCall h
    rw [hcall] at hcalled
    exact (hcalled.mono (show min (last + 1) s.size ≤ last + 2 by omega)).claim ..
  | case3 o i templated hi _ _ last o' id hcall _ =>
    have hcalled := named_addMacroCall h
    rw [hcall] at hcalled
    exact hcalled
  | case4 o i templated hi _ _ last o' id hcall _ _ ih =>
    have hlast : i ≤ last := s.le_macroCallEnd o.macros i
    have hcalled := named_addMacroCall h
    rw [hcall] at hcalled
    exact ih hcalled (by omega)
  | case5 o i templated hi _ _ keyword ha =>
    exact named_readNamespace h hle (le_of_announced (.inl ha))
  | case6 o i templated hi _ _ brace ha =>
    exact named_readLinkage h (le_of_announced (.inr ha))
  | case7 o i templated hi _ _ ha ih => exact ih (h.mono (by omega)) (by omega)
  | case8 o i templated hi _ _ ha => exact named_readModule h (by omega)
  | case9 o i templated hi _ _ ha ih =>
    have hangle := le_angleEnd (lt_size_of_is (is_of_announced ha))
    exact ih (h.mono (by omega)) (by omega)
  | case10 o i templated hi _ _ ha => exact h.add (.of_other rfl) (by omega) scope.parent
  | case11 o i templated hi _ _ ha => exact named_readRecord h hle
  | case12 o i templated hi _ _ ha => exact named_readEnumeration h hle
  | case13 o i templated hi _ _ ha => exact named_readUsing h (by omega) hle hword
  | case14 o i templated hi _ _ ha => exact named_readTypedef h hle
  | case15 o i templated hi _ _ kind ha =>
    exact named_readSimple h (by omega) (isNamed_of_simple ha)
  | case16 o i templated hi _ _ ha => exact named_readPlain h (by omega) hle
  | case17 o i templated hi => exact h

/-! ## Closing scopes -/

theorem named_reachTo_all {last : Nat} (hlast : min next s.size ≤ last + 1) (opened : List CursorId)
    (h : o.Named s (opened ++ ids) next) :
    (opened.foldl (fun o id => o.reachTo id last) o).Named s ids next := by
  induction opened generalizing o with
  | nil => exact h
  | cons id opened ih =>
    exact ih ((h.reachTo List.mem_cons_self hlast).subset (List.subset_cons_self _ _))

/-- **Closing a scope lets its cursors reach over their names.** The rest of a type definition may
be read then. -/
theorem named_close (scope : Scope) {closing : Closing} {after : Nat}
    (h : o.Named s (Edge.opened closing.edges ++ ids) after)
    (hbegun : ∀ e ∈ closing.edges, e.first ≤ after) :
    (close s scope closing o after).1.Named s ids (close s scope closing o after).2 := by
  cases closing with
  | linkage id start =>
    exact (h.reachTo List.mem_cons_self (by omega)).subset (List.subset_cons_self _ _)
  | namespaces opened start =>
    simp only [Closing.edges, Edge.opened_cons, Edge.opened_nil, List.append_nil] at h
    exact named_reachTo_all (show min after s.size ≤ max (after - 1) start + 1 by omega) opened h
  | record id start =>
    have hreach := s.min_le_declaratorsEnd after
    have hclaim := ((h.note (declaratorsEnd s after).notes).mono hreach).claim
      (min after (declaratorsEnd s after).index) (declaratorsEnd s after).index id
    exact (hclaim.reachTo List.mem_cons_self (by omega)).subset (List.subset_cons_self _ _)
  | typedefRecord id start outer =>
    -- the type definition begins in front of the class, and is named behind it
    have houter : outer ≤ after := hbegun ⟨outer, []⟩ (List.mem_cons_of_mem _ List.mem_cons_self)
    have hreached := ((h.claim (min after (after - 1)) (after - 1) id).reachTo List.mem_cons_self
      (show min after s.size ≤ max (after - 1) start + 1 by omega)).subset
        (List.subset_cons_self _ _)
    exact named_readTypedefRest hreached (by omega) (by omega)

/-! ## Reading a whole text -/

/-- **A step leads to named cursors.** -/
theorem named_step (hword : s.NoWordCloses) {frames : List Frame}
    (h : o.Named s (Edge.opened (Frame.edges frames)) i)
    (hlaid : o.Laid s (Frame.edges frames) i) (hi : i < s.size) :
    (step s o frames i).outline.Named s (Edge.opened (Frame.edges (step s o frames i).frames))
      (step s o frames i).next := by
  have hnext : o.Named s (Edge.opened (Frame.edges frames)) (i + 1) := h.mono (by omega)
  unfold step
  simp only
  split
  · exact hnext.claim ..
  split
  · exact named_readDirective h hi
  split
  · cases frames with
    | nil => exact hnext.note _
    | cons f around =>
      rw [Frame.edges_cons, Edge.opened, List.flatMap_append] at hnext
      refine named_close _ (hnext.claim ..) fun e he => ?_
      have hreached := (hlaid.reached e (List.mem_append_left _ he)).1
      omega
  split
  · exact hnext.claim ..
  · have hr : (readDeclaration s (scopeOf frames) i o i false).Named s
        (Edge.opened (Frame.edges frames)) :=
      named_readDeclaration hword h (Nat.le_refl i)
    rw [Outcome.Named] at hr
    generalize readDeclaration s (scopeOf frames) i o i false = r at hr ⊢
    rw [Frame.edges, List.flatMap_append, Edge.opened, List.flatMap_append]
    exact hr

theorem named_closeAll {frames : List Frame} (h : o.Named s (Edge.opened (Frame.edges frames)) i)
    (hlaid : o.Laid s (Frame.edges frames) i) (hframes : Frame.Nested frames) :
    ∃ next, (closeAll s frames o i).Named s [] next := by
  induction frames generalizing o i with
  | nil => exact ⟨i, h⟩
  | cons f around ih =>
    rw [Frame.edges_cons, Edge.opened, List.flatMap_append] at h
    exact ih (named_close _ (h.note _) fun e he =>
      (hlaid.reached e (List.mem_append_left _ he)).1)
      (laid_close (hlaid.note _) (within_scopeOf hframes.2)) hframes.2

/-- **Reading to the end leads to named cursors.** -/
theorem named_readFrom (hword : s.NoWordCloses) {frames : List Frame}
    (h : o.Named s (Edge.opened (Frame.edges frames)) i)
    (hlaid : o.Laid s (Frame.edges frames) i) (hframes : Frame.Nested frames) :
    ∃ next, (readFrom s o frames i).Named s [] next := by
  fun_induction readFrom s o frames i with
  | case1 o frames i hi r ih =>
    obtain ⟨hlaid', hframes'⟩ := laid_step hlaid hframes hi
    exact ih (named_step hword h hlaid hi) hlaid' hframes'
  | case2 o frames i hi => exact named_closeAll h hlaid hframes

/-- The outline of a text, whatever the text. -/
theorem named_ofText (fileName : String) (macros : Macros) (cs : List Char) :
    ∃ next, (ofSource fileName macros (.ofText cs)).Named (.ofText cs) [] next := by
  have hstart : (start fileName (Source.ofText cs).size macros).Named (.ofText cs)
      (Edge.opened (Frame.edges [])) 0 := by
    constructor
    · intro id hid
      obtain rfl := List.mem_singleton.1 hid
      exact ⟨_, rfl, nofun⟩
    · intro id d hd hnamed
      obtain rfl := eq_zero_of_start hd
      cases hd
      cases hnamed
  exact named_readFrom (noWordCloses_ofText cs) hstart (laid_start ..) trivial

end Outline

end DocIndex
