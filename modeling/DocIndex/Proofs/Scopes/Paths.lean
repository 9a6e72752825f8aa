import DocIndex.Proofs.Printed.Outline
import DocIndex.Proofs.Scopes.Steps

/-!
# Paths of scopes

Where a scope lies is kept in two ways: as a list of names, by which scopes are looked up, and as
the parents of cursors, by which paths are shown. The two agree, whatever scopes are nested in each
other and whichever of two scopes of one name was the first.

* `Outline.enclosing` — the names around a block, read off the cursors whose bodies are open.
* `Innermost` — what a qualifier means within a block.
* `Outline.Scoped` — the two agree, and the scopes that are found are those that were opened.
* `Scoped.resolve` — **a qualifier is resolved to what it means.**
* `Scoped.openNamespaces`, `Scoped.openRecord` — namespaces and classes are opened.
-/

namespace DocIndex

/-- The cursors whose bodies end there. -/
def Closing.ids : Closing → List CursorId
  | linkage id _ => [id]
  | namespaces ids _ => ids
  | record id _ => [id]
  | typedefRecord id _ _ => [id]

/-- How the body of a class is closed, within a type alias or outside of one. -/
def Closing.ofRecord (id : CursorId) (start : Nat) : Option Nat → Closing
  | none => .record id start
  | some outer => .typedefRecord id start outer

/-- Within a block with the names `path` around it a qualifier means the innermost scope that fits,
by its full name, of those that have been opened. If there is none, and where nothing is qualified,
the block itself is meant. -/
inductive Innermost (opened : String → Prop) (path qualifier : List String) : List String → Prop
  | within {k : Nat} (qualified : qualifier ≠ []) (le : k ≤ path.length)
      (found : opened ("::".intercalate (path.take k ++ qualifier)))
      (innermost : ∀ m, k < m → m ≤ path.length →
        ¬ opened ("::".intercalate (path.take m ++ qualifier))) :
      Innermost opened path qualifier (path.take k ++ qualifier)
  | block (none : qualifier = [] ∨
      ∀ k, k ≤ path.length → ¬ opened ("::".intercalate (path.take k ++ qualifier))) :
      Innermost opened path qualifier path

/-- The full name is that of one of the scopes that are opened at once, the outer one first, within
the scopes `around`. -/
def OpensAt (around names : List String) (name : String) : Prop :=
  ∃ inner, inner ≠ [] ∧ inner <+: names ∧ name = "::".intercalate (around ++ inner)

/-! ## Full names -/

theorem qualify_nil (name : String) : qualify [] name = name :=
  String.intercalate_singleton

/-- A name that is qualified itself. -/
theorem qualify_intercalate (path : List String) {names : List String} (hne : names ≠ []) :
    qualify path ("::".intercalate names) = "::".intercalate (path ++ names) := by
  by_cases hpath : path = []
  · rw [hpath, qualify_nil, List.nil_append]
  · rw [qualify, String.intercalate_append_of_ne_nil hpath (List.cons_ne_nil _ _),
      String.intercalate_append_of_ne_nil hpath hne, String.intercalate_singleton]

theorem opensAt_nil (around : List String) (name : String) : ¬ OpensAt around [] name := by
  rintro ⟨inner, hne, hprefix, -⟩
  exact hne (List.prefix_nil.1 hprefix)

theorem opensAt_singleton {around : List String} {first name : String} :
    OpensAt around [first] name ↔ name = qualify around first := by
  constructor
  · rintro ⟨inner, hne, hprefix, rfl⟩
    obtain ⟨rest, rfl, hrest⟩ := (List.prefix_cons_iff.1 hprefix).resolve_left hne
    rw [List.prefix_nil.1 hrest, qualify]
  · rintro rfl
    exact ⟨[first], List.cons_ne_nil _ _, List.prefix_refl _, rfl⟩

/-- One of the outer scopes is opened, or one within all of them. -/
theorem opensAt_append {around names names' : List String} {name : String} :
    OpensAt around (names ++ names') name ↔
      OpensAt around names name ∨ OpensAt (around ++ names) names' name := by
  constructor
  · rintro ⟨inner, hne, ⟨back, hback⟩, rfl⟩
    rcases List.append_eq_append_iff.1 hback with ⟨more, rfl, -⟩ | ⟨rest, rfl, rfl⟩
    · exact .inl ⟨inner, hne, List.prefix_append _ _, rfl⟩
    · by_cases hnil : rest = []
      · rw [hnil, List.append_nil] at hne ⊢
        exact .inl ⟨names, hne, List.prefix_refl _, rfl⟩
      · exact .inr ⟨rest, hnil, List.prefix_append _ _, by rw [List.append_assoc]⟩
  · rintro (⟨inner, hne, hprefix, rfl⟩ | ⟨inner, hne, hprefix, rfl⟩)
    · exact ⟨inner, hne, hprefix.trans (List.prefix_append _ _), rfl⟩
    · exact ⟨names ++ inner, by simp [hne], (List.prefix_append_right_inj names).2 hprefix,
        by rw [List.append_assoc]⟩

namespace Outline

/-- The names of cursors, of those that have one. -/
def namesOf (o : Outline) (ids : List CursorId) : List String :=
  (ids.map fun id => (o.drafts[id]?.map Draft.spelling).getD "").filter (!·.isEmpty)

/-- Opens a scope by its full name, if it has a name of its own. -/
def openNamed (o : Outline) (path : List String) (name : String) (id : CursorId) : Outline :=
  if name.isEmpty then o else o.openScope path name id

/-- The names of the scopes whose bodies are open, from the outside in. -/
def enclosing (o : Outline) (frames : List Frame) : List String :=
  o.namesOf (frames.reverse.flatMap fun f => f.closing.ids)

variable {o o' : Outline} {ids : List CursorId} {id : CursorId} {d : Draft} {frames : List Frame}
  {opened : String → Prop}

theorem namesOf_append (o : Outline) (ids ids' : List CursorId) :
    o.namesOf (ids ++ ids') = o.namesOf ids ++ o.namesOf ids' := by
  simp only [namesOf, List.map_append, List.filter_append]

theorem namesOf_singleton (hd : o.drafts[id]? = some d) :
    o.namesOf [id] = [d.spelling].filter (!·.isEmpty) := by
  simp only [namesOf, List.map_cons, List.map_nil, hd, Option.map_some, Option.getD_some]

theorem enclosing_cons (o : Outline) (f : Frame) (frames : List Frame) :
    o.enclosing (f :: frames) = o.enclosing frames ++ o.namesOf f.closing.ids := by
  rw [enclosing, List.reverse_cons, List.flatMap_append, namesOf_append, List.flatMap_singleton]
  rfl

/-- Cursors keep their names. -/
theorem Grows.namesOf (h : o.Grows o') (hids : ∀ id ∈ ids, id < o.drafts.size) :
    o'.namesOf ids = o.namesOf ids := by
  have hname : ∀ id ∈ ids, (o'.drafts[id]?.map Draft.spelling).getD "" =
      (o.drafts[id]?.map Draft.spelling).getD "" := by
    intro id hid
    have hd := Array.getElem?_eq_getElem (hids id hid)
    obtain ⟨last, hd'⟩ := h.drafts id _ hd
    rw [hd', hd]
    rfl
  rw [Outline.namesOf, Outline.namesOf, List.map_congr_left hname]

/-- Both ways of telling where a scope lies agree, for the blocks that are open and for the scopes
that are found by name; and these are the ones that have been opened. -/
structure Scoped (opened : String → Prop) (frames : List Frame) (o : Outline) : Prop where
  pos : 0 < o.drafts.size
  known : ∀ f ∈ frames, ∀ id ∈ f.closing.ids, id < o.drafts.size
  path : ∀ around, around <:+ frames → (scopeOf around).path = o.enclosing around
  parent : ∀ around, around <:+ frames →
    o.Path (scopeOf around).parent (o.enclosing around)
  found : ∀ name id, o.scopes.lookup name = some id →
    ∃ path, o.Path id path ∧ "::".intercalate path = name
  opened : ∀ name, (∃ id, o.scopes.lookup name = some id) ↔ opened name

namespace Scoped

theorem enclosing_grows (h : o.Scoped opened frames) (hg : o.Grows o') {around : List Frame}
    (hsuffix : around <:+ frames) : o'.enclosing around = o.enclosing around := by
  refine hg.namesOf fun id hid => ?_
  obtain ⟨f, hf, hid⟩ := List.mem_flatMap.1 hid
  exact h.known f (hsuffix.mem (List.mem_reverse.1 hf)) id hid

/-- The same scopes are found where cursors are added. -/
theorem grows (h : o.Scoped opened frames) (hg : o.Grows o') (hs : o'.scopes = o.scopes) :
    o'.Scoped opened frames where
  pos := Nat.lt_of_lt_of_le h.pos hg.size_le
  known f hf id hid := Nat.lt_of_lt_of_le (h.known f hf id hid) hg.size_le
  path around hsuffix := by
    rw [h.enclosing_grows hg hsuffix]
    exact h.path around hsuffix
  parent around hsuffix := by
    rw [h.enclosing_grows hg hsuffix]
    exact (h.parent around hsuffix).of_drafts hg.drafts
  found name id hid := by
    rw [hs] at hid
    obtain ⟨path, hpath, hname⟩ := h.found name id hid
    exact ⟨path, hpath.of_drafts hg.drafts, hname⟩
  opened name := by
    rw [hs]
    exact h.opened name

theorem congr {opened' : String → Prop} (h : o.Scoped opened frames)
    (hopened : ∀ name, opened name ↔ opened' name) : o.Scoped opened' frames :=
  ⟨h.pos, h.known, h.path, h.parent, h.found, fun name => (h.opened name).trans (hopened name)⟩

/-- Blocks are left. -/
theorem suffix (h : o.Scoped opened frames) {around : List Frame} (hsuffix : around <:+ frames) :
    o.Scoped opened around :=
  ⟨h.pos, fun f hf => h.known f (hsuffix.mem hf), fun a ha => h.path a (ha.trans hsuffix),
    fun a ha => h.parent a (ha.trans hsuffix), h.found, h.opened⟩

/-- A block is entered. -/
theorem push (h : o.Scoped opened frames) {f : Frame}
    (hknown : ∀ id ∈ f.closing.ids, id < o.drafts.size)
    (hpath : f.scope.path = o.enclosing frames ++ o.namesOf f.closing.ids)
    (hparent : o.Path f.scope.parent (o.enclosing frames ++ o.namesOf f.closing.ids)) :
    o.Scoped opened (f :: frames) := by
  rw [← enclosing_cons] at hpath hparent
  refine ⟨h.pos, List.forall_mem_cons.2 ⟨hknown, h.known⟩, fun around hsuffix => ?_,
    fun around hsuffix => ?_, h.found, h.opened⟩
  · rcases List.suffix_cons_iff.1 hsuffix with rfl | hsuffix
    · exact hpath
    · exact h.path around hsuffix
  · rcases List.suffix_cons_iff.1 hsuffix with rfl | hsuffix
    · exact hparent
    · exact h.parent around hsuffix

/-! ## Scopes that are looked up -/

theorem lookup_eq_none (h : o.Scoped opened frames) {name : String} :
    o.scopes.lookup name = none ↔ ¬ opened name := by
  rw [← h.opened, Option.eq_none_iff_forall_ne_some, not_exists]

/-- Among the first `k` of the names around, the innermost scope is found. -/
theorem resolveFrom_take (o : Outline) (tail : String) (path : List String) {k : Nat}
    (hk : k ≤ path.length) :
    (∃ m id, m ≤ k ∧ o.resolveFrom tail (path.take k).reverse = some id ∧
        o.scopes.lookup (qualify (path.take m) tail) = some id ∧
        ∀ n, m < n → n ≤ k → o.scopes.lookup (qualify (path.take n) tail) = none) ∨
      (o.resolveFrom tail (path.take k).reverse = none ∧
        ∀ n, n ≤ k → o.scopes.lookup (qualify (path.take n) tail) = none) := by
  induction k with
  | zero =>
    have hnone : o.resolveFrom tail (path.take 0).reverse =
        o.scopes.lookup (qualify (path.take 0) tail) := by
      rw [List.take_zero, qualify_nil]
      rfl
    cases hlookup : o.scopes.lookup (qualify (path.take 0) tail) with
    | some id => exact .inl ⟨0, id, Nat.le_refl 0, hnone.trans hlookup, hlookup, by omega⟩
    | none =>
      refine .inr ⟨hnone.trans hlookup, fun n hn => ?_⟩
      obtain rfl := Nat.le_zero.1 hn
      exact hlookup
  | succ k ih =>
    have hlast : (path.take (k + 1)).reverse = path[k] :: (path.take k).reverse := by
      rw [List.take_succ_eq_append_getElem hk, List.reverse_append]
      rfl
    cases hlookup : o.scopes.lookup (qualify (path.take (k + 1)) tail) with
    | some id =>
      have hfound : o.resolveFrom tail (path.take (k + 1)).reverse = some id := by
        rw [hlast, resolveFrom, ← hlast, List.reverse_reverse, hlookup]
      exact .inl ⟨k + 1, id, Nat.le_refl _, hfound, hlookup, by omega⟩
    | none =>
      have hstep : o.resolveFrom tail (path.take (k + 1)).reverse =
          o.resolveFrom tail (path.take k).reverse := by
        rw [hlast, resolveFrom, ← hlast, List.reverse_reverse, hlookup]
      -- nothing is found with the innermost name, so the names around it are tried
      have hbehind {n : Nat} (hn : n ≤ k + 1) (hbelow : n ≤ k →
          o.scopes.lookup (qualify (path.take n) tail) = none) :
          o.scopes.lookup (qualify (path.take n) tail) = none := by
        rcases Nat.lt_or_eq_of_le hn with hlt | rfl
        · exact hbelow (Nat.le_of_lt_succ hlt)
        · exact hlookup
      rcases ih (Nat.le_of_succ_le hk) with
        ⟨m, id, hm, hresolve, hfound, hinner⟩ | ⟨hresolve, hnone⟩
      · exact .inl ⟨m, id, Nat.le_succ_of_le hm, hstep.trans hresolve, hfound, fun n hlt hn =>
          hbehind hn (hinner n hlt)⟩
      · exact .inr ⟨hstep.trans hresolve, fun n hn => hbehind hn (hnone n)⟩

/-- **A qualifier is resolved to what it means**, by the parents of the cursor that is found. -/
theorem resolve (h : o.Scoped opened frames) (qualifier : List String) :
    ∃ path path', Innermost opened (o.enclosing frames) qualifier path ∧
      o.Path ((o.resolve (o.enclosing frames) qualifier).getD (scopeOf frames).parent) path' ∧
      "::".intercalate path' = "::".intercalate path := by
  have hblock := h.parent frames (List.suffix_refl frames)
  by_cases hqualified : qualifier = []
  · refine ⟨_, _, .block (.inl hqualified), ?_, rfl⟩
    rw [hqualified]
    exact hblock
  have hresolve : o.resolve (o.enclosing frames) qualifier =
      o.resolveFrom ("::".intercalate qualifier)
        ((o.enclosing frames).take (o.enclosing frames).length).reverse := by
    rw [Outline.resolve, List.isEmpty_eq_false_iff.2 hqualified, if_neg Bool.false_ne_true,
      List.take_length]
  rw [hresolve]
  have hname (k : Nat) : qualify ((o.enclosing frames).take k) ("::".intercalate qualifier) =
      "::".intercalate ((o.enclosing frames).take k ++ qualifier) :=
    qualify_intercalate _ hqualified
  rcases resolveFrom_take o ("::".intercalate qualifier) (o.enclosing frames) (Nat.le_refl _) with
    ⟨k, id, hk, hid, hlookup, hinner⟩ | ⟨hnone, houter⟩
  · rw [hid, Option.getD_some]
    rw [hname] at hlookup
    obtain ⟨path', hpath', hsame⟩ := h.found _ id hlookup
    refine ⟨_, path', .within hqualified hk ((h.opened _).1 ⟨id, hlookup⟩) ?_, hpath', hsame⟩
    intro m hlt hm
    rw [← h.lookup_eq_none, ← hname]
    exact hinner m hlt hm
  · rw [hnone, Option.getD_none]
    refine ⟨_, _, .block (.inr fun k hk => ?_), hblock, rfl⟩
    rw [← h.lookup_eq_none, ← hname]
    exact houter k hk

/-! ## Scopes that are opened -/

theorem lookup_openScope (o : Outline) (path : List String) (name : String) (id : CursorId)
    (key : String) :
    (o.openScope path name id).scopes.lookup key =
      if key = qualify path name then some ((o.scopes.lookup key).getD id)
      else o.scopes.lookup key := by
  unfold Outline.openScope
  simp only
  by_cases hkey : key = qualify path name
  · subst hkey
    rw [if_pos rfl]
    cases hlookup : o.scopes.lookup (qualify path name) with
    | some first => exact hlookup
    | none => exact List.lookup_cons_self
  · rw [if_neg hkey]
    split
    · rfl
    · rw [List.lookup_cons, beq_false_of_ne hkey]

/-- A scope is opened by name. The first one of its name stands. -/
theorem openScope (h : o.Scoped opened frames) {path : List String} {name : String}
    (hpath : o.Path id (path ++ [name])) :
    (o.openScope path name id).Scoped (fun key => opened key ∨ key = qualify path name)
      frames := by
  have hg := grows_openScope o path name id
  refine ⟨Nat.lt_of_lt_of_le h.pos hg.size_le, fun f hf id hid =>
    Nat.lt_of_lt_of_le (h.known f hf id hid) hg.size_le, fun around hsuffix => ?_,
    fun around hsuffix => ?_, fun key first hfirst => ?_, fun key => ?_⟩
  · rw [h.enclosing_grows hg hsuffix]
    exact h.path around hsuffix
  · rw [h.enclosing_grows hg hsuffix]
    exact (h.parent around hsuffix).of_drafts hg.drafts
  · rw [lookup_openScope] at hfirst
    split at hfirst
    · rename_i hkey
      cases hlookup : o.scopes.lookup key with
      | some older =>
        rw [hlookup] at hfirst
        obtain rfl := Option.some.inj hfirst
        obtain ⟨path', hpath', hname⟩ := h.found key older hlookup
        exact ⟨path', hpath'.of_drafts hg.drafts, hname⟩
      | none =>
        rw [hlookup] at hfirst
        obtain rfl := Option.some.inj hfirst
        exact ⟨_, hpath.of_drafts hg.drafts, hkey.symm⟩
    · obtain ⟨path', hpath', hname⟩ := h.found key first hfirst
      exact ⟨path', hpath'.of_drafts hg.drafts, hname⟩
  · rw [lookup_openScope, ← h.opened]
    split
    · rename_i hkey
      exact ⟨fun _ => .inr hkey, fun _ => ⟨_, rfl⟩⟩
    · rename_i hkey
      exact ⟨.inl, fun hor => hor.resolve_right hkey⟩

/-- The cursor of a new scope lies within its parent, and the scope is opened by its name. -/
theorem declare_openNamed (h : o.Scoped opened frames) {parent : CursorId} {path : List String}
    (hparent : o.Path parent path) (kind : CursorKind) (name : String) (first last : Nat) :
    let o' := (o.declare kind name first last parent).1.openNamed path name o.drafts.size
    o.Grows o' ∧ o'.Path o.drafts.size (path ++ [name].filter (!·.isEmpty)) ∧
      o'.namesOf [o.drafts.size] = [name].filter (!·.isEmpty) ∧
        o'.Scoped (fun key => opened key ∨ OpensAt path ([name].filter (!·.isEmpty)) key)
          frames := by
  have hd := grows_declare o kind name first last parent
  have hscoped := h.grows hd rfl
  have hdraft := draft_declare o kind name first last parent
  have hpath : (o.declare kind name first last parent).1.Path o.drafts.size
      (path ++ [name].filter (!·.isEmpty)) :=
    .inside hdraft rfl (hparent.lt_size h.pos) (hparent.of_drafts hd.drafts)
  have hname := namesOf_singleton hdraft
  simp only [openNamed]
  by_cases hempty : name.isEmpty = true
  · rw [if_pos hempty]
    refine ⟨hd, hpath, hname, hscoped.congr fun key => ?_⟩
    rw [List.filter_cons_of_neg (by simp [hempty])]
    exact (or_iff_left (opensAt_nil path key)).symm
  · have hone : [name].filter (!·.isEmpty) = [name] :=
      List.filter_cons_of_pos (by simp [hempty])
    have hg := grows_openScope (o.declare kind name first last parent).1 path name o.drafts.size
    rw [if_neg hempty]
    refine ⟨hd.trans hg, hpath.of_drafts hg.drafts, ?_, ?_⟩
    · rw [hg.namesOf (List.forall_mem_singleton.2 (hpath.lt_size hscoped.pos)), hname]
    · rw [hone] at hpath ⊢
      exact (hscoped.openScope hpath).congr fun key => or_congr_right opensAt_singleton.symm

theorem openNamespaces_cons (start brace : Nat) (parent : CursorId) (path : List String)
    (ids : List CursorId) (name : String) (names : List String) :
    Outline.openNamespaces start brace parent path ids (name :: names) o =
      Outline.openNamespaces start brace o.drafts.size (path ++ [name].filter (!·.isEmpty))
        (ids ++ [o.drafts.size]) names
        ((o.declare .namespaceDecl name start brace parent).1.openNamed path name
          o.drafts.size) := by
  rw [Outline.openNamespaces, openNamed]
  by_cases hempty : name.isEmpty = true
  · simp [hempty, declare]
  · simp [hempty, declare]

/-- **Namespaces are opened**, the outer one first, within the scope `parent`. -/
theorem openNamespaces (h : o.Scoped opened frames) {parent : CursorId} {path : List String}
    (hparent : o.Path parent path) (start brace : Nat) (ids : List CursorId)
    (names : List String) :
    let r := Outline.openNamespaces start brace parent path ids names o
    r.1.Scoped (fun name => opened name ∨ OpensAt path (names.filter (!·.isEmpty)) name) frames ∧
      r.1.Path r.2.2.1 r.2.2.2 ∧ r.2.2.2 = path ++ names.filter (!·.isEmpty) ∧
        ∃ inner, r.2.1 = ids ++ inner ∧ (∀ id ∈ inner, id < r.1.drafts.size) ∧
          r.1.namesOf inner = names.filter (!·.isEmpty) := by
  induction names generalizing o parent path ids opened with
  | nil =>
    refine ⟨h.congr fun name => (or_iff_left (opensAt_nil path name)).symm, hparent,
      (List.append_nil path).symm, [], (List.append_nil ids).symm, nofun, rfl⟩
  | cons name names ih =>
    obtain ⟨hg, hpath, hname, hscoped⟩ :=
      h.declare_openNamed hparent .namespaceDecl name start brace
    have hlt := hpath.lt_size hscoped.pos
    obtain ⟨hopened, hinside, hnames, inner, hids, hknown, hinner⟩ :=
      ih hscoped hpath (ids ++ [o.drafts.size])
    have hgrown := (noPlain_openNamespaces start brace o.drafts.size
      (path ++ [name].filter (!·.isEmpty)) (ids ++ [o.drafts.size]) names
      (o := (o.declare .namespaceDecl name start brace parent).1.openNamed path name
        o.drafts.size)).grows
    have hfilter : (name :: names).filter (!·.isEmpty) =
        [name].filter (!·.isEmpty) ++ names.filter (!·.isEmpty) := by
      rw [← List.filter_append, List.singleton_append]
    simp only [openNamespaces_cons, hfilter]
    refine ⟨hopened.congr fun key => ?_, hinside, ?_, o.drafts.size :: inner, ?_, ?_, ?_⟩
    · rw [opensAt_append, or_assoc]
    · rw [hnames, List.append_assoc]
    · rw [hids, List.append_assoc, List.singleton_append]
    · exact List.forall_mem_cons.2 ⟨Nat.lt_of_lt_of_le hlt hgrown.size_le, hknown⟩
    · have hsplit : o.drafts.size :: inner = [o.drafts.size] ++ inner := rfl
      rw [hsplit, namesOf_append, hinner, hgrown.namesOf (List.forall_mem_singleton.2 hlt), hname]

theorem openRecord_eq (scope : Scope) (n : Source.RecordName) (kind : CursorKind) (start : Nat)
    (parent : CursorId) (outer : Option Nat) (o : Outline) (brace : Nat) :
    Outline.openRecord scope n kind start parent outer o brace =
      (((o.declare kind n.name start brace parent).1.openNamed (scope.path ++ n.qualifier) n.name
          o.drafts.size).claim start brace o.drafts.size).enter (brace + 1)
        (.ofRecord o.drafts.size n.name
          (scope.path ++ n.qualifier ++ [n.name].filter (!·.isEmpty)))
        (.ofRecord o.drafts.size start outer) := by
  simp only [Outline.openRecord, openNamed]
  by_cases hempty : n.name.isEmpty = true
  · cases outer <;> simp [hempty, declare, Closing.ofRecord]
  · -- lexemes are claimed and scopes opened in any order
    have hclaim (o : Outline) (path : List String) (first last : Nat) (id : CursorId) :
        (o.claim first last id).openScope path n.name id =
          (o.openScope path n.name id).claim first last id := by
      simp only [Outline.openScope, claim]
      split <;> rfl
    cases outer <;> simp [hempty, declare, hclaim, Closing.ofRecord]

/-- **A class is opened**, whose head is not qualified. -/
theorem openRecord (h : o.Scoped opened frames) {n : Source.RecordName}
    (hqualifier : n.qualifier = []) (kind : CursorKind) (start : Nat) (outer : Option Nat)
    (brace : Nat) :
    let r := Outline.openRecord (scopeOf frames) n kind start (scopeOf frames).parent outer o brace
    ∃ f, r.opened = some f ∧
      r.outline.Scoped (fun name => opened name ∨
        OpensAt (o.enclosing frames) (r.outline.namesOf f.closing.ids) name) (f :: frames) := by
  obtain ⟨hg, hpath, hname, hscoped⟩ := h.declare_openNamed
    (h.parent frames (List.suffix_refl frames)) kind n.name start brace
  have hids : (Closing.ofRecord o.drafts.size start outer).ids = [o.drafts.size] := by
    cases outer <;> rfl
  simp only [openRecord_eq, h.path frames (List.suffix_refl frames), hqualifier, List.append_nil]
  refine ⟨_, rfl, ?_⟩
  generalize (o.declare kind n.name start brace (scopeOf frames).parent).1.openNamed
    (o.enclosing frames) n.name o.drafts.size = o' at *
  have henclosing := h.enclosing_grows hg (List.suffix_refl frames)
  have hclaim : (o'.claim start brace o.drafts.size).Scoped
      (fun name => opened name ∨ OpensAt (o.enclosing frames) ([n.name].filter (!·.isEmpty)) name)
      frames := hscoped.grows (.of_eq rfl) rfl
  have hnames : (o'.claim start brace o.drafts.size).namesOf [o.drafts.size] =
      [n.name].filter (!·.isEmpty) := hname
  have haround : (o'.claim start brace o.drafts.size).enclosing frames = o.enclosing frames :=
    henclosing
  simp only [enter, hids, hnames]
  refine hclaim.push ?_ ?_ ?_
  · rw [hids]
    exact List.forall_mem_singleton.2 (hpath.lt_size hscoped.pos)
  · rw [hids, hnames, haround]
    rfl
  · rw [hids, hnames, haround]
    have hgrown : o'.Grows (o'.claim start brace o.drafts.size) := .of_eq rfl
    exact hpath.of_drafts hgrown.drafts

/-- A block that is no scope of its own is entered. -/
theorem readLinkage (h : o.Scoped opened frames) (start brace : Nat) :
    let r := o.readLinkage (scopeOf frames) start brace
    ∃ f, r.opened = some f ∧
      r.outline.Scoped (fun name => opened name ∨
        OpensAt (o.enclosing frames) (r.outline.namesOf f.closing.ids) name) (f :: frames) := by
  have hd : o.Grows (o.readLinkage (scopeOf frames) start brace).outline :=
    (grows_declare o .unexposedDecl "" start brace (scopeOf frames).parent).trans (.of_eq rfl)
  have hdraft := draft_declare o .unexposedDecl "" start brace (scopeOf frames).parent
  have hnames : (o.readLinkage (scopeOf frames) start brace).outline.namesOf [o.drafts.size] = [] :=
    namesOf_singleton hdraft
  have hscoped : (o.readLinkage (scopeOf frames) start brace).outline.Scoped opened frames :=
    h.grows hd rfl
  refine ⟨⟨(scopeOf frames).ownedBy o.drafts.size, .linkage o.drafts.size start⟩, rfl, ?_⟩
  have hnone : (o.readLinkage (scopeOf frames) start brace).outline.namesOf
      (Closing.linkage o.drafts.size start).ids = [] := hnames
  simp only [hnone]
  refine (hscoped.push (List.forall_mem_singleton.2 ?_) ?_ ?_).congr fun name =>
    (or_iff_left (opensAt_nil _ name)).symm
  · exact (Array.getElem?_eq_some_iff.1 hdraft).1
  · rw [hnone, List.append_nil]
    exact hscoped.path frames (List.suffix_refl frames)
  · rw [hnone, List.append_nil]
    exact hscoped.parent frames (List.suffix_refl frames)

/-- **What reading a declaration does to scopes**: none is opened, or those of the block that is
entered. -/
theorem does {s : Source} {start : Nat} {l : Lead} {out : Outcome}
    (h : l.outline.Scoped opened frames) (hdoes : l.Does s (scopeOf frames) start out)
    (hclass : out.opened ≠ none → ∀ key, l.classKey? s start = some key →
      (s.recordHead l.outline.macros (key + 1)).1.qualifier = []) :
    (out.opened = none ∧ out.outline.Scoped opened frames) ∨
      ∃ f, out.opened = some f ∧
        out.outline.Scoped (fun name => opened name ∨
          OpensAt (l.outline.enclosing frames) (out.outline.namesOf f.closing.ids) name)
          (f :: frames) := by
  have hpath := h.path frames (List.suffix_refl frames)
  cases hdoes with
  | passes silent => exact .inl ⟨rfl, h.grows silent.grows silent.scopes⟩
  | names plain name drafts scopes isPlain =>
    exact .inl ⟨rfl, (h.grows (.of_eq drafts) scopes).grows
      ((grows_declare ..).trans (.of_eq rfl)) rfl⟩
  | linkage => exact .inr (h.readLinkage ..)
  | @namespaces o brace names silent =>
    have ho := h.grows silent.grows silent.scopes
    have hsame := h.enclosing_grows silent.grows (List.suffix_refl frames)
    obtain ⟨hopened, hinside, hnames, inner, hids, hknown, hinner⟩ :=
      ho.openNamespaces (ho.parent frames (List.suffix_refl frames)) start brace [] names
    rw [hsame] at hopened hinside hnames hids hknown hinner
    have hgrown := (noPlain_openNamespaces start brace (scopeOf frames).parent
      (l.outline.enclosing frames) [] names (o := o)).grows
    rw [hpath]
    generalize Outline.openNamespaces start brace (scopeOf frames).parent
      (l.outline.enclosing frames) [] names o = r at *
    rw [List.nil_append] at hids
    have hclaim : r.1.Grows (r.1.claim start brace r.2.2.1) := .of_eq rfl
    have hids' : (r.1.claim start brace r.2.2.1).namesOf (Closing.namespaces r.2.1 start).ids =
        names.filter (!·.isEmpty) := by
      rw [← hinner, ← hids]
      rfl
    have haround : (r.1.claim start brace r.2.2.1).enclosing frames = l.outline.enclosing frames :=
      h.enclosing_grows ((silent.grows.trans hgrown).trans hclaim) (List.suffix_refl frames)
    refine .inr ⟨_, rfl, ?_⟩
    simp only [enter, hids']
    refine (hopened.grows hclaim rfl).push ?_ ?_ ?_
    · rw [← hids] at hknown
      exact hknown
    · rw [hids', haround]
      exact hnames
    · rw [hids', haround, ← hnames]
      exact hinside.of_drafts hclaim.drafts
  | @record o key first brace n kind outer silent isPlain classKey head =>
    have ho := h.grows silent.grows silent.scopes
    have hsame := h.enclosing_grows silent.grows (List.suffix_refl frames)
    have hqualifier : n.qualifier = [] := by
      obtain ⟨f, hf⟩ := opened_openRecord (scopeOf frames) n kind first
        ((l.outline.resolve (scopeOf frames).path n.qualifier).getD (scopeOf frames).parent)
        outer o brace
      have hnone := hclass (by rw [hf]; exact Option.some_ne_none f) key classKey
      rwa [head] at hnone
    have hparent : (l.outline.resolve (scopeOf frames).path n.qualifier).getD
        (scopeOf frames).parent = (scopeOf frames).parent := by
      rw [hqualifier]
      rfl
    obtain ⟨f, hf, hscoped⟩ := ho.openRecord hqualifier kind first outer brace
    rw [hsame] at hscoped
    rw [hparent]
    exact .inr ⟨f, hf, hscoped⟩

end Scoped

end Outline

end DocIndex
