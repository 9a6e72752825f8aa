import DocIndex.Proofs.Body.Text
import DocIndex.Proofs.Printed.Unit
import DocIndex.Proofs.Progress.Whole
import DocIndex.Proofs.Scopes.Paths

/-!
# What qualified names mean

A function or a variable that is declared outside of its scope is named by a qualifier. It belongs
to the innermost scope that the qualifier may mean, among those that have been opened in front of
it, and to the block in which it stands if there is none.

* `Reading.Opens`, `Opened` — the full names of the scopes that a step opens, and those that have
  been opened on the way.
* `scoped_step`, `scoped_comes` — one step, and reading on: what is found by name is what has been
  opened.
* `SourceUnit.scopePath_of_innermost` — **the path of a function or a variable is what its qualifier
  means.**
-/

namespace DocIndex

namespace Reading

/-- The names of the scopes around what is read next, from the outside in. -/
def enclosing (r : Reading) : List String :=
  r.outline.enclosing r.frames

/-- What is read next opens a scope of this full name. -/
def Opens (s : Source) (r : Reading) (name : String) : Prop :=
  ∃ f, (Outline.step s r.outline r.frames r.next).frames = f :: r.frames ∧
    OpensAt r.enclosing
      ((Outline.step s r.outline r.frames r.next).outline.namesOf f.closing.ids) name

/-- The qualifier in the head of the class whose body is entered next. -/
def classQualifier (s : Source) (r : Reading) : List String :=
  if r.frames.length < (Outline.step s r.outline r.frames r.next).frames.length then
    ((r.lead s).classKey? s r.next).elim [] fun key =>
      (s.recordHead (r.lead s).outline.macros (key + 1)).1.qualifier
  else []

/-- The name of the function or the variable that is read next, if it is one. -/
def named? (s : Source) (r : Reading) : Option Nat :=
  if r.next < s.size ∧ Outline.startsDeclaration s r.next = true then
    ((r.lead s).plainAt? s r.next).bind fun j => (s.shape (r.lead s).outline.macros j).name
  else none

/-- The cursor that it gets. -/
def cursor (s : Source) (r : Reading) : CursorId :=
  (r.lead s).outline.drafts.size

end Reading

/-- While reading came from one place to another a scope of this full name was opened. -/
inductive Opened (s : Source) : Reading → Reading → String → Prop
  | now {r r' : Reading} {name : String} (lt : r.next < s.size) (opens : r.Opens s name)
      (comes : Outline.Comes s (Outline.step s r.outline r.frames r.next) r') : Opened s r r' name
  | later {r r' : Reading} {name : String} (lt : r.next < s.size)
      (opened : Opened s (Outline.step s r.outline r.frames r.next) r' name) : Opened s r r' name

namespace Outline

open Source

variable {s : Source} {r r' : Reading} {opened : String → Prop}

theorem opens_iff {f : Frame}
    (hframes : (step s r.outline r.frames r.next).frames = f :: r.frames) (name : String) :
    r.Opens s name ↔ OpensAt r.enclosing
      ((step s r.outline r.frames r.next).outline.namesOf f.closing.ids) name := by
  constructor
  · rintro ⟨f', hf', hopens⟩
    obtain ⟨rfl, -⟩ := List.cons.inj (hframes.symm.trans hf')
    exact hopens
  · exact fun hopens => ⟨f, hframes, hopens⟩

theorem not_opens (hframes : (step s r.outline r.frames r.next).frames <:+ r.frames)
    (name : String) : ¬ r.Opens s name := by
  rintro ⟨f, hf, -⟩
  have hle := hframes.length_le
  rw [hf, List.length_cons] at hle
  omega

/-- **A step opens the scopes that are found by name behind it.** -/
theorem scoped_step (h : r.outline.Scoped opened r.frames) (hclass : r.classQualifier s = []) :
    (step s r.outline r.frames r.next).outline.Scoped (fun name => opened name ∨ r.Opens s name)
      (step s r.outline r.frames r.next).frames := by
  rcases step_does s r with ⟨hsilent, hsuffix⟩ | ⟨-, out, hdoes, hstep⟩
  · exact ((h.grows hsilent.grows hsilent.scopes).suffix hsuffix).congr fun name =>
      (or_iff_left (not_opens hsuffix name)).symm
  have hlead := silent_lead s r
  have haround := h.enclosing_grows hlead.grows (List.suffix_refl r.frames)
  have hunqualified : out.opened ≠ none → ∀ key, (r.lead s).classKey? s r.next = some key →
      (s.recordHead (r.lead s).outline.macros (key + 1)).1.qualifier = [] := by
    intro hopened key hkey
    obtain ⟨f, hf⟩ := Option.ne_none_iff_exists'.1 hopened
    have hdeeper : r.frames.length < (step s r.outline r.frames r.next).frames.length := by
      rw [hstep, hf]
      exact Nat.lt_succ_self _
    rw [Reading.classQualifier, if_pos hdeeper, hkey] at hclass
    exact hclass
  rcases (h.grows hlead.grows hlead.scopes).does hdoes hunqualified with
    ⟨hopened, hscoped⟩ | ⟨f, hopened, hscoped⟩
  · have hframes : (step s r.outline r.frames r.next).frames = r.frames := by
      rw [hstep, hopened]
      rfl
    have houtline : (step s r.outline r.frames r.next).outline = out.outline := by rw [hstep]
    have hleft : (step s r.outline r.frames r.next).frames <:+ r.frames := by simp [hframes]
    rw [hframes, houtline]
    exact hscoped.congr fun name => (or_iff_left (not_opens hleft name)).symm
  · have hframes : (step s r.outline r.frames r.next).frames = f :: r.frames := by
      rw [hstep, hopened]
      rfl
    have houtline : (step s r.outline r.frames r.next).outline = out.outline := by rw [hstep]
    rw [haround] at hscoped
    rw [hframes, houtline]
    refine hscoped.congr fun name => or_congr_right ?_
    rw [opens_iff hframes, houtline]
    rfl

theorem lt_of_opened {name : String} (h : Opened s r r' name) : r.next < r'.next := by
  induction h with
  | now hlt _ hcomes => exact Nat.lt_of_lt_of_le (lt_next_step _ _ hlt) (le_of_comes hcomes)
  | later hlt _ ih => exact Nat.lt_trans (lt_next_step _ _ hlt) ih

/-- **The scopes that are found by name are those that have been opened**, wherever reading has
come. -/
theorem scoped_comes (hcomes : Comes s r r') (h : r.outline.Scoped opened r.frames)
    (hclass : ∀ r₁, Comes s r r₁ → r₁.classQualifier s = []) :
    r'.outline.Scoped (fun name => opened name ∨ Opened s r r' name) r'.frames := by
  induction hcomes generalizing opened with
  | refl r =>
    refine h.congr fun name => (or_iff_left fun hopened => ?_).symm
    exact Nat.lt_irrefl _ (lt_of_opened hopened)
  | @step r r' hlt hcomes ih =>
    have hstep := scoped_step h (hclass r (.refl r))
    refine (ih hstep fun r₁ hr₁ => hclass r₁ (.step hlt hr₁)).congr fun name => ?_
    rw [or_assoc]
    refine or_congr_right ⟨?_, ?_⟩
    · rintro (hopens | hopened)
      · exact .now hlt hopens hcomes
      · exact .later hlt hopened
    · intro hopened
      cases hopened with
      | now _ hopens _ => exact .inl hopens
      | later _ hopened => exact .inr hopened

/-- Nothing has been opened in front of a text. -/
theorem scoped_first (fileName : String) (macros : Macros) (s : Source) :
    (Reading.first fileName macros s).outline.Scoped (fun _ => False) [] where
  pos := Nat.one_pos
  known f hf := nomatch hf
  path around hsuffix := by
    rw [List.suffix_nil.1 hsuffix]
    rfl
  parent around hsuffix := by
    rw [List.suffix_nil.1 hsuffix]
    exact .file
  found name id hid := nomatch hid
  opened name := by simp [Reading.first, start]

/-! ## Functions and variables -/

theorem named?_eq_some {n : Nat} :
    r.named? s = some n ↔ (r.next < s.size ∧ startsDeclaration s r.next = true) ∧
      ∃ j, (r.lead s).plainAt? s r.next = some j ∧
        (s.shape (r.lead s).outline.macros j).name = some n := by
  rw [Reading.named?]
  split
  · rename_i hstarts
    rw [Option.bind_eq_some_iff]
    exact ⟨fun h => ⟨hstarts, h⟩, And.right⟩
  · rename_i hstarts
    exact ⟨nofun, fun h => absurd h.1 hstarts⟩

/-- **The cursor of a function or a variable lies where its qualifier means.** -/
theorem step_named (h : r.outline.Scoped opened r.frames) {n : Nat} (hn : r.named? s = some n) :
    ∃ d p path path', (step s r.outline r.frames r.next).outline.drafts[r.cursor s]? = some d ∧
      d.kind.isPlain = true ∧ d.parent = some p ∧ p < r.cursor s ∧
        Innermost opened r.enclosing (s.qualifierOf n) path ∧
          (step s r.outline r.frames r.next).outline.Path p path' ∧
            "::".intercalate path' = "::".intercalate path := by
  have hlead := silent_lead s r
  have hl := h.grows hlead.grows hlead.scopes
  have haround : (r.lead s).outline.enclosing r.frames = r.enclosing :=
    h.enclosing_grows hlead.grows (List.suffix_refl r.frames)
  obtain ⟨⟨-, hstarts⟩, j, hplain, hname⟩ := named?_eq_some.1 hn
  obtain ⟨notes, hread⟩ := Lead.read_plainAt (scopeOf r.frames) hplain
  obtain ⟨o, kind, spelling, last, next, hdrafts, hscopes, hkind, hread'⟩ :=
    Lead.readPlain_named (show (s.shape ((r.lead s).outline.note notes).macros j).name = some n from
      hname) (scopeOf r.frames) r.next ((r.lead s).isTemplate s r.next)
  have ho : o.Scoped opened r.frames := hl.grows (.of_eq hdrafts) hscopes
  have hid : o.drafts.size = r.cursor s := congrArg Array.size hdrafts
  have hsame : o.enclosing r.frames = r.enclosing :=
    (hl.enclosing_grows (.of_eq hdrafts) (List.suffix_refl r.frames)).trans haround
  obtain ⟨path, path', hinner, hpath, hnames⟩ := ho.resolve (s.qualifierOf n)
  rw [← ho.path r.frames (List.suffix_refl r.frames)] at hpath
  rw [hsame] at hinner
  rw [step_lead hstarts, hread, hread']
  generalize (o.resolve (scopeOf r.frames).path (s.qualifierOf n)).getD
    (scopeOf r.frames).parent = parent at *
  have hgrown : o.Grows (o.add kind spelling r.next last parent) :=
    (grows_declare ..).trans (.of_eq rfl)
  have hdraft : (o.add kind spelling r.next last parent).drafts[r.cursor s]? =
      some ⟨kind, spelling, r.next, max last r.next, some parent⟩ := by
    rw [← hid]
    exact (Laid.getElem?_declare o.drafts.size).trans (if_pos rfl)
  refine ⟨_, parent, path, path', hdraft, hkind, rfl, ?_, hinner, hpath.of_drafts hgrown.drafts,
    hnames⟩
  rw [← hid]
  exact hpath.lt_size ho.pos

/-- A function or a variable that a step adds is the one that is read. -/
theorem named_of_step (hlt : r.next < s.size) {id : CursorId} {d : Draft}
    (hd : (step s r.outline r.frames r.next).outline.drafts[id]? = some d)
    (hkind : d.kind.isPlain = true) :
    id < r.outline.drafts.size ∨ (id = r.cursor s ∧ ∃ n, r.named? s = some n) := by
  rcases step_does s r with ⟨hsilent, -⟩ | ⟨hstarts, out, hdoes, hstep⟩
  · exact .inl (hsilent.noPlain.plain id d hd hkind)
  have hlead := (silent_lead s r).noPlain
  rw [hstep] at hd
  rcases hdoes.noPlain with hplain | ⟨j, n, o, kind, spelling, last, hplain, hname, hdrafts, hout⟩
  · exact .inl ((hlead.trans hplain).plain id d hd hkind)
  · simp only [hout] at hd
    replace hd := (Laid.getElem?_declare id).symm.trans hd
    split at hd
    · rename_i hid
      refine .inr ⟨hid.trans (congrArg Array.size hdrafts), n, ?_⟩
      exact named?_eq_some.2 ⟨⟨hlt, hstarts⟩, j, hplain, hname⟩
    · rw [hdrafts] at hd
      exact .inl (hlead.plain id d hd hkind)

/-- Every function and every variable has been read on the way. -/
theorem named_of_comes (hcomes : Comes s r r') {id : CursorId} {d : Draft}
    (hd : r'.outline.drafts[id]? = some d) (hkind : d.kind.isPlain = true) :
    id < r.outline.drafts.size ∨
      ∃ r₁ n, Comes s r r₁ ∧ r₁.named? s = some n ∧ id = r₁.cursor s := by
  induction hcomes with
  | refl r => exact .inl (Array.getElem?_eq_some_iff.1 hd).1
  | @step r r' hlt hcomes ih =>
    rcases ih hd with hid | ⟨r₁, n, hr₁, hn, hid⟩
    · -- the cursor is there after the first step
      obtain ⟨last, hlast⟩ := (grows_comes hcomes).drafts id _ (Array.getElem?_eq_getElem hid)
      obtain rfl := Option.some.inj (hd.symm.trans hlast)
      rcases named_of_step hlt (Array.getElem?_eq_getElem hid) hkind with hid | ⟨hid, n, hn⟩
      · exact .inl hid
      · exact .inr ⟨r, n, .refl r, hn, hid⟩
    · exact .inr ⟨r₁, n, .step hlt hr₁, hn, hid⟩

theorem grows_readFrom (s : Source) (r : Reading) :
    r.outline.Grows (readFrom s r.outline r.frames r.next) := by
  obtain ⟨r', hcomes, -, hread⟩ := exists_comes (s := s) r
  rw [hread]
  exact (grows_comes hcomes).trans (silent_closeAll r'.frames r'.outline r'.next).grows

/-- A cursor of a text, from where reading has declared it. -/
theorem grows_ofSource {fileName : String} {macros : Macros}
    (hcomes : Comes s (.first fileName macros s) r) :
    r.outline.Grows (ofSource fileName macros s) := by
  have hread := readFrom_comes hcomes
  rw [ofSource]
  exact hread ▸ grows_readFrom s r

/-- All functions and variables of a text are declared while it is read. -/
theorem named_of_ofSource {fileName : String} {macros : Macros} {id : CursorId} {d : Draft}
    (hd : (ofSource fileName macros s).drafts[id]? = some d) (hkind : d.kind.isPlain = true) :
    ∃ r n, Comes s (.first fileName macros s) r ∧ r.named? s = some n ∧ id = r.cursor s := by
  obtain ⟨r', hcomes, -, hread⟩ := exists_comes (s := s) (.first fileName macros s)
  have hclose := (silent_closeAll (s := s) r'.frames r'.outline r'.next).noPlain
  rw [← hread] at hclose
  have hlt := hclose.plain id d hd hkind
  obtain ⟨last, hlast⟩ := hclose.grows.drafts id _ (Array.getElem?_eq_getElem hlt)
  obtain rfl := Option.some.inj (hd.symm.trans hlast)
  rcases named_of_comes hcomes (Array.getElem?_eq_getElem hlt) hkind with hfile | hnamed
  · -- only the file itself is there from the beginning
    obtain rfl : id = 0 := Nat.lt_one_iff.1 hfile
    obtain ⟨last', hfile'⟩ := (grows_comes hcomes).drafts 0 _ rfl
    obtain hsame := Option.some.inj ((Array.getElem?_eq_getElem hlt).symm.trans hfile')
    have hkind' : r'.outline.drafts[0].kind.isPlain = true := hkind
    rw [hsame] at hkind'
    cases hkind'
  · exact hnamed

end Outline

/-! ## Whole texts -/

namespace SourceUnit

open Outline Source

theorem kind_unitOf (s : Source) (path : Path) (faults : List (Nat × LexFault)) (o : Outline)
    (id : CursorId) :
    (s.unitOf path faults o).cursors[id]?.map Cursor.kind = o.drafts[id]?.map Draft.kind := by
  simp only [unitOf, cursorsOf, Array.getElem?_mapIdx, Option.map_map]
  refine congrArg (fun f => Option.map f o.drafts[id]?) (funext fun d => ?_)
  simp only [Function.comp_apply]
  split <;> rfl

/-- **The path of a function or a variable is what its qualifier means** where it is declared: that
of the innermost scope of those that have been opened in front of it, if no class is opened by a
qualified name; and all functions and variables are declared so. -/
theorem scopePath_of_innermost (path : Path) (args : List String) (cs : List Char)
    (hclasses : ∀ r, Comes (ofText cs)
      (.first path.text (Macros.ofArguments args) (ofText cs)) r →
        r.classQualifier (ofText cs) = []) :
    let s := ofText cs
    let first := Reading.first path.text (Macros.ofArguments args) s
    let u := parseText path cs args
    (∀ r n, Comes s first r → r.named? s = some n →
        ∃ c names, u.cursors[r.cursor s]? = some c ∧ c.kind.isPlain = true ∧
          Innermost (Opened s first r) r.enclosing (s.qualifierOf n) names ∧
            u.scopePath (r.cursor s) = "::".intercalate names) ∧
      ∀ id c, u.cursors[id]? = some c → c.kind.isPlain = true →
        ∃ r n, Comes s first r ∧ r.named? s = some n ∧ id = r.cursor s := by
  intro s first u
  have hkinds (id : CursorId) : u.cursors[id]?.map Cursor.kind =
      (ofSource path.text (Macros.ofArguments args) s).drafts[id]?.map Draft.kind :=
    kind_unitOf ..
  have hfirst := scoped_first path.text (Macros.ofArguments args) s
  constructor
  · intro r n hcomes hn
    have hscoped : r.outline.Scoped (Opened s first r) r.frames :=
      (scoped_comes hcomes hfirst hclasses).congr fun name => by rw [false_or]
    obtain ⟨d, p, names, names', hd, hkind, hparent, hlt, hinner, hpath, hnames⟩ :=
      step_named hscoped hn
    -- the cursor and the scopes around it stay to the end of the text
    have hstep : Comes s first (step s r.outline r.frames r.next) :=
      hcomes.trans (.step (named?_eq_some.1 hn).1.1 (.refl _))
    have hgrown := grows_ofSource hstep
    obtain ⟨last, hd'⟩ := hgrown.drafts _ d hd
    have hcursor := hkinds (r.cursor s)
    rw [hd', Option.map_some, Option.map_eq_some_iff] at hcursor
    obtain ⟨c, hc, hck⟩ := hcursor
    refine ⟨c, names, hc, ?_, hinner, ?_⟩
    · rw [hck]
      exact hkind
    · rw [← hnames]
      exact Printed.scopePath_of_path s path _ hd' hparent hlt (hpath.of_drafts hgrown.drafts)
  · intro id c hc hkind
    have hdraft := hkinds id
    rw [hc, Option.map_some] at hdraft
    obtain ⟨d, hd, hdk⟩ := Option.map_eq_some_iff.1 hdraft.symm
    exact named_of_ofSource hd (hdk ▸ hkind)

/-- Two classes of one name, and behind the inner one a variable that is qualified by it. -/
def twoClasses : List Char :=
  "struct S \x7b\x7d;\nnamespace a \x7b\nstruct S \x7b\x7d;\nint S::x;\n\x7d\n".toList

/-- The variable belongs to the inner class. -/
theorem scopePath_innerClass : ∃ (r : Reading) (n : Nat) (names : List String),
    Comes (ofText twoClasses) (.first "t.hxx" [] (ofText twoClasses)) r ∧
      r.named? (ofText twoClasses) = some n ∧
        Innermost (Opened (ofText twoClasses) (.first "t.hxx" [] (ofText twoClasses)) r)
          r.enclosing ((ofText twoClasses).qualifierOf n) names ∧
          (parseText ⟨"t.hxx"⟩ twoClasses []).scopePath 4 = "::".intercalate names ∧
            (parseText ⟨"t.hxx"⟩ twoClasses []).scopePath 4 = "a::S" := by
  -- both classes, the namespace, the variable and the three braces
  have hclasses : ∀ r, Comes (ofText twoClasses) (.first "t.hxx" [] (ofText twoClasses)) r →
      r.classQualifier (ofText twoClasses) = [] := by
    refine comes_all ?_ fun _ => comes_all ?_ fun _ => comes_all ?_ fun _ => comes_all ?_ fun _ =>
      comes_all ?_ fun _ => comes_all ?_ fun _ => comes_all ?_ fun _ => comes_all ?_ fun hlt => ?_
    any_goals decide +kernel
    exact absurd hlt (by decide +kernel)
  obtain ⟨hall, hplain⟩ := scopePath_of_innermost ⟨"t.hxx"⟩ [] twoClasses hclasses
  obtain ⟨c, hc, hkind⟩ := Option.map_eq_some_iff.1
    (show (parseText ⟨"t.hxx"⟩ twoClasses []).cursors[4]?.map Cursor.kind = some .varDecl by
      decide +kernel)
  obtain ⟨r, n, hcomes, hn, hid⟩ := hplain 4 c hc (by rw [hkind]; decide)
  obtain ⟨-, names, -, -, hinner, hpath⟩ := hall r n hcomes hn
  rw [← hid] at hpath
  exact ⟨r, n, names, hcomes, hn, hinner, hpath, by decide +kernel⟩

end SourceUnit

end DocIndex
