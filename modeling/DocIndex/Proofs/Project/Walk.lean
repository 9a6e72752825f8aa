import DocIndex.Project.Walk
import DocIndex.Proofs.Disk
import DocIndex.Proofs.Path

/-!
# Which files are watched

A walk passes over a directory that is ignored with all that is in it. So a file below the root of a
project is watched exactly if none of the paths on the way to it is ignored, itself included, and it
is not ignored as a file and is taken. Files come in the order of their paths, each of them once.

* `Node.Regular` — what a tree on disk is like; `Node.FileAt` — a file at the end of some names.
* `Filters.mem_select` — what a walk selects; `Filters.select_distinct` — nothing twice.
* `Matches` — a set of patterns accepts the last name of a way, or the way.
* `Glob.patternSet_eq_true_iff` — what a set of patterns accepts here.
* `watched_iff` — **all of it together, whatever sets of patterns mean.**
-/

namespace DocIndex

namespace Node

variable {n c : Node} {name : String} {way : List String} {entries : List (String × Node)}

/-- No directory has two entries of one name, and each is called what an entry may be called. -/
inductive Regular : Node → Prop
  | file (bytes : List UInt8) (modified : Timestamp) : Regular (.file bytes modified)
  | directory {entries : List (String × Node)} (distinct : (entries.map Prod.fst).Nodup)
      (named : ∀ e ∈ entries, Path.IsName e.1) (below : ∀ e ∈ entries, Regular e.2) :
      Regular (.directory entries)

/-- There is a file at the end of some names. -/
def FileAt (n : Node) (way : List String) : Prop :=
  ∃ bytes modified, n.at? way.reverse = some (.file bytes modified)

theorem fileAt_nil : n.FileAt [] ↔ n.isDirectory = false := by
  cases n with
  | file bytes modified => exact ⟨fun _ => rfl, fun _ => ⟨bytes, modified, rfl⟩⟩
  | directory entries =>
    constructor
    · rintro ⟨bytes, modified, h⟩
      cases h
    · intro h
      cases h

theorem fileAt_cons : n.FileAt (name :: way) ↔ ∃ c, n.child? name = some c ∧ c.FileAt way := by
  have hat : n.at? (name :: way).reverse = (n.child? name).bind (·.at? way.reverse) := by
    rw [List.reverse_cons, at?_append]
    rfl
  unfold FileAt
  rw [hat]
  simp only [Option.bind_eq_some_iff]
  constructor
  · rintro ⟨bytes, modified, c, hc, h⟩
    exact ⟨c, hc, bytes, modified, h⟩
  · rintro ⟨c, hc, bytes, modified, h⟩
    exact ⟨bytes, modified, c, hc, h⟩

theorem child?_eq_some_iff (h : (entries.map Prod.fst).Nodup) :
    (directory entries).child? name = some c ↔ (name, c) ∈ entries := by
  induction entries with
  | nil => simp [child?]
  | cons e entries ih =>
    rw [List.map_cons, List.nodup_cons] at h
    have hcons : (directory (e :: entries)).child? name =
        if e.1 = name then some e.2 else (directory entries).child? name := by
      simp only [child?, List.find?_cons]
      by_cases he : e.1 = name
      · rw [if_pos he, beq_iff_eq.2 he]
        rfl
      · rw [if_neg he, beq_eq_false_iff_ne.2 he]
    rw [hcons, List.mem_cons]
    by_cases he : e.1 = name
    · subst he
      have hnot (c : Node) : (e.1, c) ∉ entries := fun hc => h.1 (List.mem_map.2 ⟨_, hc, rfl⟩)
      rw [if_pos rfl, or_iff_left (hnot c), Option.some.injEq]
      exact ⟨fun hc => Prod.ext rfl hc.symm, fun hc => (congrArg Prod.snd hc).symm⟩
    · have hne : (name, c) ≠ e := fun hc => he (congrArg Prod.fst hc).symm
      rw [if_neg he, ih h.2, or_iff_right hne]

theorem fileAt_file {bytes : List UInt8} {modified : Timestamp} :
    (file bytes modified).FileAt way ↔ way = [] := by
  cases way with
  | nil => simp [fileAt_nil, isDirectory]
  | cons name way => simp [fileAt_cons, child?]

/-- A way through a directory starts with one of its entries. -/
theorem fileAt_directory (h : (entries.map Prod.fst).Nodup) :
    (directory entries).FileAt way ↔
      ∃ e ∈ entries, ∃ rest, way = e.1 :: rest ∧ e.2.FileAt rest := by
  cases way with
  | nil => simp [fileAt_nil, isDirectory]
  | cons name way =>
    rw [fileAt_cons]
    simp only [child?_eq_some_iff h, List.cons.injEq]
    constructor
    · rintro ⟨c, hc, hf⟩
      exact ⟨(name, c), hc, way, ⟨rfl, rfl⟩, hf⟩
    · rintro ⟨e, he, rest, ⟨rfl, rfl⟩, hf⟩
      exact ⟨e.2, he, hf⟩

/-- All names on the way to a file are names of entries. -/
theorem Regular.isName (h : n.Regular) (hf : n.FileAt way) : ∀ name ∈ way, Path.IsName name := by
  induction h generalizing way with
  | file bytes modified =>
    cases way with
    | nil => exact nofun
    | cons name way =>
      obtain ⟨c, hc, -⟩ := fileAt_cons.1 hf
      cases hc
  | directory distinct named below ih =>
    obtain ⟨e, he, rest, rfl, hrest⟩ := (fileAt_directory distinct).1 hf
    exact List.forall_mem_cons.2 ⟨named e he, ih e he hrest⟩

end Node

namespace Filters

variable (f : Filters) {p path directory : Path} {n : Node} {name : String} {way : List String}
  {entries : List (String × Node)}

/-! ## What is selected -/

/-- No path on a way is passed over, the first and the last one included, and what is at its end is
taken. -/
structure Admits (path : Path) (way : List String) : Prop where
  spared : ∀ front, front <+: way → f.ignores (path.below front) = false
  listed : f.ignoresFile (path.below way) = false
  taken : f.takes (path.below way) = true

theorem admits_nil : f.Admits path [] ↔
    f.ignores path = false ∧ f.ignoresFile path = false ∧ f.takes path = true := by
  constructor
  · rintro ⟨hspared, hlisted, htaken⟩
    exact ⟨hspared [] List.prefix_rfl, hlisted, htaken⟩
  · rintro ⟨hpath, hlisted, htaken⟩
    refine ⟨fun front hfront => ?_, hlisted, htaken⟩
    rw [List.prefix_nil.1 hfront]
    exact hpath

theorem admits_cons :
    f.Admits path (name :: way) ↔ f.ignores path = false ∧ f.Admits (path.join ⟨name⟩) way := by
  constructor
  · rintro ⟨hspared, hlisted, htaken⟩
    refine ⟨hspared [] List.nil_prefix, fun front hfront => ?_, hlisted, htaken⟩
    exact hspared (name :: front) (List.cons_prefix_cons.2 ⟨rfl, hfront⟩)
  · rintro ⟨hpath, hspared, hlisted, htaken⟩
    refine ⟨fun front hfront => ?_, hlisted, htaken⟩
    rcases List.prefix_cons_iff.1 hfront with rfl | ⟨rest, rfl, hrest⟩
    · exact hpath
    · exact hspared rest hrest

theorem select_eq_flatMap :
    f.select directory entries =
      entries.flatMap fun e => f.selectAt (directory.join ⟨e.1⟩) e.2 := by
  induction entries with
  | nil => rw [select, List.flatMap_nil]
  | cons e entries ih => rw [select, List.flatMap_cons, ih]

/-- **At and below a path, the files are selected to which an admitted way leads.** -/
theorem mem_selectAt (h : n.Regular) :
    p ∈ f.selectAt path n ↔ ∃ way, n.FileAt way ∧ p = path.below way ∧ f.Admits path way := by
  induction h generalizing path with
  | file bytes modified =>
    simp only [Node.fileAt_file, exists_eq_left, admits_nil]
    rw [selectAt]
    cases f.ignores path <;> cases f.ignoresFile path <;> cases f.takes path <;>
      simp [Path.below]
  | @directory entries distinct named below ih =>
    rw [selectAt]
    cases hpath : f.ignores path with
    | true =>
      rw [if_pos rfl]
      -- the way to the directory is a front of all ways through it
      refine iff_of_false List.not_mem_nil ?_
      rintro ⟨way, -, -, hadmits⟩
      have hspared : f.ignores path = false := hadmits.spared [] List.nil_prefix
      rw [hpath] at hspared
      cases hspared
    | false =>
      simp only [Bool.false_eq_true, if_false, select_eq_flatMap, List.mem_flatMap]
      constructor
      · rintro ⟨e, he, hp⟩
        obtain ⟨rest, hf, rfl, hadmits⟩ := (ih e he).1 hp
        exact ⟨e.1 :: rest, (Node.fileAt_directory distinct).2 ⟨e, he, rest, rfl, hf⟩, rfl,
          f.admits_cons.2 ⟨hpath, hadmits⟩⟩
      · rintro ⟨way, hf, rfl, hadmits⟩
        obtain ⟨e, he, rest, rfl, hrest⟩ := (Node.fileAt_directory distinct).1 hf
        exact ⟨e, he, (ih e he).2 ⟨rest, hrest, rfl, (f.admits_cons.1 hadmits).2⟩⟩

/-- **Below a directory, the files are selected to which a way leads on which nothing is passed
over.** The directory itself is not asked for. -/
theorem mem_select (h : (Node.directory entries).Regular) :
    p ∈ f.select path entries ↔
      ∃ way, (Node.directory entries).FileAt way ∧ p = path.below way ∧
        (∀ front, front ≠ [] → front <+: way → f.ignores (path.below front) = false) ∧
          f.ignoresFile (path.below way) = false ∧ f.takes (path.below way) = true := by
  cases h with
  | directory distinct named below =>
    simp only [select_eq_flatMap, List.mem_flatMap]
    constructor
    · rintro ⟨e, he, hp⟩
      obtain ⟨rest, hf, rfl, hspared, hlisted, htaken⟩ := (f.mem_selectAt (below e he)).1 hp
      refine ⟨e.1 :: rest, (Node.fileAt_directory distinct).2 ⟨e, he, rest, rfl, hf⟩, rfl,
        fun front hne hfront => ?_, hlisted, htaken⟩
      obtain hnil | ⟨front', rfl, hfront'⟩ := List.prefix_cons_iff.1 hfront
      · exact absurd hnil hne
      · exact hspared front' hfront'
    · rintro ⟨way, hf, rfl, hspared, hlisted, htaken⟩
      obtain ⟨e, he, rest, rfl, hrest⟩ := (Node.fileAt_directory distinct).1 hf
      refine ⟨e, he, (f.mem_selectAt (below e he)).2 ⟨rest, hrest, rfl, ?_, hlisted, htaken⟩⟩
      intro front hfront
      exact hspared (e.1 :: front) (List.cons_ne_nil _ _) (List.cons_prefix_cons.2 ⟨rfl, hfront⟩)

/-! ## Nothing is selected twice -/

theorem components_of_mem_selectAt (h : n.Regular) (hname : Path.IsName name)
    (hpath : path.text ≠ "") (hp : p ∈ f.selectAt (path.join ⟨name⟩) n) :
    ∃ rest, p.components = path.components ++ .named name :: rest := by
  obtain ⟨way, hf, rfl, -⟩ := (f.mem_selectAt h).1 hp
  refine ⟨way.map .named, ?_⟩
  rw [← Path.below_cons, Path.components_below hpath (List.forall_mem_cons.2 ⟨hname, h.isName hf⟩),
    List.map_cons]

/-- No file is selected below two entries: where the names of these stand, the paths differ. -/
theorem pairwise_select (h : (Node.directory entries).Regular) (hpath : path.text ≠ "")
    (hat : ∀ e ∈ entries, (f.selectAt (path.join ⟨e.1⟩) e.2).Pairwise
      fun p q => p.components ≠ q.components) :
    (f.select path entries).Pairwise fun p q => p.components ≠ q.components := by
  cases h with
  | directory distinct named below =>
    rw [select_eq_flatMap, List.pairwise_flatMap]
    refine ⟨hat, ?_⟩
    refine (List.pairwise_map.1 distinct).imp_of_mem fun {e e'} he he' hne p hp q hq hsame => ?_
    obtain ⟨rest, hrest⟩ := f.components_of_mem_selectAt (below e he) (named e he) hpath hp
    obtain ⟨rest', hrest'⟩ := f.components_of_mem_selectAt (below e' he') (named e' he') hpath hq
    rw [hrest, hrest', List.append_cancel_left_eq, List.cons.injEq,
      Path.Component.named.injEq] at hsame
    exact hne hsame.1

theorem selectAt_distinct (h : n.Regular) (hpath : path.text ≠ "") :
    (f.selectAt path n).Pairwise fun p q => p.components ≠ q.components := by
  induction h generalizing path with
  | file bytes modified =>
    rw [selectAt]
    split
    · exact List.Pairwise.nil
    · split
      · exact List.pairwise_singleton _ _
      · exact List.Pairwise.nil
  | @directory entries distinct named below ih =>
    rw [selectAt]
    split
    · exact List.Pairwise.nil
    · exact f.pairwise_select (.directory distinct named below) hpath fun e he =>
        ih e he ((named e he).join_text_ne hpath)

/-- **No two of the selected files have the same path.** -/
theorem select_distinct (h : (Node.directory entries).Regular) (hpath : path.text ≠ "") :
    (f.select path entries).Pairwise fun p q => p.components ≠ q.components := by
  refine f.pairwise_select h hpath fun e he => ?_
  cases h with
  | directory distinct named below =>
    exact f.selectAt_distinct (below e he) ((named e he).join_text_ne hpath)

end Filters

/-! ## Sets of patterns -/

/-- A set of patterns accepts the last component of a path, or its way from the root. -/
def acceptsBy (accepts : String → Bool) (root path : Path) : Bool :=
  path.fileName?.any accepts || (path.relativeTo? root).any fun p => accepts p.text

/-- What a configuration says of the paths below a root, if `accepts` tells what a set of patterns
accepts. -/
def Config.filtersBy (c : Config) (accepts : List String → String → Bool) (root : Path) : Filters :=
  { ignores := acceptsBy (accepts c.ignored) root
    ignoresFile := acceptsBy (accepts c.ignoredFiles) root
    takes := acceptsBy (accepts c.sources) root }

/-- What a set of patterns accepts here. -/
def Glob.patternSet (patterns : List String) (text : String) : Bool :=
  anyAccepts (readAll patterns) text

theorem Config.filters_eq (c : Config) (root : Path) :
    c.filters root = c.filtersBy Glob.patternSet root :=
  rfl

/-- A set accepts the last name of a way, or the names of the way with separators between them. -/
def Matches (accepts : String → Bool) (way : List String) : Prop :=
  (∃ name, way.getLast? = some name ∧ accepts name = true) ∨
    accepts ("/".intercalate way) = true

theorem not_matches {accepts : String → Bool} (h : ∀ text, accepts text = false)
    (way : List String) : ¬Matches accepts way := by
  rintro (⟨name, -, haccepts⟩ | haccepts)
  · exact absurd haccepts (Bool.eq_false_iff.1 (h name))
  · exact absurd haccepts (Bool.eq_false_iff.1 (h _))

theorem acceptsBy_below {accepts : String → Bool} {root : Path} {way : List String}
    (hroot : root.text ≠ "") (hne : way ≠ []) (h : ∀ name ∈ way, Path.IsName name) :
    acceptsBy accepts root (root.below way) = true ↔ Matches accepts way := by
  rw [acceptsBy, Path.fileName?_below hroot hne h, Path.relativeTo?_below hroot hne h,
    Bool.or_eq_true, Option.any_eq_true, Option.any_some]
  rfl

/-- There is a file at the end of some names below a directory. -/
def Disk.FileUnder (d : Disk) (root : Path) (way : List String) : Prop :=
  ∃ entries, d.directory? root = some entries ∧ (Node.directory entries).FileAt way

/-- The directory, if it is one, is a regular tree. -/
def Disk.RegularAt (d : Disk) (root : Path) : Prop :=
  ∀ entries, d.directory? root = some entries → (Node.directory entries).Regular

variable {d : Disk} {root : Path} {way : List String}

theorem Disk.text_ne_of_directory? {entries : List (String × Node)}
    (h : d.directory? root = some entries) : root.text ≠ "" := by
  intro hempty
  have hstart : d.start root = .error .notFound := by
    unfold start
    rw [hempty]
    rfl
  unfold directory? locate at h
  rw [hstart] at h
  cases h

theorem Disk.RegularAt.isName (h : d.RegularAt root) (hf : d.FileUnder root way) :
    ∀ name ∈ way, Path.IsName name := by
  obtain ⟨entries, hentries, hf⟩ := hf
  exact (h entries hentries).isName hf

/-! ## The files of a project -/

namespace Filters

variable (f : Filters)

/-- The files of a project come in the order of their paths, each of them once. -/
theorem pairwise_files (h : d.RegularAt root) :
    (f.files d root).Pairwise fun p q => compare p q = .lt := by
  have htrans (p q r : Path) (hpq : (compare p q).isLE = true) (hqr : (compare q r).isLE = true) :
      (compare p r).isLE = true :=
    Std.TransCmp.isLE_trans hpq hqr
  have htotal (p q : Path) : ((compare p q).isLE || (compare q p).isLE) = true := by
    have hswap : compare p q = (compare q p).swap := Std.OrientedCmp.eq_swap
    rw [hswap]
    cases compare q p <;> rfl
  set selected := f.select root ((d.directory? root).getD []) with hselected
  have hdistinct : selected.Pairwise fun p q => p.components ≠ q.components := by
    rw [hselected]
    cases hentries : d.directory? root with
    | none =>
      rw [Option.getD_none, select]
      exact List.Pairwise.nil
    | some entries =>
      exact f.select_distinct (h entries hentries) (Disk.text_ne_of_directory? hentries)
  have hsorted := List.pairwise_mergeSort htrans htotal selected
  have hperm := List.mergeSort_perm selected fun p q => (compare p q).isLE
  -- in order and never the same is in strict order
  refine (hsorted.and (hperm.symm.pairwise hdistinct fun hne => hne.symm)).imp fun {p q} hpq => ?_
  rcases hcompare : compare p q with _ | _ | _
  · rfl
  · exact absurd (Path.compare_eq_iff.1 hcompare) hpq.2
  · rw [hcompare] at hpq
    exact absurd hpq.1 Bool.false_ne_true

/-- A file is taken exactly if nothing on the way to it is passed over and it is taken itself. -/
theorem mem_files (h : d.RegularAt root) {p : Path} :
    p ∈ f.files d root ↔
      ∃ way, d.FileUnder root way ∧ p = root.below way ∧
        (∀ front, front ≠ [] → front <+: way → f.ignores (root.below front) = false) ∧
          f.ignoresFile (root.below way) = false ∧ f.takes (root.below way) = true := by
  unfold files Disk.FileUnder
  rw [List.mem_mergeSort]
  cases hentries : d.directory? root with
  | none => simp [select]
  | some entries =>
    simp only [Option.getD_some, Option.some.injEq, exists_eq_left',
      mem_select f (h entries hentries)]

end Filters

/-- The files of a project, whatever sets of patterns mean. -/
theorem Config.mem_files_filtersBy (c : Config) (accepts : List String → String → Bool)
    (h : d.RegularAt root) {p : Path} :
    p ∈ (c.filtersBy accepts root).files d root ↔
      ∃ way, d.FileUnder root way ∧ p = root.below way ∧
        (∀ front, front ≠ [] → front <+: way → ¬Matches (accepts c.ignored) front) ∧
          ¬Matches (accepts c.ignoredFiles) way ∧ Matches (accepts c.sources) way := by
  rw [Filters.mem_files _ h]
  refine exists_congr fun way => and_congr_right fun hf => and_congr_right fun _ => ?_
  have hnames := h.isName hf
  have hroot : root.text ≠ "" := Disk.text_ne_of_directory? hf.choose_spec.1
  have hway : way ≠ [] := by
    rintro rfl
    obtain ⟨entries, -, hnil⟩ := hf
    cases Node.fileAt_nil.1 hnil
  have hfront (patterns : List String) {front : List String} (hne : front ≠ [])
      (hahead : front <+: way) :
      acceptsBy (accepts patterns) root (root.below front) = true ↔
        Matches (accepts patterns) front :=
    acceptsBy_below hroot hne fun name hname => hnames name (hahead.subset hname)
  refine and_congr (forall_congr' fun front => imp_congr_right fun hne => imp_congr_right
    fun hahead => ?_) (and_congr ?_ (hfront c.sources hway List.prefix_rfl))
  · rw [← hfront c.ignored hne hahead, Bool.not_eq_true]
    rfl
  · rw [← hfront c.ignoredFiles hway List.prefix_rfl, Bool.not_eq_true]
    rfl

namespace Glob

variable {patterns : List String} {text : String}

/-- A set accepts what one of its patterns accepts, as long as none of them is nested too deeply. -/
theorem patternSet_eq_true_iff : patternSet patterns text = true ↔
    (∀ pattern ∈ patterns, ∀ g, read? pattern = some g → g.depth ≤ maxDepth) ∧
      ∃ pattern ∈ patterns, ∃ g, read? pattern = some g ∧ g.accepts text.toUTF8.toList = true := by
  have hall : ((patterns.filterMap read?).all fun g => depth g ≤ maxDepth) = true ↔
      ∀ pattern ∈ patterns, ∀ g, read? pattern = some g → g.depth ≤ maxDepth := by
    simp only [List.all_eq_true, List.mem_filterMap, decide_eq_true_eq]
    exact ⟨fun h pattern hp g hg => h g ⟨pattern, hp, hg⟩,
      fun h g ⟨pattern, hp, hg⟩ => h pattern hp g hg⟩
  rw [← hall, patternSet, readAll, anyAccepts]
  split
  · rename_i hfits
    rw [and_iff_right hfits, List.any_eq_true]
    simp only [List.mem_filterMap]
    exact ⟨fun ⟨g, ⟨pattern, hp, hg⟩, ha⟩ => ⟨pattern, hp, g, hg, ha⟩,
      fun ⟨pattern, hp, g, hg, ha⟩ => ⟨g, ⟨pattern, hp, hg⟩, ha⟩⟩
  · rename_i hdeep
    exact ⟨nofun, fun h => absurd h.1 hdeep⟩

end Glob

/-- **The files that are watched are exactly the right ones**, whatever sets of patterns mean: they
come in the order of their paths, each of them once, and a file below the root is among them exactly
if no path on the way to it is ignored, itself included, it is not ignored as a file, and it is
taken. Here a set of patterns means what its patterns mean one by one, and those that cannot be read
count for nothing; but if one of them is nested too deeply, the whole set counts for nothing. -/
theorem watched_iff (c : Config) (d : Disk) (root : Path) (h : d.RegularAt root) :
    (∀ accepts : List String → String → Bool,
      ((c.filtersBy accepts root).files d root).Pairwise (fun p q => compare p q = .lt) ∧
        ∀ p, p ∈ (c.filtersBy accepts root).files d root ↔
          ∃ way, d.FileUnder root way ∧ p = root.below way ∧
            (∀ front, front ≠ [] → front <+: way → ¬Matches (accepts c.ignored) front) ∧
              ¬Matches (accepts c.ignoredFiles) way ∧ Matches (accepts c.sources) way) ∧
      c.watched d root = (c.filtersBy Glob.patternSet root).files d root ∧
        ∀ patterns text, Glob.patternSet patterns text = true ↔
          (∀ pattern ∈ patterns, ∀ g, Glob.read? pattern = some g → g.depth ≤ Glob.maxDepth) ∧
            ∃ pattern ∈ patterns, ∃ g, Glob.read? pattern = some g ∧
              g.accepts text.toUTF8.toList = true :=
  ⟨fun accepts => ⟨Filters.pairwise_files _ h, fun _ => c.mem_files_filtersBy accepts h⟩, rfl,
    fun _ _ => Glob.patternSet_eq_true_iff⟩

/-! ## A header, and one that was built -/

/-- A header at the root, and another one in a directory for what is built. -/
def builtDisk : Disk :=
  { root := .directory
      [("a.h", .file [] ⟨1, 0⟩), ("build", .directory [("x.h", .file [] ⟨1, 0⟩)])]
    current := [] }

theorem regularAt_builtDisk : builtDisk.RegularAt ⟨"/"⟩ := by
  have hname {name : String} (h : name = "a.h" ∨ name = "build" ∨ name = "x.h") :
      Path.IsName name := by
    rcases h with rfl | rfl | rfl <;> exact ⟨by decide, by decide, by decide, by decide⟩
  intro entries h
  cases h
  refine .directory (by decide) ?_ ?_
  · simp [hname]
  · simp only [List.mem_cons, List.not_mem_nil, or_false, forall_eq_or_imp, forall_eq]
    refine ⟨.file _ _, .directory (by decide) ?_ ?_⟩
    · simp [hname]
    · simp only [List.mem_cons, List.not_mem_nil, or_false, forall_eq]
      exact .file _ _

/-- The header at the root is watched, if sets of patterns are sets of names. -/
theorem watched_by_name :
    let c := { Config.default with sources := ["a.h", "x.h"] }
    builtDisk.RegularAt ⟨"/"⟩ ∧
      Path.below ⟨"/"⟩ ["a.h"] ∈
        (c.filtersBy (fun names name => names.contains name) ⟨"/"⟩).files builtDisk ⟨"/"⟩ := by
  intro c
  refine ⟨regularAt_builtDisk, ?_⟩
  refine (((watched_iff c builtDisk ⟨"/"⟩ regularAt_builtDisk).1 _).2 _).2
    ⟨["a.h"], ⟨_, rfl, _, _, rfl⟩, rfl, ?_, ?_, .inl ⟨"a.h", rfl, by decide⟩⟩
  · intro front hne hfront
    obtain hnil | ⟨rest, rfl, hrest⟩ := List.prefix_cons_iff.1 hfront
    · exact absurd hnil hne
    · rw [List.prefix_nil.1 hrest]
      rintro (⟨name, ⟨⟩, haccepts⟩ | haccepts)
      · exact absurd haccepts (by decide)
      · exact absurd haccepts (by decide)
  · exact not_matches (fun _ => rfl) _

/-- A pattern that is nested too deeply: as many braces as are allowed around a letter. -/
def deepPattern : String :=
  String.ofList (List.replicate Glob.maxDepth '\x7b' ++ 'z' :: List.replicate Glob.maxDepth '\x7d')

theorem depth_deepPattern :
    (Glob.read? deepPattern).any (fun g => Glob.maxDepth < g.depth) = true := by
  unfold Glob.read? deepPattern
  rw [String.toList_ofList]
  decide +kernel

/-- What was built is watched, although a pattern to ignore accepts its directory: next to it there
is one that is nested too deeply. -/
theorem deep_pattern_disarms :
    let c := { Config.default with ignored := ["build", deepPattern] }
    (∃ g, Glob.read? "build" = some g ∧ g.accepts "build".toUTF8.toList = true) ∧
      Path.below ⟨"/"⟩ ["build", "x.h"] ∈ c.watched builtDisk ⟨"/"⟩ := by
  intro c
  have hdeep (text : String) : Glob.patternSet c.ignored text = false := by
    obtain ⟨g, hread, hdepth⟩ := (Option.any_eq_true _ _).1 depth_deepPattern
    refine Bool.eq_false_iff.2 fun haccepts => ?_
    have hfits := (Glob.patternSet_eq_true_iff.1 haccepts).1 deepPattern (by simp [c]) g hread
    exact absurd hfits (Nat.not_le.2 (of_decide_eq_true hdepth))
  have hbuild : (Glob.read? "build").any (fun g => g.accepts "build".toUTF8.toList) = true := by
    decide +kernel
  refine ⟨(Option.any_eq_true _ _).1 hbuild, ?_⟩
  rw [Config.watched, c.filters_eq]
  refine (c.mem_files_filtersBy _ regularAt_builtDisk).2 ⟨_, ⟨_, rfl, _, _, rfl⟩, rfl,
    fun front _ _ => not_matches hdeep front, not_matches (fun _ => rfl) _, .inl ⟨"x.h", rfl, ?_⟩⟩
  have haccepts : Glob.patternSet Config.default.sources "x.h" = true := by decide +kernel
  exact haccepts

end DocIndex
