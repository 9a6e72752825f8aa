import DocIndex.Path
import Mathlib.Data.List.Basic

/-!
# Paths below a directory

Two paths count as one exactly if they have the same components. The path that leads from a
directory through some names has the components of the directory and then the names, and the way
back from the directory to it spells the names with separators between them.

* `compare_eq_iff` — when paths are the same.
* `IsName` — what an entry of a directory may be called.
* `below` — the path through some names; `components_below` — its components.
* `fileName?_below`, `relativeTo?_below` — **its last component, and its way from the directory.**
-/

namespace DocIndex

namespace Path

instance : Std.LawfulEqOrd Component where
  eq_of_compare {a b} h := by
    obtain ⟨hr, hl⟩ := Ordering.then_eq_eq.1 h
    have hr : a.rank = b.rank := Std.LawfulEqOrd.eq_of_compare hr
    have hl : a.label = b.label := Std.LawfulEqOrd.eq_of_compare hl
    cases a <;> cases b <;> simp_all [Component.rank, Component.label]

/-- **Paths are the same exactly if their components are.** -/
theorem compare_eq_iff {p q : Path} : compare p q = .eq ↔ p.components = q.components := by
  have hcompare : compare p q = compare p.components q.components := rfl
  rw [hcompare, Std.LawfulEqCmp.compare_eq_iff_eq]

/-! ## Between separators -/

variable {as bs cs : List Char}

theorem pieces_ne_nil : pieces cs ≠ [] := by
  cases cs with
  | nil => simp [pieces]
  | cons c cs =>
    unfold pieces
    split
    · simp
    · split <;> simp

theorem pieces_of_not_mem (h : '/' ∉ cs) : pieces cs = [cs] := by
  induction cs with
  | nil => rfl
  | cons c cs ih =>
    rw [List.mem_cons, not_or] at h
    rw [pieces, if_neg (Ne.symm h.1), ih h.2]

/-- A separator is where one piece ends and the next one begins. -/
theorem pieces_append : pieces (as ++ '/' :: bs) = pieces as ++ pieces bs := by
  induction as with
  | nil => rfl
  | cons c as ih =>
    rw [List.cons_append, pieces, pieces, ih]
    by_cases hc : c = '/'
    · rw [if_pos hc, if_pos hc, List.cons_append]
    · rw [if_neg hc, if_neg hc]
      cases hp : pieces as with
      | nil => exact absurd hp pieces_ne_nil
      | cons p ps => rfl

theorem pieces_intercalate {ps : List (List Char)} (hne : ps ≠ []) (h : ∀ p ∈ ps, '/' ∉ p) :
    pieces (['/'].intercalate ps) = ps := by
  induction ps with
  | nil => exact absurd rfl hne
  | cons p ps ih =>
    obtain ⟨hp, hps⟩ := List.forall_mem_cons.1 h
    cases ps with
    | nil => rw [List.intercalate_singleton, pieces_of_not_mem hp]
    | cons q ps =>
      rw [List.intercalate_cons_cons, List.append_assoc, List.singleton_append, pieces_append,
        pieces_of_not_mem hp, ih (List.cons_ne_nil q ps) hps]
      rfl

/-- Whether a path starts at the root or with a dot is decided in front of its first separator. -/
theorem lead_append_of_ne_nil (h : as ≠ []) : lead (as ++ '/' :: bs) = lead as := by
  cases as with
  | nil => exact absurd rfl h
  | cons c as =>
    by_cases hslash : c = '/'
    · subst hslash
      rfl
    · by_cases hdot : c = '.'
      · subst hdot
        cases as with
        | nil => rfl
        | cons c' as =>
          by_cases hslash' : c' = '/'
          · subst hslash'
            rfl
          · simp [lead, hslash']
      · simp [lead, hslash, hdot]

theorem lead_append : lead (as ++ '/' :: bs) = lead (as ++ ['/']) := by
  by_cases h : as = []
  · subst h
    rfl
  · rw [lead_append_of_ne_nil h, lead_append_of_ne_nil h]

/-! ## The characters of a directory -/

/-- The characters without the separator that ends them. -/
def stem (cs : List Char) : List Char :=
  if cs.getLast? = some '/' then cs.dropLast else cs

/-- At most one separator is left out. -/
theorem stem_append_or_eq (h : cs ≠ []) :
    (cs.getLast? = some '/' ∧ stem cs ++ ['/'] = cs) ∨
      (cs.getLast? ≠ some '/' ∧ stem cs = cs) := by
  unfold stem
  by_cases hend : cs.getLast? = some '/'
  · left
    rw [if_pos hend]
    refine ⟨hend, ?_⟩
    rw [List.getLast?_eq_some_getLast h, Option.some.injEq] at hend
    rw [← hend, List.dropLast_append_getLast]
  · right
    rw [if_neg hend]
    exact ⟨hend, rfl⟩

theorem components_eq (p : Path) :
    p.components = lead p.text.toList ++ (pieces p.text.toList).filterMap pieceComponent? := rfl

/-- A separator at the end does not count. -/
theorem components_eq_stem {p : Path} (h : p.text ≠ "") :
    p.components = lead (stem p.text.toList ++ ['/']) ++
      (pieces (stem p.text.toList)).filterMap pieceComponent? := by
  have hne : p.text.toList ≠ [] := by simpa using h
  rw [components_eq]
  rcases stem_append_or_eq hne with ⟨-, hstem⟩ | ⟨-, hstem⟩
  · -- behind the last separator there is an empty piece
    have hlast : pieces p.text.toList = pieces (stem p.text.toList) ++ [[]] := by
      rw [← hstem, pieces_append, hstem]
      rfl
    rw [hstem, hlast, List.filterMap_append]
    exact congrArg _ (List.append_nil _)
  · rw [hstem, lead_append_of_ne_nil hne]

theorem components_ne_nil {p : Path} (h : p.text ≠ "") : p.components ≠ [] := by
  have hne : p.text.toList ≠ [] := by simpa using h
  rw [components_eq]
  cases hcs : p.text.toList with
  | nil => exact absurd hcs hne
  | cons c cs =>
    by_cases hslash : c = '/'
    · subst hslash
      exact List.cons_ne_nil _ _
    · -- the first piece is a component, unless it is a dot, which counts in front
      rw [pieces, if_neg hslash]
      cases hp : pieces cs with
      | nil => exact absurd hp pieces_ne_nil
      | cons q qs =>
        by_cases hdot : c :: q = ['.']
        · obtain ⟨rfl, rfl⟩ := List.cons.inj hdot
          cases cs with
          | nil => exact List.cons_ne_nil _ _
          | cons c' cs =>
            by_cases hslash' : c' = '/'
            · subst hslash'
              exact List.cons_ne_nil _ _
            · rw [pieces, if_neg hslash'] at hp
              split at hp <;> simp at hp
        · have hsome : ∃ component, pieceComponent? (c :: q) = some component := by
            unfold pieceComponent?
            simp only [reduceCtorEq, decide_false, Bool.false_or, hdot, Bool.false_eq_true,
              if_false]
            split <;> exact ⟨_, rfl⟩
          obtain ⟨component, hc⟩ := hsome
          simp [hc]

/-! ## Names -/

/-- What an entry of a directory may be called. -/
structure IsName (name : String) : Prop where
  ne_empty : name ≠ ""
  ne_dot : name ≠ "."
  ne_dots : name ≠ ".."
  no_separator : '/' ∉ name.toList

variable {root : Path} {name : String} {names : List String}

namespace IsName

theorem toList_ne_nil (h : IsName name) : name.toList ≠ [] := by
  simpa using h.ne_empty

theorem pieceComponent?_eq (h : IsName name) :
    pieceComponent? name.toList = some (.named name) := by
  have hdot : name.toList ≠ ['.'] := fun he => h.ne_dot (String.toList_injective he)
  have hdots : name.toList ≠ ['.', '.'] := fun he => h.ne_dots (String.toList_injective he)
  unfold pieceComponent?
  simp [h.toList_ne_nil, hdot, hdots, String.ofList_toList]

theorem stem_append (h : IsName name) :
    stem (as ++ '/' :: name.toList) = as ++ '/' :: name.toList := by
  unfold stem
  rw [if_neg]
  intro hend
  rw [← List.singleton_append, ← List.append_assoc,
    List.getLast?_append_of_ne_nil _ h.toList_ne_nil] at hend
  exact h.no_separator (List.mem_of_getLast? hend)

theorem not_isAbsolute (h : IsName name) : (⟨name⟩ : Path).isAbsolute = false := by
  have hlead : lead name.toList = [] := by
    cases hcs : name.toList with
    | nil => rfl
    | cons c cs =>
      have hnot := h.no_separator
      rw [hcs, List.mem_cons, not_or] at hnot
      have hdot : name.toList ≠ ['.'] := fun he => h.ne_dot (String.toList_injective he)
      rw [hcs] at hdot
      unfold lead
      split
      · rename_i he
        exact absurd (List.cons.inj he).1.symm hnot.1
      · rename_i he
        exact absurd he hdot
      · rename_i he
        rw [(List.cons.inj he).2] at hnot
        exact absurd List.mem_cons_self hnot.2
      · rfl
  rw [isAbsolute, components_eq, hlead, pieces_of_not_mem h.no_separator]
  simp [h.pieceComponent?_eq]

/-- A name is joined to a directory with one separator. -/
theorem toList_join (h : IsName name) (hroot : root.text ≠ "") :
    (root.join ⟨name⟩).text.toList = stem root.text.toList ++ '/' :: name.toList := by
  have hempty : root.text.isEmpty = false := by simpa using hroot
  have hne : root.text.toList ≠ [] := by simpa using hroot
  rw [join, h.not_isAbsolute, hempty]
  simp only [Bool.or_self, Bool.false_eq_true, if_false]
  rcases stem_append_or_eq hne with ⟨hend, hstem⟩ | ⟨hend, hstem⟩
  · rw [if_pos hend, String.toList_append, ← List.singleton_append, ← List.append_assoc, hstem]
  · rw [if_neg hend, hstem]
    simp

theorem join_text_ne (h : IsName name) (hroot : root.text ≠ "") : (root.join ⟨name⟩).text ≠ "" := by
  intro he
  have hcs := h.toList_join hroot
  rw [he] at hcs
  simp at hcs

end IsName

/-! ## Below a directory -/

/-- The path that leads from a directory through some names. -/
def below (root : Path) (names : List String) : Path :=
  names.foldl (fun p name => p.join ⟨name⟩) root

theorem below_cons : below root (name :: names) = below (root.join ⟨name⟩) names := rfl

theorem toList_below (hroot : root.text ≠ "") (hne : names ≠ []) (h : ∀ n ∈ names, IsName n) :
    (below root names).text.toList =
      stem root.text.toList ++ '/' :: ['/'].intercalate (names.map String.toList) := by
  induction names generalizing root with
  | nil => exact absurd rfl hne
  | cons name names ih =>
    obtain ⟨hname, hnames⟩ := List.forall_mem_cons.1 h
    have hjoin := hname.toList_join hroot
    cases names with
    | nil =>
      rw [List.map_singleton, List.intercalate_singleton]
      exact hjoin
    | cons name' names =>
      rw [below_cons, ih (hname.join_text_ne hroot) (List.cons_ne_nil _ _) hnames, hjoin,
        hname.stem_append]
      simp

theorem filterMap_names (h : ∀ n ∈ names, IsName n) :
    (names.map String.toList).filterMap pieceComponent? = names.map .named := by
  induction names with
  | nil => rfl
  | cons name names ih =>
    obtain ⟨hname, hnames⟩ := List.forall_mem_cons.1 h
    rw [List.map_cons, List.filterMap_cons, hname.pieceComponent?_eq, ih hnames, List.map_cons]

theorem pieces_names (hne : names ≠ []) (h : ∀ n ∈ names, IsName n) :
    pieces (['/'].intercalate (names.map String.toList)) = names.map String.toList := by
  refine pieces_intercalate (by simpa using hne) fun p hp => ?_
  obtain ⟨n, hn, rfl⟩ := List.mem_map.1 hp
  exact (h n hn).no_separator

/-- **A path below a directory has the components of the directory, and then the names.** -/
theorem components_below (hroot : root.text ≠ "") (h : ∀ n ∈ names, IsName n) :
    (below root names).components = root.components ++ names.map .named := by
  by_cases hne : names = []
  · subst hne
    exact (List.append_nil _).symm
  · rw [components_eq, toList_below hroot hne h, lead_append, pieces_append, pieces_names hne h,
      List.filterMap_append, filterMap_names h, ← List.append_assoc, ← components_eq_stem hroot]

/-- **Its last component is the last name.** -/
theorem fileName?_below (hroot : root.text ≠ "") (hne : names ≠ []) (h : ∀ n ∈ names, IsName n) :
    (below root names).fileName? = names.getLast? := by
  rw [fileName?, components_below hroot h, List.getLast?_append_of_ne_nil _ (by simpa using hne),
    List.getLast?_map]
  cases names.getLast? with
  | none => rfl
  | some name => rfl

/-! ## The way back -/

/-- What is no component in front is passed over. -/
theorem dropFront_skip {n : Nat} {p : List Char} {ps : List (List Char)}
    (hp : pieceComponent? p = none) : dropFront n (p :: ps) = dropFront n ps := by
  cases n with
  | zero =>
    rw [dropFront, dropFront, List.dropWhile_cons_of_pos]
    rw [hp]
    rfl
  | succ n => rw [dropFront, if_pos (by rw [hp]; rfl)]

/-- Pieces are dropped up to the components that are to stay. -/
theorem dropFront_append {front rest : List (List Char)}
    (h : ∀ p ∈ rest.head?, (pieceComponent? p).isSome = true) :
    dropFront (front.filterMap pieceComponent?).length (front ++ rest) = rest := by
  induction front with
  | nil =>
    cases rest with
    | nil => rfl
    | cons p rest =>
      have hp := h p rfl
      rw [List.filterMap_nil, List.length_nil, List.nil_append, dropFront,
        List.dropWhile_cons_of_neg]
      rw [← Option.not_isSome, hp]
      simp
  | cons p front ih =>
    cases hp : pieceComponent? p with
    | none => rw [List.filterMap_cons, hp, List.cons_append, dropFront_skip hp, ih]
    | some component =>
      rw [List.filterMap_cons, hp, List.length_cons, List.cons_append, dropFront,
        if_neg (by rw [hp]; simp), ih]

/-- Behind what comes in front, the pieces up to a separator hold the same components. -/
theorem pieces_drop_lead : ∃ front,
    pieces ((as ++ '/' :: bs).drop (lead (as ++ ['/'])).length) = front ++ pieces bs ∧
      front.filterMap pieceComponent? = (pieces as).filterMap pieceComponent? := by
  cases as with
  | nil => exact ⟨[], rfl, rfl⟩
  | cons c as =>
    by_cases hslash : c = '/'
    · subst hslash
      exact ⟨pieces as, pieces_append, rfl⟩
    · by_cases hdot : c = '.'
      · subst hdot
        cases as with
        | nil => exact ⟨[[]], rfl, rfl⟩
        | cons c' as =>
          by_cases hslash' : c' = '/'
          · subst hslash'
            have hrest : pieces ('/' :: as ++ '/' :: bs) = pieces ('/' :: as) ++ pieces bs :=
              pieces_append
            exact ⟨pieces ('/' :: as), hrest, rfl⟩
          · refine ⟨pieces ('.' :: c' :: as), ?_, rfl⟩
            have hlead : lead ('.' :: c' :: as ++ ['/']) = [] := by simp [lead, hslash']
            rw [hlead, List.length_nil, List.drop_zero, pieces_append]
      · refine ⟨pieces (c :: as), ?_, rfl⟩
        have hlead : lead (c :: as ++ ['/']) = [] := by simp [lead, hslash, hdot]
        rw [hlead, List.length_nil, List.drop_zero, pieces_append]

/-- Names have nothing around them that could be dropped. -/
theorem dropTail_names (hne : names ≠ []) (h : ∀ n ∈ names, IsName n) :
    dropTail 0 (['/'].intercalate (names.map String.toList)) =
      ['/'].intercalate (names.map String.toList) := by
  have hlast : ((names.map String.toList).reverse.dropWhile
      fun p => (pieceComponent? p).isNone) = (names.map String.toList).reverse := by
    cases hr : (names.map String.toList).reverse with
    | nil => rfl
    | cons p ps =>
      have hp : p ∈ names.map String.toList := by
        rw [← List.mem_reverse, hr]
        exact List.mem_cons_self
      obtain ⟨n, hn, rfl⟩ := List.mem_map.1 hp
      rw [List.dropWhile_cons_of_neg]
      rw [(h n hn).pieceComponent?_eq]
      simp
  unfold dropTail
  dsimp only
  rw [List.drop_zero, List.take_zero, List.nil_append, pieces_names hne h, hlast,
    List.reverse_reverse]

/-- **The way back spells the names, with separators between them.** -/
theorem relativeTo?_below (hroot : root.text ≠ "") (hne : names ≠ []) (h : ∀ n ∈ names, IsName n) :
    (below root names).relativeTo? root = some ⟨"/".intercalate names⟩ := by
  have hstarts : root.components.isPrefixOf (below root names).components = true := by
    rw [components_below hroot h, List.isPrefixOf_iff_prefix]
    exact List.prefix_append _ _
  have hcomponents := components_eq_stem hroot
  have hcount : root.components.length - (lead (stem root.text.toList ++ ['/'])).length =
      ((pieces (stem root.text.toList)).filterMap pieceComponent?).length := by
    rw [hcomponents, List.length_append, Nat.add_sub_cancel_left]
  -- the first of the names is a component, so that it stays
  have hhead : ∀ p ∈ (names.map String.toList).head?, (pieceComponent? p).isSome = true := by
    intro p hp
    obtain ⟨n, hn, rfl⟩ := List.mem_map.1 (List.mem_of_mem_head? hp)
    rw [(h n hn).pieceComponent?_eq]
    rfl
  have hrest : dropFront (root.components.length - (lead (below root names).text.toList).length)
      (pieces ((below root names).text.toList.drop (lead (below root names).text.toList).length)) =
        names.map String.toList := by
    rw [toList_below hroot hne h, lead_append, hcount]
    obtain ⟨front, hpieces, hfront⟩ := pieces_drop_lead
    rw [hpieces, ← hfront, pieces_names hne h]
    exact dropFront_append hhead
  have hwords : ['/'].intercalate (names.map String.toList) = ("/".intercalate names).toList := by
    rw [String.toList_intercalate]
    rfl
  unfold relativeTo?
  dsimp only
  rw [hstarts, hrest, dropTail_names hne h, hwords, String.ofList_toList]
  cases hsteps : root.components with
  | nil => exact absurd hsteps (components_ne_nil hroot)
  | cons step steps => rfl

end Path

end DocIndex
