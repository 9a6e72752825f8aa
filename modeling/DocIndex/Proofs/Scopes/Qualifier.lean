import DocIndex.Proofs.Commented.Text
import DocIndex.Proofs.Window.Groups
import Mathlib.Data.List.DropRight

/-!
# What a name is qualified by

In front of a name stand segments, each a name of its own with template arguments or without, and
each with a `::` behind it. The segments are read from the back, and a list of arguments is passed
over by counting its brackets, a `>>` for two.

* `Closes`, `Segment`, `Qualified` — what stands in front of the name.
* `Closes.angleStart_eq` — counting back from the end of a list finds the `<` that opens it.
* `qualifierOf_of_qualified` — **the names of the segments**, as far back as no list ends in `>>`: a
  list is counted only where a single `>` ends it.
* `faces_nestedList` — a method whose class ends in `>>` is a function outside of it.
-/

namespace DocIndex

namespace Source

variable {s : Source} {pair : Bool} {depth i j : Nat}

/-! ## Lists of template arguments -/

/-- The lexemes from `i` up to `j` close as many lists as are open in front of them, which is
`depth`, and the last of them closes the first list. It is a `>>` if `pair` says so. -/
inductive Closes (s : Source) : Bool → Nat → Nat → Nat → Prop
  | last {i : Nat} (hi : s.is i ">" = true) : Closes s false 1 i (i + 1)
  | lastPair {i : Nat} (hi : s.is i ">>" = true) : Closes s true 2 i (i + 1)
  | word {pair : Bool} {depth i j : Nat} (hi : s.spelling i ∉ ["<", ">", ">>"])
      (rest : Closes s pair depth (i + 1) j) : Closes s pair depth i j
  | opens {pair : Bool} {depth i j : Nat} (hi : s.is i "<" = true) (hdepth : 0 < depth)
      (rest : Closes s pair (depth + 1) (i + 1) j) : Closes s pair depth i j
  | shuts {pair : Bool} {depth i j : Nat} (hi : s.is i ">" = true)
      (rest : Closes s pair depth (i + 1) j) : Closes s pair (depth + 1) i j
  | shutsPair {pair : Bool} {depth i j : Nat} (hi : s.is i ">>" = true)
      (rest : Closes s pair depth (i + 1) j) : Closes s pair (depth + 2) i j

namespace Closes

theorem depth_pos (h : s.Closes pair depth i j) : 0 < depth := by
  induction h with
  | last | lastPair | shuts | shutsPair => exact Nat.succ_pos _
  | word _ _ ih => exact ih
  | opens _ hdepth _ _ => exact hdepth

theorem lt (h : s.Closes pair depth i j) : i < j := by
  induction h with
  | last | lastPair => exact Nat.lt_succ_self _
  | word _ _ ih => omega
  | opens _ _ _ ih => omega
  | shuts _ _ ih => omega
  | shutsPair _ _ ih => omega

/-- The lexeme that closes the first list. -/
theorem is_last (h : s.Closes pair depth i j) :
    s.is (j - 1) (if pair then ">>" else ">") = true := by
  induction h with
  | last hi => exact hi
  | lastPair hi => exact hi
  | word _ _ ih => exact ih
  | opens _ _ _ ih => exact ih
  | shuts _ _ ih => exact ih
  | shutsPair _ _ ih => exact ih

/-- **Counting back over what closes the lists leaves them all open.** -/
theorem angleStart_eq (h : s.Closes pair depth i j) (hi : 0 < i) :
    s.angleStart 0 (j - 1) = s.angleStart depth (i - 1) := by
  -- one lexeme is counted, and the count is not at an end with it
  have hstep {i : Nat} {depth before : Int} (hi : 0 < i)
      (hbefore : s.angleDepthBefore i depth = before) (hne : before ≠ 0) :
      s.angleStart depth i = s.angleStart before (i - 1) := by
    rw [Source.angleStart_eq s depth hi, hbefore, if_neg hne]
  induction h with
  | last h =>
    have hclose := spelling_of_is h
    apply hstep hi _ (by omega)
    simp [angleDepthBefore, hclose]
  | lastPair h =>
    have hclose := spelling_of_is h
    apply hstep hi _ (by omega)
    simp [angleDepthBefore, hclose]
  | @word pair depth i j h rest ih =>
    have hpos := rest.depth_pos
    rw [ih (Nat.succ_pos _), Nat.add_sub_cancel]
    apply hstep hi _ (by omega)
    simp only [List.mem_cons, List.not_mem_nil, or_false, not_or] at h
    simp [angleDepthBefore, h]
  | @opens pair depth i j h hdepth rest ih =>
    have hopen := spelling_of_is h
    rw [ih (Nat.succ_pos _), Nat.add_sub_cancel]
    apply hstep hi _ (by omega)
    simp [angleDepthBefore, hopen]
  | @shuts pair depth i j h rest ih =>
    have hclose := spelling_of_is h
    rw [ih (Nat.succ_pos _), Nat.add_sub_cancel]
    apply hstep hi _ (by omega)
    simp [angleDepthBefore, hclose]
  | @shutsPair pair depth i j h rest ih =>
    have hclose := spelling_of_is h
    rw [ih (Nat.succ_pos _), Nat.add_sub_cancel]
    apply hstep hi _ (by omega)
    simp [angleDepthBefore, hclose]

end Closes

/-! ## Segments -/

/-- A name, with a list of template arguments behind it or without one. The list ends in `>>` if
`pair` says so. -/
inductive Segment (s : Source) : Bool → Nat → Nat → Prop
  | plain {i : Nat} (hi : s.isIdentifier i = true) : Segment s false i (i + 1)
  | arguments {pair : Bool} {i j : Nat} (hi : s.isIdentifier i = true)
      (hopen : s.is (i + 1) "<" = true) (hclose : s.Closes pair 1 (i + 2) j) : Segment s pair i j

/-- Segments with a `::` behind each of them: their names, and which of them end in `>>`. -/
inductive Qualified (s : Source) : List (String × Bool) → Nat → Nat → Prop
  | none {i : Nat} : Qualified s [] i i
  | snoc {segments : List (String × Bool)} {name : String} {pair : Bool} {first i j : Nat}
      (front : Qualified s segments first i) (segment : s.Segment pair i j)
      (hname : s.spelling i = name) (hcolons : s.is j "::" = true) :
      Qualified s (segments ++ [(name, pair)]) first (j + 1)

theorem Segment.lt (h : s.Segment pair i j) : i < j := by
  cases h with
  | plain _ => exact Nat.lt_succ_self i
  | arguments _ _ hclose =>
    have := hclose.lt
    omega

variable {cs : List Char}

/-- A name is not spelled like a sign. -/
theorem is_sign_of_isIdentifier (hi : (ofText cs).isIdentifier i = true) (sign : String)
    (hsign : sign.toList.head?.any Lexer.isWordStart = false) : (ofText cs).is i sign = false := by
  obtain ⟨c, ds, hspelling, hc⟩ := word_of_isIdentifier hi
  by_contra his
  have hsame : (ofText cs).spelling i = sign := spelling_of_is (by simpa using his)
  rw [← hsame, hspelling, List.head?_cons, Option.any_some, hc] at hsign
  exact Bool.noConfusion hsign

/-- **A segment is looked through to its name, unless its list ends in `>>`.** -/
theorem Segment.qualifierPart?_eq (h : (ofText cs).Segment pair i j)
    (hcolons : (ofText cs).is j "::" = true) :
    (ofText cs).qualifierPart? (j + 1) = if pair then Option.none else some i := by
  have hlt := h.lt
  have hbehind : (decide (2 ≤ j + 1) && (ofText cs).is (j + 1 - 1) "::") = true := by
    rw [Nat.add_sub_cancel, hcolons, Bool.and_true]
    exact decide_eq_true (by omega)
  rw [qualifierPart?, if_pos hbehind, show j + 1 - 2 = j - 1 by omega]
  cases h with
  | plain hi =>
    have hgreater := is_sign_of_isIdentifier hi ">" (by decide)
    simp [hgreater, hi]
  | arguments hi hopen hclose =>
    have hlast := hclose.is_last
    cases pair with
    | false =>
      -- the list is counted back to its `<`, which stands behind the name
      have hless : (ofText cs).angleStart 0 (j - 1) = i + 1 := by
        have hless := spelling_of_is hopen
        rw [hclose.angleStart_eq (by omega), show i + 2 - 1 = i + 1 by omega,
          Source.angleStart_eq _ _ (Nat.succ_pos i), if_pos]
        simp [angleDepthBefore, hless]
      rw [if_pos (by simpa using hlast), hless]
      simp [hi]
    | true =>
      have hpair : (ofText cs).is (j - 1) ">>" = true := by simpa using hlast
      have hgreater : (ofText cs).is (j - 1) ">" = false := by
        simp [is, spelling_of_is hpair]
      have hname : (ofText cs).isIdentifier (j - 1) = false := by
        by_contra hi
        rw [is_sign_of_isIdentifier (by simpa using hi) ">>" (by decide)] at hpair
        exact Bool.noConfusion hpair
      simp [hgreater, hname]

variable {segments : List (String × Bool)} {first stop n : Nat}

theorem Qualified.is_colons (h : s.Qualified segments first stop) (hne : segments ≠ []) :
    s.is (stop - 1) "::" = true := by
  cases h with
  | none => exact absurd rfl hne
  | snoc _ _ _ hcolons => exact hcolons

/-- Segments are read from the last one to the first one that ends in `>>`. -/
theorem Qualified.qualifierFrom_eq (h : (ofText cs).Qualified segments first stop)
    (hfirst : (ofText cs).qualifierPart? first = Option.none) (names : List String) :
    (ofText cs).qualifierFrom names stop =
      (segments.rtakeWhile fun g => !g.2).map Prod.fst ++ names := by
  induction h generalizing names with
  | none => simp [Source.qualifierFrom_eq, hfirst]
  | @snoc segments name pair first i j front segment hname hcolons ih =>
    subst hname
    rw [Source.qualifierFrom_eq, segment.qualifierPart?_eq hcolons]
    cases pair with
    | true => simp [List.rtakeWhile_concat_neg]
    | false =>
      rw [List.rtakeWhile_concat_pos _ _ _ rfl]
      simpa using ih hfirst ((ofText cs).spelling i :: names)

/-- **A name is qualified by the names of the segments in front of it**, template arguments of any
depth left out, as long as no list of them ends in `>>`. In general it is qualified by those behind
the last segment whose list does. -/
theorem qualifierOf_of_qualified (hq : (ofText cs).Qualified segments first stop)
    (hne : segments ≠ []) (hfirst : first = 0 ∨ (ofText cs).is (first - 1) "::" = false)
    (hn : n = stop ∨ (ofText cs).is stop "~" = true ∧ n = stop + 1) :
    (ofText cs).qualifierOf n = (segments.rtakeWhile fun g => !g.2).map Prod.fst ∧
      ((∀ g ∈ segments, g.2 = false) → (ofText cs).qualifierOf n = segments.map Prod.fst) := by
  have hstart : (ofText cs).nameStart n = stop := by
    rcases hn with rfl | ⟨htilde, rfl⟩
    · -- a `::` stands in front of the name, so no `~` does
      have hcolons := spelling_of_is (hq.is_colons hne)
      simp [nameStart, is, hcolons]
    · simp [nameStart, htilde]
  have hend : (ofText cs).qualifierPart? first = Option.none := by
    rw [qualifierPart?, if_neg]
    rw [Bool.and_eq_true, decide_eq_true_eq]
    rintro ⟨htwo, hcolons⟩
    rcases hfirst with rfl | hother
    · omega
    · rw [hother] at hcolons
      exact Bool.noConfusion hcolons
  have hread : (ofText cs).qualifierOf n = (segments.rtakeWhile fun g => !g.2).map Prod.fst := by
    have hfrom := hq.qualifierFrom_eq hend []
    rw [List.append_nil, ← hstart] at hfrom
    exact hfrom
  refine ⟨hread, fun hsingle => ?_⟩
  rw [hread, List.rtakeWhile_eq_self_iff.2]
  intro g hg
  rw [hsingle g hg]
  rfl

/-- A destructor behind a list that holds a `>>` and a list that is empty. -/
theorem qualifierOf_destructor :
    (ofText "void N::A<B<C<int>>, D >::E<>::~E();".toList).qualifierOf 20 = ["N", "A", "E"] := by
  -- all that is asked of the text
  obtain ⟨hword, hopen, hclose, hpair, hcolons, hname, hfirst, htilde⟩ :
      (∀ i ∈ [5, 7, 9, 11, 12], (ofText "void N::A<B<C<int>>, D >::E<>::~E();".toList).spelling i ∉
        ["<", ">", ">>"]) ∧
      (∀ i ∈ [4, 6, 8, 16], (ofText "void N::A<B<C<int>>, D >::E<>::~E();".toList).is i "<") ∧
      (∀ i ∈ [13, 17], (ofText "void N::A<B<C<int>>, D >::E<>::~E();".toList).is i ">") ∧
      (ofText "void N::A<B<C<int>>, D >::E<>::~E();".toList).is 10 ">>" ∧
      (∀ i ∈ [2, 14, 18], (ofText "void N::A<B<C<int>>, D >::E<>::~E();".toList).is i "::") ∧
      (∀ g ∈ [(1, "N"), (3, "A"), (15, "E")],
        (ofText "void N::A<B<C<int>>, D >::E<>::~E();".toList).isIdentifier g.1 ∧
          (ofText "void N::A<B<C<int>>, D >::E<>::~E();".toList).spelling g.1 = g.2) ∧
      (ofText "void N::A<B<C<int>>, D >::E<>::~E();".toList).is 0 "::" = false ∧
      (ofText "void N::A<B<C<int>>, D >::E<>::~E();".toList).is 19 "~" := by
    decide +kernel
  generalize "void N::A<B<C<int>>, D >::E<>::~E();".toList = cs at *
  -- the lists behind `A`, from the comma on and from the first `<` on
  have hcomma : (ofText cs).Closes false 1 11 14 :=
    .word (hword 11 (by simp)) (.word (hword 12 (by simp)) (.last (hclose 13 (by simp))))
  have hlist : (ofText cs).Closes false 1 5 14 := by
    refine .word (hword 5 (by simp)) (.opens (hopen 6 (by simp)) (by omega) ?_)
    refine .word (hword 7 (by simp)) (.opens (hopen 8 (by simp)) (by omega) ?_)
    exact .word (hword 9 (by simp)) (.shutsPair hpair hcomma)
  obtain ⟨hidN, hspellN⟩ := hname (1, "N") (by simp)
  obtain ⟨hidA, hspellA⟩ := hname (3, "A") (by simp)
  obtain ⟨hidE, hspellE⟩ := hname (15, "E") (by simp)
  have hN : (ofText cs).Qualified [("N", false)] 1 3 :=
    Qualified.none.snoc (.plain hidN) hspellN (hcolons 2 (by simp))
  have hA : (ofText cs).Qualified [("N", false), ("A", false)] 1 15 :=
    hN.snoc (.arguments hidA (hopen 4 (by simp)) hlist) hspellA (hcolons 14 (by simp))
  have hE : (ofText cs).Qualified [("N", false), ("A", false), ("E", false)] 1 19 :=
    hA.snoc (.arguments hidE (hopen 16 (by simp)) (.last (hclose 17 (by simp)))) hspellE
      (hcolons 18 (by simp))
  exact (qualifierOf_of_qualified hE (by decide) (.inr hfirst) (.inr ⟨htilde, rfl⟩)).2 (by decide)

end Source

namespace SourceUnit

open Source

/-- **A list that ends in `>>` is not passed over**: the method of a class becomes a function
outside of it, which it is not if a blank stands between the two. -/
theorem faces_nestedList : ∃ cs cs' : List Char,
    (ofText cs).Qualified [("A", true)] 6 13 ∧ (ofText cs).is 5 "::" = false ∧
      (ofText cs).qualifierOf 13 = [] ∧
      (parseText ⟨"t.hxx"⟩ cs []).faces =
        [⟨.wholeFile, "t.hxx", none⟩, ⟨.structDecl, "A", some 0⟩, ⟨.functionDecl, "f", some 0⟩] ∧
    (ofText cs').Qualified [("A", false)] 6 14 ∧ (ofText cs').is 5 "::" = false ∧
      (ofText cs').qualifierOf 14 = ["A"] ∧
      (parseText ⟨"t.hxx"⟩ cs' []).faces =
        [⟨.wholeFile, "t.hxx", none⟩, ⟨.structDecl, "A", some 0⟩, ⟨.method, "f", some 1⟩] := by
  refine ⟨"struct A {};\nvoid A<B<int>>::f();\n".toList,
    "struct A {};\nvoid A<B<int> >::f();\n".toList, ?_, by decide +kernel, by decide +kernel,
    by decide +kernel, ?_, by decide +kernel, by decide +kernel, by decide +kernel⟩
  · obtain ⟨hid, hname, hopen, hword, hpair, hcolons⟩ :
        (ofText "struct A {};\nvoid A<B<int>>::f();\n".toList).isIdentifier 6 ∧
        (ofText "struct A {};\nvoid A<B<int>>::f();\n".toList).spelling 6 = "A" ∧
        (∀ i ∈ [7, 9], (ofText "struct A {};\nvoid A<B<int>>::f();\n".toList).is i "<") ∧
        (∀ i ∈ [8, 10], (ofText "struct A {};\nvoid A<B<int>>::f();\n".toList).spelling i ∉
          ["<", ">", ">>"]) ∧
        (ofText "struct A {};\nvoid A<B<int>>::f();\n".toList).is 11 ">>" ∧
        (ofText "struct A {};\nvoid A<B<int>>::f();\n".toList).is 12 "::" := by
      decide +kernel
    have hlist := Closes.word (hword 8 (by simp)) (.opens (hopen 9 (by simp)) (by omega)
      (.word (hword 10 (by simp)) (.lastPair hpair)))
    exact Qualified.none.snoc (.arguments hid (hopen 7 (by simp)) hlist) hname hcolons
  · obtain ⟨hid, hname, hopen, hword, hclose, hcolons⟩ :
        (ofText "struct A {};\nvoid A<B<int> >::f();\n".toList).isIdentifier 6 ∧
        (ofText "struct A {};\nvoid A<B<int> >::f();\n".toList).spelling 6 = "A" ∧
        (∀ i ∈ [7, 9], (ofText "struct A {};\nvoid A<B<int> >::f();\n".toList).is i "<") ∧
        (∀ i ∈ [8, 10], (ofText "struct A {};\nvoid A<B<int> >::f();\n".toList).spelling i ∉
          ["<", ">", ">>"]) ∧
        (∀ i ∈ [11, 12], (ofText "struct A {};\nvoid A<B<int> >::f();\n".toList).is i ">") ∧
        (ofText "struct A {};\nvoid A<B<int> >::f();\n".toList).is 13 "::" := by
      decide +kernel
    have hlist := Closes.word (hword 8 (by simp)) (.opens (hopen 9 (by simp)) (by omega)
      (.word (hword 10 (by simp)) (.shuts (hclose 11 (by simp)) (.last (hclose 12 (by simp))))))
    exact Qualified.none.snoc (.arguments hid (hopen 7 (by simp)) hlist) hname hcolons

end SourceUnit

end DocIndex
