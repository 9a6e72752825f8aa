import DocIndex.Proofs.Ahead.Reading
import DocIndex.Proofs.Defined.Lines

/-!
# Reading lines that define macros

In front of a text, lines that define macros are read one by one. Behind them the outline holds
their cursors and their macros, and no lexeme of the text has an owner yet (`Outline.Defines`): it
is what is recognised before the text is read alone with the macros known, with the cursors of the
lines in it (`Outline.Defines.ahead`).

* `readDirective_definition` — what a line says.
* `step_definition` — one line.
* `comes_definitions` — **all lines.**
-/

namespace DocIndex

open Lexer

/-- What has been recognised of a text of `size` lexemes, `k` of which are those of lines that
define these macros. -/
structure Outline.Defines (o : Outline) (name : String) (size k : Nat) (ds : List Definition) :
    Prop where
  faces : o.faces = ⟨.wholeFile, name, none⟩ :: ds.flatMap Definition.faces
  owners : ∀ i, k ≤ i → i < size → o.owners[i]? = some none
  sized : o.owners.size = size
  macros : o.macros = (ds.map Definition.macro?).reverse
  scopes : o.scopes = []
  moduleName : o.moduleName = none

namespace Outline

open Source

variable {ws front back : List Word} {cs : List Char} {d : Definition} {ds : List Definition}
  {o : Outline} {name : String} {size k : Nat}

/-! ## The end of a line -/

section

variable (h : LeadsInto cs ws) (hline : gapBehind [] ws = ['\n'])
include h hline

/-- A line ends with the first word that ends one. -/
theorem lineEnd_front {init : List Word} {w : Word} (hws : ws = front ++ (init ++ w :: back))
    (hinit : ∀ v ∈ init, v.gap ≠ .line) (hw : w.gap = .line) :
    (ofText (spell ws ++ cs)).lineEnd front.length = front.length + init.length := by
  induction init generalizing front with
  | nil =>
    have hcontinues : (ofText (spell ws ++ cs)).lineContinues front.length =
        decide (w.gap ≠ .line) :=
      lineContinues_front h hline hws
    rw [hw] at hcontinues
    rw [lineEnd, hcontinues, decide_eq_false (not_not_intro rfl), Bool.and_false,
      if_neg Bool.false_ne_true]
    rfl
  | cons v init ih =>
    have hcontinues : (ofText (spell ws ++ cs)).lineContinues front.length =
        decide (v.gap ≠ .line) :=
      lineContinues_front h hline hws
    have hnext : ws = (front ++ [v]) ++ (init ++ w :: back) := by
      rw [hws, List.append_assoc]
      rfl
    have hend := ih hnext fun u hu => hinit u (List.mem_cons_of_mem v hu)
    have hsize : front.length + 1 < (ofText (spell ws ++ cs)).size := by
      rw [size_behind h hline, hws]
      simp only [List.length_append, List.length_cons]
      omega
    rw [List.length_append, List.length_singleton] at hend
    rw [lineEnd, hcontinues, decide_eq_true (hinit v List.mem_cons_self), decide_eq_true hsize,
      Bool.and_self, if_pos rfl, hend, List.length_cons]
    omega

/-! ## One line -/

/-- A parenthesis touches the name if there are parameters. -/
theorem is_parenthesis (hws : ws = front ++ (d.words ++ back)) :
    ((ofText (spell ws ++ cs)).is (front.length + 3) "(" &&
        (ofText (spell ws ++ cs)).touchesNext (front.length + 2)) = d.parameters.isSome := by
  cases hp : d.parameters with
  | none =>
    have hsplit : ws = (front ++ [mark '#' .none, letters "define" .space]) ++
        letters d.name .line :: back := by
      simp [hws, Definition.words, Definition.front, Definition.last, hp]
    have htouches := touchesNext_front h hline hsplit
    rw [List.length_append] at htouches
    have hapart : (letters d.name .line).gap ≠ .none := by simp [letters]
    rw [decide_eq_false hapart] at htouches
    exact (congrArg (_ && ·) htouches).trans (Bool.and_false _)
  | some ps =>
    have hsplit : ws = (front ++ [mark '#' .none, letters "define" .space]) ++
        letters d.name .none ::
          mark '(' .none :: (Definition.parameterWords ps ++ [mark ')' .line] ++ back) := by
      simp [hws, Definition.words, Definition.front, Definition.last, hp]
    have hopen : ws = (front ++ [mark '#' .none, letters "define" .space, letters d.name .none]) ++
        mark '(' .none :: (Definition.parameterWords ps ++ [mark ')' .line] ++ back) := by
      simp [hws, Definition.words, Definition.front, Definition.last, hp]
    have htouches := touchesNext_front h hline hsplit
    have hat := (at_front h hopen).is_eq "("
    rw [List.length_append] at htouches hat
    exact (congrArg₂ and hat htouches).trans rfl

/-- **What a line says.** -/
theorem readDirective_definition (hws : ws = front ++ (d.words ++ back)) :
    o.readDirective (ofText (spell ws ++ cs)) front.length =
      (((o.declare .preprocessingDirective "define" front.length
          (front.length + d.front.length) 0).1.define d.name d.parameters.isSome).claim
        front.length (front.length + 1) o.drafts.size).add .macroDefinition d.name
          (front.length + 2) (front.length + d.front.length) 0 := by
  have hlast : ws = (front ++ d.front) ++ d.last :: back := by
    simp [hws, Definition.words]
  have hend := lineEnd_front h hline (hlast.trans (List.append_assoc ..)) d.gap_front d.gap_last
  obtain ⟨g, rest, hwords⟩ := d.words_eq
  have hdefine : ws = (front ++ [mark '#' .none]) ++
      letters "define" .space :: (letters d.name g :: rest ++ back) := by
    simp [hws, hwords]
  have hkeyword := at_front h hdefine
  have hname : ws = (front ++ [mark '#' .none, letters "define" .space]) ++
      letters d.name g :: (rest ++ back) := by
    simp [hws, hwords]
  have hnameAt := at_front h hname
  rw [List.length_append] at hkeyword hnameAt
  have hcode : (ofText (spell ws ++ cs)).isComment (front.length + d.front.length) = false := by
    have hat := at_front h hlast
    rw [List.length_append] at hat
    rw [hat.isComment_eq, decide_eq_false d.last_code]
  have hlength : front.length + 1 < front.length + d.front.length :=
    Nat.add_lt_add_left d.two_le_front _
  have hcodeEnd : (ofText (spell ws ++ cs)).lastCode front.length
      (front.length + d.front.length) = front.length + d.front.length := by
    obtain ⟨n, hn⟩ := Nat.exists_eq_add_of_lt d.two_le_front
    rw [lastCode, Nat.add_sub_cancel_left, hn, lastCodeOf, if_neg]
    · rfl
    · rw [Nat.add_assoc, ← hn, hcode]
      exact Bool.false_ne_true
  have hspelling : (ofText (spell ws ++ cs)).spelling (front.length + 1) = "define" :=
    hkeyword.spelling_letters
  have hspellingName : (ofText (spell ws ++ cs)).spelling (front.length + 2) = d.name :=
    hnameAt.spelling_letters
  simp only [readDirective, hend, hcodeEnd, hspelling, hspellingName,
    is_parenthesis h hline hws, hlength, decide_true, Bool.and_self, if_true]
  rfl

omit hline in
/-- A line begins where its words do. -/
theorem startsLine_definition {w : Word} (hws : ws = Definition.allWords ds ++ w :: back) :
    (ofText (spell ws ++ cs)).startsLine (Definition.allWords ds).length = true := by
  rcases List.eq_nil_or_concat ds with rfl | ⟨ds, e, rfl⟩
  · rfl
  -- the word in front is the last one of the line in front
  rw [List.concat_eq_append, Definition.allWords_concat] at hws ⊢
  generalize Definition.allWords ds ++ e.front = front at hws ⊢
  have hlast : ws = front ++ e.last :: w :: back := by
    rw [hws, List.append_assoc]
    rfl
  have hcode : (ofText (spell ws ++ cs)).isComment front.length = false := by
    rw [(at_front h hlast).isComment_eq, decide_eq_false e.last_code]
  have hstop := (line_front h hlast).2
  have hstart := (line_front h hws).1
  rw [List.length_append, List.length_singleton] at hstart ⊢
  rw [lineEnds_append, lineEnds_cons, lineEnds_nil, e.gap_last, if_pos rfl] at hstart
  have hprevious : (ofText (spell ws ++ cs)).previous? (front.length + 1) = some front.length := by
    rw [previous?, hcode, if_neg Bool.false_ne_true]
  rw [startsLine, hprevious]
  simp only [hstop, hstart]
  exact decide_eq_true (by omega)

/-- **A line is read in one step.** -/
theorem step_definition (hws : ws = Definition.allWords ds ++ (d.words ++ back)) :
    step (ofText (spell ws ++ cs)) o [] (Definition.allWords ds).length =
      ⟨o.readDirective (ofText (spell ws ++ cs)) (Definition.allWords ds).length, [],
        (Definition.allWords (ds ++ [d])).length⟩ := by
  obtain ⟨g, rest, hwords⟩ := d.words_eq
  have hfirst : ws = Definition.allWords ds ++ mark '#' .none ::
      (letters "define" .space :: letters d.name g :: rest ++ back) := by
    rw [hws, hwords]
    rfl
  have hlast : ws = Definition.allWords ds ++ (d.front ++ d.last :: back) := by
    rw [hws, Definition.words, List.append_assoc]
    rfl
  have hhash := at_front h hfirst
  have hstarts := startsLine_definition h hfirst
  have hend := lineEnd_front h hline hlast d.gap_front d.gap_last
  have hcomment : (ofText (spell ws ++ cs)).isComment (Definition.allWords ds).length = false :=
    hhash.isComment_eq
  have hdirective : ((ofText (spell ws ++ cs)).is (Definition.allWords ds).length "#" &&
      (ofText (spell ws ++ cs)).startsLine (Definition.allWords ds).length) = true := by
    rw [hhash.is_eq, hstarts]
    rfl
  unfold step
  simp only [hcomment, Bool.false_eq_true, if_false, hdirective, if_true, hend,
    Definition.length_allWords_concat]

/-- What a line adds to what has been recognised. -/
theorem Defines.readDirective (ho : o.Defines name size (Definition.allWords ds).length ds)
    (hws : ws = Definition.allWords ds ++ (d.words ++ back)) :
    (o.readDirective (ofText (spell ws ++ cs)) (Definition.allWords ds).length).Defines name size
      (Definition.allWords (ds ++ [d])).length (ds ++ [d]) := by
  rw [readDirective_definition h hline hws, Definition.length_allWords_concat]
  have htwo := d.two_le_front
  generalize (Definition.allWords ds).length = n at *
  refine ⟨?_, fun i hi hsize => ?_, ?_, ?_, ho.scopes, ho.moduleName⟩
  · have hdirective := faces_declare o .preprocessingDirective "define" n (n + d.front.length) 0
    rw [ho.faces] at hdirective
    rw [faces_add, List.flatMap_append, List.flatMap_singleton, Definition.faces]
    exact (congrArg (· ++ _) hdirective).trans (List.append_assoc ..)
  · have hnone := ho.owners i (by omega) hsize
    simp only [Outline.add, Outline.claim, Outline.declare, Outline.define, getElem?_claimFrom]
    rw [if_neg (by omega), if_neg (by omega), hnone]
  · simp only [Outline.add, Outline.claim, Outline.declare, Outline.define, size_claimFrom,
      ho.sized]
  · simp only [Outline.add, Outline.claim, Outline.declare, Outline.define, ho.macros,
      List.map_append, List.map_cons, List.map_nil, List.reverse_append]
    rfl

/-! ## All lines -/

/-- Lines that are still to be read are read one by one. -/
theorem comes_lines (todo : List Definition)
    (hws : ws = Definition.allWords ds ++ (Definition.allWords todo ++ back))
    (ho : o.Defines name (ofText (spell ws ++ cs)).size (Definition.allWords ds).length ds) :
    ∃ o', Comes (ofText (spell ws ++ cs)) ⟨o, [], (Definition.allWords ds).length⟩
        ⟨o', [], (Definition.allWords (ds ++ todo)).length⟩ ∧
      o'.Defines name (ofText (spell ws ++ cs)).size (Definition.allWords (ds ++ todo)).length
        (ds ++ todo) := by
  -- one line goes over from those that are left to those that have been read
  induction todo generalizing o ds with
  | nil =>
    rw [List.append_nil]
    exact ⟨o, .refl _, ho⟩
  | cons d todo ih =>
    have hsplit : ws =
        Definition.allWords ds ++ (d.words ++ (Definition.allWords todo ++ back)) := by
      rw [hws, Definition.allWords_cons, List.append_assoc]
    have hnext : ws =
        Definition.allWords (ds ++ [d]) ++ (Definition.allWords todo ++ back) := by
      rw [hsplit, Definition.allWords_concat, Definition.words]
      simp only [List.append_assoc]
    obtain ⟨o', hcomes, ho'⟩ := ih hnext (ho.readDirective h hline hsplit)
    have hlt : (Definition.allWords ds).length < (ofText (spell ws ++ cs)).size := by
      rw [size_behind h hline, hsplit]
      simp only [Definition.words, List.length_append, List.length_singleton]
      omega
    rw [List.append_assoc, List.singleton_append] at hcomes ho'
    refine ⟨o', .step hlt ?_, ho'⟩
    rw [step_definition h hline hsplit]
    exact hcomes

/-- **All lines are read**, and then the text. -/
theorem comes_definitions (name : String) (hws : ws = Definition.allWords ds) :
    ∃ o, Comes (ofText (spell ws ++ cs)) (.first name [] (ofText (spell ws ++ cs)))
        ⟨o, [], (Definition.allWords ds).length⟩ ∧
      o.Defines name (ofText (spell ws ++ cs)).size (Definition.allWords ds).length ds := by
  have hall : ws = Definition.allWords [] ++ (Definition.allWords ds ++ []) := by
    rw [hws, List.append_nil]
    rfl
  refine comes_lines h hline ds hall
    ⟨rfl, fun i _ hi => ?_, Array.size_replicate .., rfl, rfl, rfl⟩
  rw [start, Array.getElem?_replicate, if_pos hi]

end

/-- **Behind the lines it is as before the text is read alone with the macros known.** -/
theorem Defines.ahead (ho : o.Defines name (k + size) k ds) {macros : Macros}
    (hmacros : macros = (ds.map Definition.macro?).reverse) :
    (start name size macros).Ahead k (ds.flatMap Definition.faces) o := by
  refine ⟨⟨_, [], rfl, ?_⟩, fun i => ?_, ho.macros.trans hmacros.symm, ho.scopes, ho.moduleName⟩
  · rw [ho.faces, List.map_nil, List.append_nil]
    rfl
  · by_cases hi : i < size
    · rw [ho.owners (k + i) (Nat.le_add_right k i) (Nat.add_lt_add_left hi k), start,
        Array.getElem?_replicate, if_pos hi]
      rfl
    · rw [Array.getElem?_eq_none (by rw [ho.sized]; omega), start, Array.getElem?_replicate,
        if_neg hi]
      rfl

end Outline

end DocIndex
