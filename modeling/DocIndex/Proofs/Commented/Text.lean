import DocIndex.Proofs.Commented.Lexing
import DocIndex.Proofs.Commented.Reading

/-!
# What a text declares with one comment more

The cursors of a text do not tell of a comment that reading passes over
(`SourceUnit.faces_overlooked`). Reading does not pass over every comment: a class head is looked
through lexeme by lexeme, and a comment in front of its brace makes a variable of the class
(`SourceUnit.faces_classHead`).
-/

namespace DocIndex

/-- What a cursor is, wherever it stands. -/
def Cursor.face (c : Cursor) : Face :=
  ⟨c.kind, c.spelling, c.parent⟩

namespace SourceUnit

/-- What a unit declares, in order. -/
def faces (u : SourceUnit) : List Face :=
  u.cursors.toList.map Cursor.face

end SourceUnit

/-- Reading passes over the comment: nothing is written across it, and it stands where reading comes
to by whole steps, or within a declaration that is read for its shape alone. -/
structure CommentInGap.Overlooked {cs cs' : List Char} (g : CommentInGap cs cs') (fileName : String)
    (macros : Macros) : Prop where
  loose : (Source.ofText cs).Loose g.index
  reads : ∃ r, Outline.Comes (Source.ofText cs)
      ⟨.start fileName (Source.ofText cs).size macros, [], 0⟩ r ∧
    Outline.Reads (Source.ofText cs) (Source.ofText cs') g.index r

namespace SourceUnit

open Outline

theorem faces_unitOf (s : Source) (path : Path) (faults : List (Nat × LexFault)) (o : Outline) :
    (s.unitOf path faults o).faces = (o.drafts.map Draft.face).toList := by
  rw [faces, Source.unitOf, Source.cursorsOf, ← Array.toList_map]
  congr 1
  refine Array.ext_getElem? fun i => ?_
  simp only [Array.getElem?_map, Array.getElem?_mapIdx]
  cases o.drafts[i]? with
  | none => rfl
  | some d =>
    simp only [Option.map_some, Source.cursorOf]
    split <;> rfl

/-- **What a text without flaws declares does not tell of a comment that reading passes over.** -/
theorem faces_overlooked (path : Path) (args : List String) {cs cs' : List Char}
    (g : CommentInGap cs cs') (hg : g.Overlooked path.text (Macros.ofArguments args))
    (hd : (parseText path cs args).diagnostics = []) :
    (parseText path cs' args).faces = (parseText path cs args).faces ∧
      (parseText path cs' args).moduleName = (parseText path cs args).moduleName := by
  obtain ⟨hl, r, hcomes, hreads⟩ := hg
  have hn : (ofSource path.text (Macros.ofArguments args) (Source.ofText cs)).notes = [] := by
    rw [parseText, Source.unitOf, List.append_eq_nil_iff, List.map_eq_nil_iff] at hd
    exact List.map_eq_nil_iff.1 hd.2
  have halike := ofSource_alike g.commented hl path.text (Macros.ofArguments args) hcomes hreads hn
  exact ⟨by rw [parseText, parseText, faces_unitOf, faces_unitOf]; exact congrArg _ halike.faces,
    halike.moduleName⟩

/-- A comment between the parts of a parameter. -/
def parameterComment : CommentInGap "struct S \x7b\n  int f(int x);\n\x7d;\n".toList
    "struct S \x7b\n  int f(int /* c */x);\n\x7d;\n".toList where
  front := (Lexer.stretches "struct S \x7b\n  int f(int x);\n\x7d;\n".toList).take 10
  before := ⟨.lexeme .keyword, "int".toList⟩
  gap := [⟨.blank, [' ']⟩]
  gapFront := [⟨.blank, [' ']⟩]
  gapBack := []
  comment := "/* c */".toList
  after := ⟨.lexeme .identifier, ['x']⟩
  back := (Lexer.stretches "struct S \x7b\n  int f(int x);\n\x7d;\n".toList).drop 13
  cut := by decide +kernel
  cut_commented := by decide +kernel
  isLexeme_before := rfl
  isLexeme_after := rfl
  blank := by decide +kernel
  chars_gap := by decide +kernel
  gap_ne := by decide +kernel
  oneLine := by decide +kernel

theorem faces_parameterComment :
    (parseText ⟨"t.hxx"⟩ "struct S \x7b\n  int f(int /* c */x);\n\x7d;\n".toList []).faces =
        (parseText ⟨"t.hxx"⟩ "struct S \x7b\n  int f(int x);\n\x7d;\n".toList []).faces ∧
      (parseText ⟨"t.hxx"⟩ "struct S \x7b\n  int f(int /* c */x);\n\x7d;\n".toList []).moduleName =
        (parseText ⟨"t.hxx"⟩ "struct S \x7b\n  int f(int x);\n\x7d;\n".toList []).moduleName := by
  refine faces_overlooked ⟨"t.hxx"⟩ [] parameterComment ⟨?_, ?_⟩ (by decide +kernel)
  · exact ⟨by decide +kernel, by decide +kernel, by decide +kernel⟩
  · refine ⟨_, .step (by decide +kernel) (.refl _), ?_⟩
    -- the head of the class has been read, and the method comes next
    refine .within (by decide +kernel) (by decide +kernel) (by decide +kernel)
      (.plain (by decide +kernel) (by decide +kernel)) (by decide +kernel) ?_
    have hword : ∀ m, m < parameterComment.index → (Source.ofText
        "struct S \x7b\n  int f(int x);\n\x7d;\n".toList).spelling m ≠ "operator" := by
      decide +kernel
    exact fun m _ hm => hword m hm

/-- **A comment in front of the brace of a class makes a variable of the class**: what the body
declares is lost. -/
theorem faces_classHead : ∃ (cs cs' : List Char) (g : CommentInGap cs cs'),
    g.comment = "/* c */".toList ∧
      (parseText ⟨"t.hxx"⟩ cs []).faces =
        [⟨.wholeFile, "t.hxx", none⟩, ⟨.structDecl, "S", some 0⟩, ⟨.fieldDecl, "x", some 1⟩] ∧
      (parseText ⟨"t.hxx"⟩ cs' []).faces =
        [⟨.wholeFile, "t.hxx", none⟩, ⟨.varDecl, "S", some 0⟩] := by
  refine ⟨"struct S  \x7b\n  int x;\n\x7d;\n".toList,
    "struct S /* c */ \x7b\n  int x;\n\x7d;\n".toList, ?_⟩
  refine ⟨
    { front := [⟨.lexeme .keyword, "struct".toList⟩, ⟨.blank, [' ']⟩]
      before := ⟨.lexeme .identifier, ['S']⟩
      gap := [⟨.blank, [' ', ' ']⟩]
      gapFront := [⟨.blank, [' ']⟩]
      gapBack := [⟨.blank, [' ']⟩]
      comment := "/* c */".toList
      after := ⟨.lexeme .punctuation, ['\x7b']⟩
      back := (Lexer.stretches "struct S  \x7b\n  int x;\n\x7d;\n".toList).drop 5
      cut := by decide +kernel
      cut_commented := by decide +kernel
      isLexeme_before := rfl
      isLexeme_after := rfl
      blank := by decide +kernel
      chars_gap := by decide +kernel
      gap_ne := by decide +kernel
      oneLine := by decide +kernel }, rfl, ?_, ?_⟩
  · decide +kernel
  · decide +kernel

end SourceUnit

end DocIndex
