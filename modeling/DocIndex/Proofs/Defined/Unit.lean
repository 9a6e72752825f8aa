import DocIndex.Proofs.Defined.Reading

/-!
# Macros that arguments define

A macro may be defined by an argument `-DNAME=v`, or by a line `#define NAME` in front of the text.
Both ways the same is recognised of the text. A value does not matter, nor whether the argument is
split behind `-D`.

Where a text is read in front of its beginning, it finds the lines there: a qualifier is followed
back (`Source.LooksAhead`), a `using` line that ends where it begins is named by the lexeme in
front, and a backslash that begins the text is layout behind a line feed.

* `Definition.passed` — the arguments that define a macro.
* `Macros.definitions_passed` — **the macros that are passed are those that are defined.**
* `SourceUnit.behind_definitions` — **the text is read behind the lines as with the arguments.**
-/

namespace DocIndex

open Lexer

/-! ## Arguments -/

/-- How a macro is passed: in the argument of `-D` or in the one behind it, and with which value. -/
structure Passing where
  inNext : Bool
  value : Option String

namespace Definition

/-- The definition as it is passed, with its value. -/
def withValue (d : Definition) (value : Option String) : String :=
  d.text ++ value.elim "" ("=" ++ ·)

/-- The arguments that define the macro. -/
def passed (d : Definition) (p : Passing) : List String :=
  if p.inNext then ["-D", d.withValue p.value] else ["-D" ++ d.withValue p.value]

theorem not_mem_of_isWord {cs : List Char} (h : IsWord cs) {c : Char} (hc : isWordPart c = false) :
    c ∉ cs := by
  obtain ⟨-, -, -, -, hall⟩ := h
  intro hmem
  rw [hall c hmem] at hc
  cases hc

/-- No parameters are written with a `=`. -/
theorem not_mem_parameters {ps : List String} (hps : ∀ p ∈ ps, IsWord p.toList) :
    '=' ∉ (", ".intercalate ps).toList := by
  rw [← spell_parameterWords]
  fun_induction parameterWords ps with
  | case1 => simp
  | case2 p =>
    have hp := not_mem_of_isWord (hps p List.mem_cons_self) (c := '=') rfl
    simpa [letters, Gap.chars] using hp
  | case3 p q ps ih =>
    have hp := not_mem_of_isWord (hps p List.mem_cons_self) (c := '=') rfl
    have hrest := ih fun r hr => hps r (List.mem_cons_of_mem _ hr)
    rw [spell_cons, spell_cons]
    simpa [letters, mark, Gap.chars] using ⟨hp, hrest⟩

theorem not_mem_text (d : Definition) : '=' ∉ d.text.toList := by
  have hname := not_mem_of_isWord d.isName.isWord (c := '=') rfl
  have hwords := d.areWords
  rw [text]
  cases hp : d.parameters with
  | none => exact hname
  | some ps =>
    have hps := not_mem_parameters (hwords ps hp)
    simp only [String.toList_append, List.mem_append, not_or]
    exact ⟨hname, by simp, hps, by simp⟩

/-- The name is what stands in front of the parentheses. -/
theorem takeWhile_text (d : Definition) :
    d.text.toList.takeWhile (· != '(') = d.name.toList ∧
      d.text.toList.contains '(' = d.parameters.isSome := by
  have hname := not_mem_of_isWord d.isName.isWord (c := '(') rfl
  have hall : ∀ c ∈ d.name.toList, (c != '(') = true := fun c hc =>
    bne_iff_ne.2 fun heq => hname (heq ▸ hc)
  rw [text]
  cases hp : d.parameters with
  | none =>
    refine ⟨?_, by simpa using hname⟩
    have htake : (d.name.toList ++ []).takeWhile (· != '(') =
        d.name.toList ++ [].takeWhile (· != '(') :=
      List.takeWhile_append_of_pos hall
    simpa using htake
  | some ps =>
    refine ⟨?_, by simp⟩
    rw [String.toList_append, List.takeWhile_append_of_pos hall]
    simp

/-- **What is passed tells the name, and whether there are parameters.** -/
theorem ofDefinition?_withValue (d : Definition) (value : Option String) :
    Macros.ofDefinition? (d.withValue value).toList = some d.macro? := by
  have hall : ∀ c ∈ d.text.toList, (c != '=') = true := fun c hc =>
    bne_iff_ne.2 fun heq => d.not_mem_text (heq ▸ hc)
  have hhead : (d.withValue value).toList.takeWhile (· != '=') = d.text.toList := by
    rw [withValue, String.toList_append, List.takeWhile_append_of_pos hall]
    cases value with
    | none => simp
    | some v => simp
  have hname : d.name.toList.isEmpty = false := by
    obtain ⟨c, rest, hchars, -⟩ := d.isName.isWord
    rw [hchars]
    rfl
  rw [Macros.ofDefinition?]
  simp only [hhead, d.takeWhile_text.1, d.takeWhile_text.2, hname, Bool.false_eq_true, if_false,
    String.ofList_toList]
  rfl

theorem withValue_ne_nil (d : Definition) (value : Option String) :
    ∃ c cs, (d.withValue value).toList = c :: cs := by
  obtain ⟨c, rest, hchars, -⟩ := d.isName.isWord
  rw [withValue, text]
  cases d.parameters with
  | none => exact ⟨c, _, by rw [String.toList_append, hchars]; rfl⟩
  | some ps => exact ⟨c, _, by rw [String.toList_append, String.toList_append, hchars]; rfl⟩

end Definition

/-- **The macros that are passed are those that are defined**, in order. -/
theorem Macros.definitions_passed (ds : List (Definition × Passing)) :
    Macros.definitions (ds.flatMap fun d => d.1.passed d.2) =
      ds.map fun d => d.1.macro? := by
  induction ds with
  | nil => rfl
  | cons d ds ih =>
    obtain ⟨d, p⟩ := d
    have hof := d.ofDefinition?_withValue p.value
    rw [List.flatMap_cons, List.map_cons, Definition.passed]
    split
    · have hdash : "-D".toList = ['-', 'D'] := rfl
      rw [List.cons_append, List.singleton_append, Macros.definitions]
      simp only [hdash, hof, ih]
      rfl
    · obtain ⟨c, cs, hchars⟩ := d.withValue_ne_nil p.value
      have hdash : ("-D" ++ d.withValue p.value).toList = '-' :: 'D' :: c :: cs := by
        rw [String.toList_append, hchars]
        rfl
      rw [hchars] at hof
      rw [List.singleton_append, Macros.definitions.eq_def]
      simp only [hdash, hof, ih]
      rfl

/-! ## The text behind the lines -/

/-- Nothing of the text is read with a look at what stands in front of it. -/
structure Standalone (name : String) (macros : Macros) (cs : List Char) : Prop where
  /-- A backslash that begins the text continues a line. -/
  layout : FrontsLine cs
  /-- A `using` that begins the text does not end there. -/
  usingLine : (Source.ofText cs).is 0 "using" = true →
    ((Source.ofText cs).statementEnd 1).index ≠ 0
  /-- Where scopes are known, the scopes of a name are looked for in the text. -/
  qualified : ∀ r, Outline.Comes (.ofText cs) (.first name macros (.ofText cs)) r →
    r.outline.scopes ≠ [] → ∀ n ∈ r.named? (.ofText cs), ¬ (Source.ofText cs).LooksAhead n

namespace Outline

open Source

variable {ds : List Definition} {cs : List Char}

/-- The last word of the lines names no function: it is a parenthesis or the name of a macro. -/
theorem nameless_definitions (hne : ds ≠ []) (hlayout : FrontsLine cs) :
    Nameless (Definition.allWords ds).length (ofText cs)
      (ofText (spell (Definition.allWords ds) ++ cs)) (ds.map Definition.macro?).reverse 0 := by
  intro _
  rcases List.eq_nil_or_concat ds with rfl | ⟨ds, d, rfl⟩
  · exact absurd rfl hne
  rw [List.concat_eq_append]
  have h := Definition.leads_allWords (ds ++ [d]) (layoutTail_of_frontsLine hlayout)
  have hat := at_front h (Definition.allWords_concat ds d)
  rw [length_pred (Definition.allWords_concat ds d), mayNameFunction, hat.isIdentifier_eq,
    hat.spelling, d.kind_last, d.spelling_last]
  cases hp : d.parameters with
  | none =>
    simp [Definition.macro?]
  | some ps => rfl

/-- **Behind the lines the same is recognised as with the macros known.** -/
theorem ahead_definitions (name : String) (hne : ds ≠ [])
    (halone : Standalone name (ds.map Definition.macro?).reverse cs) :
    (ofSource name (ds.map Definition.macro?).reverse (ofText cs)).Ahead
      (Definition.allWords ds).length (ds.flatMap Definition.faces)
      (ofSource name [] (ofText (spell (Definition.allWords ds) ++ cs))) := by
  have h := Definition.leads_allWords ds (layoutTail_of_frontsLine halone.layout)
  have hline := Definition.gapBehind_allWords hne
  obtain ⟨o, hcomes, ho⟩ := comes_definitions h hline name rfl
  have hsize := size_behind h hline
  rw [hsize] at ho
  have hahead := ho.ahead rfl
  have hread : ofSource name [] (ofText (spell (Definition.allWords ds) ++ cs)) =
      readFrom (ofText (spell (Definition.allWords ds) ++ cs)) o []
        (Definition.allWords ds).length :=
    readFrom_comes hcomes
  rw [hread, ofSource]
  rcases Nat.eq_zero_or_pos (ofText cs).size with hzero | hpos
  · -- there is nothing behind the lines
    have hend {s : Source} {o : Outline} {i : Nat} (hi : s.size = i) : readFrom s o [] i = o := by
      rw [readFrom, if_neg (Nat.not_lt_of_le (Nat.le_of_eq hi))]
      rfl
    rw [hend hzero, hend (hsize.trans (by rw [hzero, Nat.add_zero]))]
    exact hahead
  · obtain ⟨front, d, -, hlast⟩ := Definition.exists_last hne
    have hsource := ahead_behind h hline hpos hlast d.last_code d.last_closed
      (Definition.no_angles ds)
    have hfirst : Reading.Ahead (Definition.allWords ds).length (ds.flatMap Definition.faces)
        (.first name (ds.map Definition.macro?).reverse (ofText cs))
        ⟨o, [], (Definition.allWords ds).length⟩ :=
      ⟨hahead, rfl, rfl⟩
    exact readFrom_ahead hsource hfirst (nameless_definitions hne halone.layout) halone.usingLine
      halone.qualified

end Outline

/-! ## Units -/

namespace SourceUnit

open Outline Source

/-- The second unit is the first one behind `k` tokens and the cursors `front`, which stand behind
that of the file: cursors and owners have other numbers. -/
structure Behind (k : Nat) (front : List Face) (u v : SourceUnit) : Prop where
  faces : v.faces = u.faces.take 1 ++ (front ++ (u.faces.drop 1).map (Face.behind front.length))
  size : v.tokens.size = k + u.tokens.size
  tokens : ∀ (i : Nat) (t : Token), u.tokens[i]? = some t → ∃ t', v.tokens[k + i]? = some t' ∧
    t'.spelling = t.spelling ∧ t'.kind = t.kind ∧ t'.cursor = .behind front.length t.cursor
  moduleName : v.moduleName = u.moduleName

theorem Behind.refl (u : SourceUnit) : u.Behind 0 [] u := by
  have hid (id : CursorId) : CursorId.behind 0 id = id := by
    rw [CursorId.behind]
    split
    · rename_i hzero
      exact hzero.symm
    · exact Nat.zero_add id
  have hface : Face.behind 0 = id := by
    funext f
    rw [Face.behind, show CursorId.behind 0 = id from funext hid, Option.map_id]
    rfl
  refine ⟨?_, (Nat.zero_add _).symm, fun i t ht => ⟨t, ?_, rfl, rfl, (hid _).symm⟩, rfl⟩
  · rw [List.length_nil, hface, List.map_id, List.nil_append, List.take_append_drop]
  · rw [Nat.zero_add]
    exact ht

/-- Units are told apart by their outlines and lexemes. -/
theorem behind_unitOf {s s' : Source} {k : Nat} {front : List Face} {o o' : Outline}
    (ho : o.Ahead k front o') (hsize : s'.size = k + s.size)
    (hspelling : ∀ i, s'.spelling (k + i) = s.spelling i)
    (hkind : ∀ i, s'.kind? (k + i) = s.kind? i) (path : Path)
    (faults faults' : List (Nat × LexFault)) :
    (s.unitOf path faults o).Behind k front (s'.unitOf path faults' o') := by
  refine ⟨?_, ?_, fun i t ht => ?_, ho.moduleName⟩
  · obtain ⟨root, rest, hfaces, hfaces'⟩ := ho.faces
    rw [faces_unitOf, faces_unitOf, Array.toList_map, Array.toList_map]
    rw [Outline.faces] at hfaces hfaces'
    rw [hfaces, hfaces']
    rfl
  · rw [unitOf, unitOf, Array.size_mapIdx, Array.size_mapIdx]
    exact hsize
  · rw [unitOf, Array.getElem?_mapIdx, Option.map_eq_some_iff] at ht
    obtain ⟨l, hl, rfl⟩ := ht
    have hlt : k + i < s'.lexemes.size := by
      have hi := (Array.getElem?_eq_some_iff.1 hl).1
      exact Nat.lt_of_lt_of_eq (Nat.add_lt_add_left hi k) hsize.symm
    have hl' : s'.lexemes[k + i]? = some s'.lexemes[k + i] := Array.getElem?_eq_getElem hlt
    have hs := hspelling i
    have hk := hkind i
    have howner := ho.owners i
    rw [Source.spelling, Source.spelling, hl, hl'] at hs
    rw [kind?, kind?, hl, hl'] at hk
    refine ⟨s'.tokenOf o' (k + i) s'.lexemes[k + i], ?_, hs, Option.some.inj hk, ?_⟩
    · rw [unitOf, Array.getElem?_mapIdx, hl']
      rfl
    · simp only [tokenOf, Array.getD_eq_getD_getElem?, howner]
      cases o.owners[i]? with
      | none => rfl
      | some owner => cases owner <;> rfl

/-- **A text is read behind lines that define macros as it is read alone with the arguments that
define them**, whatever their values, if it stands alone. -/
theorem behind_definitions (path : Path) (ds : List (Definition × Passing)) (cs : List Char)
    (halone : Standalone path.text (Macros.ofArguments (ds.flatMap fun d => d.1.passed d.2)) cs) :
    (parseText path cs (ds.flatMap fun d => d.1.passed d.2)).Behind
      (Definition.allWords (ds.map Prod.fst)).length
      ((ds.map Prod.fst).flatMap Definition.faces)
      (parseText path (Definition.lines (ds.map Prod.fst) ++ cs) []) := by
  have hmacros : Macros.ofArguments (ds.flatMap fun d => d.1.passed d.2) =
      ((ds.map Prod.fst).map Definition.macro?).reverse := by
    rw [Macros.ofArguments, Macros.definitions_passed, List.map_map]
    rfl
  rw [hmacros] at halone
  rw [parseText, hmacros, ← Definition.spell_allWords]
  generalize ds.map Prod.fst = ds at *
  by_cases hne : ds = []
  · subst hne
    exact .refl _
  have h := Definition.leads_allWords ds (layoutTail_of_frontsLine halone.layout)
  have hline := Definition.gapBehind_allWords hne
  exact behind_unitOf (ahead_definitions path.text hne halone) (size_behind h hline)
    (spelling_behind h hline) (kind?_behind h hline) path _ _

/-- A macro that is called, and one that is not, with a text that undefines one of them. -/
theorem behind_calledMacro :
    (parseText ⟨"t.hxx"⟩ "API int f(CALL(1));\n#undef API\nint API(int x);\n".toList
        ["-DAPI=1", "-D", "CALL(x, y)=x = y"]).Behind 11
      [⟨.preprocessingDirective, "define", some 0⟩, ⟨.macroDefinition, "API", some 0⟩,
        ⟨.preprocessingDirective, "define", some 0⟩, ⟨.macroDefinition, "CALL", some 0⟩]
      (parseText ⟨"t.hxx"⟩ ("#define API\n#define CALL(x, y)\n".toList ++
        "API int f(CALL(1));\n#undef API\nint API(int x);\n".toList) []) := by
  have hx : IsWord "x".toList := isWord_of_all rfl rfl rfl
  have hy : IsWord "y".toList := isWord_of_all rfl rfl rfl
  have hwords : ∀ ps ∈ some ["x", "y"], ∀ p ∈ ps, IsWord p.toList := by
    rintro _ ⟨⟩ p hp
    simp only [List.mem_cons, List.not_mem_nil, or_false] at hp
    rcases hp with rfl | rfl
    · exact hx
    · exact hy
  have hplain : IsName "API" := ⟨isWord_of_all rfl rfl rfl, by decide⟩
  have hcalled : IsName "CALL" := ⟨isWord_of_all rfl rfl rfl, by decide⟩
  have halone : Standalone "t.hxx" (Macros.ofArguments ["-DAPI=1", "-D", "CALL(x, y)=x = y"])
      "API int f(CALL(1));\n#undef API\nint API(int x);\n".toList := by
    refine ⟨fun rest hcs => ?_, fun husing => ?_, fun _ _ _ _ _ hlook => ?_⟩
    · cases hcs
    · exact absurd husing (by decide +kernel)
    · exact absurd hlook.1 (by decide +kernel)
  have hbehind := behind_definitions ⟨"t.hxx"⟩
    [(⟨"API", none, hplain, nofun⟩, ⟨false, some "1"⟩),
      (⟨"CALL", some ["x", "y"], hcalled, hwords⟩, ⟨true, some "x = y"⟩)]
    "API int f(CALL(1));\n#undef API\nint API(int x);\n".toList halone
  have hlines : Definition.lines [⟨"API", none, hplain, nofun⟩,
      ⟨"CALL", some ["x", "y"], hcalled, hwords⟩] = "#define API\n#define CALL(x, y)\n".toList := by
    simp [Definition.lines, Definition.line, Definition.text]
  rw [List.map_cons, List.map_cons, List.map_nil, hlines] at hbehind
  exact hbehind

/-- A class behind a `<`, and a function that is qualified by nothing. -/
def openedText : List Char :=
  "<;\nstruct N \x7b\x7d;\nint a > ::f();\n".toList

/-- **A qualifier is followed back past the beginning of the text**: with the argument the function
belongs to no class, and with the line to the class whose name the line defines. -/
theorem faces_qualifiedAhead : ∃ d : Definition,
    d.passed ⟨false, none⟩ = ["-DN"] ∧ d.line = "#define N\n".toList ∧
      (parseText ⟨"t.hxx"⟩ openedText ["-DN"]).faces =
        [⟨.wholeFile, "t.hxx", none⟩, ⟨.unexposedDecl, "", some 0⟩, ⟨.structDecl, "N", some 0⟩,
          ⟨.functionDecl, "f", some 0⟩] ∧
      (parseText ⟨"t.hxx"⟩ ("#define N\n".toList ++ openedText) []).faces =
        [⟨.wholeFile, "t.hxx", none⟩, ⟨.preprocessingDirective, "define", some 0⟩,
          ⟨.macroDefinition, "N", some 0⟩, ⟨.unexposedDecl, "", some 0⟩,
          ⟨.structDecl, "N", some 0⟩, ⟨.method, "f", some 4⟩] ∧
      ¬ (parseText ⟨"t.hxx"⟩ openedText ["-DN"]).Behind 3 d.faces
        (parseText ⟨"t.hxx"⟩ ("#define N\n".toList ++ openedText) []) := by
  have halone : (parseText ⟨"t.hxx"⟩ openedText ["-DN"]).faces =
      [⟨.wholeFile, "t.hxx", none⟩, ⟨.unexposedDecl, "", some 0⟩, ⟨.structDecl, "N", some 0⟩,
        ⟨.functionDecl, "f", some 0⟩] := by
    decide +kernel
  have hbehind : (parseText ⟨"t.hxx"⟩ ("#define N\n".toList ++ openedText) []).faces =
      [⟨.wholeFile, "t.hxx", none⟩, ⟨.preprocessingDirective, "define", some 0⟩,
        ⟨.macroDefinition, "N", some 0⟩, ⟨.unexposedDecl, "", some 0⟩,
        ⟨.structDecl, "N", some 0⟩, ⟨.method, "f", some 4⟩] := by
    decide +kernel
  have hname : IsName "N" := ⟨isWord_of_all rfl rfl rfl, by decide⟩
  refine ⟨⟨"N", none, hname, nofun⟩, rfl, rfl, halone, hbehind, fun h => ?_⟩
  have hfaces := h.faces
  rw [halone, hbehind] at hfaces
  simp [Definition.faces, Face.behind] at hfaces

end SourceUnit

end DocIndex
