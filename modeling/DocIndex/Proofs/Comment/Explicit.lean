import DocIndex.Proofs.Comment.Scanned

/-!
# Directives that are spelled out

The first line of a comment may spell out a directive: behind the mark and blanks stands a name,
then two colons, then the argument. Where the name ends is not plain, since it may hold colons
itself: it is as short as it can be.

* `DirectiveName` — what a name may look like; `directiveName_iff` says the same by comparison with
  all other stretches that two colons stand behind.
* `splitDirective_eq_some_iff` — the reader finds that name.
* `SpellsOut` — a line that spells out a directive.
* `Comment.explicit_of_first_line` — **what is taken off a comment**, and that it is read again when
  it is written anew.
-/

namespace DocIndex

open Text

theorem Text.mem_of_mem_trim {c : Char} {cs : List Char} (h : c ∈ trim cs) : c ∈ cs := by
  rw [trim_eq] at h
  exact (List.dropWhile_sublist _).mem ((List.rdropWhile_prefix _ _).mem h)

/-! ## Names -/

/-- A name in front of two colons, of which `before` has been read: no blank stands in it, and two
colons stand in it nowhere behind its first character. -/
structure DirectiveName (before name : List Char) : Prop where
  nonempty : before ++ name ≠ []
  unbroken : ∀ c ∈ name, isBlank c = false
  shortest : ∀ front back : List Char, before ++ front ≠ [] →
    name ++ [':'] ≠ front ++ ':' :: ':' :: back

/-- **A name is the shortest stretch that two colons stand behind**, whatever follows them. -/
theorem directiveName_iff {name : List Char} (rest : List Char) :
    DirectiveName [] name ↔ name ≠ [] ∧ (∀ c ∈ name, isBlank c = false) ∧
      ∀ front back, front ≠ [] → name ++ ':' :: ':' :: rest = front ++ ':' :: ':' :: back →
        name.length ≤ front.length := by
  constructor
  · intro h
    refine ⟨h.nonempty, h.unbroken, fun front back hfront heq => ?_⟩
    by_contra hlt
    rcases List.append_eq_append_iff.1 heq with ⟨more, rfl, -⟩ | ⟨more, rfl, hmore⟩
    · simp at hlt
    match more, hmore with
    | [], _ => simp at hlt
    | [c], hmore =>
      obtain ⟨rfl, -⟩ := List.cons_eq_cons.1 hmore
      exact h.shortest front [] hfront (by simp)
    | c :: d :: more, hmore =>
      obtain ⟨rfl, hnext⟩ := List.cons_eq_cons.1 hmore
      obtain ⟨rfl, -⟩ := List.cons_eq_cons.1 hnext
      exact h.shortest front (more ++ [':']) hfront (by simp)
  · rintro ⟨hne, hblank, hshort⟩
    refine ⟨hne, hblank, fun front back hfront heq => ?_⟩
    have hlength := congrArg List.length heq
    simp only [List.length_append, List.length_cons, List.length_nil] at hlength
    have hle := hshort front (back ++ ':' :: rest) hfront (by
      rw [List.append_cons name, heq]
      simp)
    omega

/-- A stretch of a name that has been read is told by what has been read. -/
theorem directiveName_cons {before name : List Char} {c : Char} :
    DirectiveName before (c :: name) ↔ isBlank c = false ∧
      ¬ (before ≠ [] ∧ c = ':' ∧ (name ++ [':']).head? = some ':') ∧
        DirectiveName (c :: before) name := by
  constructor
  · intro h
    refine ⟨h.unbroken c List.mem_cons_self, ?_, ⟨List.cons_ne_nil _ _,
      fun d hd => h.unbroken d (List.mem_cons_of_mem c hd), fun front back _ heq =>
      h.shortest (c :: front) back (by simp) (congrArg (List.cons c) heq)⟩⟩
    rintro ⟨hbefore, rfl, hhead⟩
    obtain ⟨back, hback⟩ := List.head?_eq_some_iff.1 hhead
    exact h.shortest [] back (by simpa using hbefore)
      (congrArg (List.cons ':') hback)
  · rintro ⟨hc, hstop, h⟩
    refine ⟨by simp, List.forall_mem_cons.2 ⟨hc, h.unbroken⟩, fun front back hfront heq => ?_⟩
    cases front with
    | nil =>
      obtain ⟨rfl, hname⟩ := List.cons_eq_cons.1 heq
      refine hstop ⟨by simpa using hfront, rfl, ?_⟩
      exact (congrArg List.head? hname).trans rfl
    | cons d front =>
      exact h.shortest front back (List.cons_ne_nil _ _) (List.cons_eq_cons.1 heq).2

theorem directiveName_nil {before : List Char} : DirectiveName before [] ↔ before ≠ [] := by
  constructor
  · intro h
    simpa using h.nonempty
  · intro hbefore
    refine ⟨by simpa using hbefore, by simp, fun front back _ heq => ?_⟩
    have hlength := congrArg List.length heq
    simp only [List.length_append, List.length_cons, List.length_nil] at hlength
    omega

theorem head?_append_colons (own rest : List Char) :
    (own ++ ':' :: ':' :: rest).head? = (own ++ [':']).head? := by
  cases own <;> rfl

/-- Where no two colons end the name, the name holds the next character. -/
theorem DirectiveName.exists_cons {before own cs rest : List Char} {c : Char}
    (h : DirectiveName before own) (hgoes : ¬(before ≠ [] ∧ c = ':' ∧ cs.head? = some ':'))
    (heq : c :: cs = own ++ ':' :: ':' :: rest) :
    ∃ more, own = c :: more ∧ cs = more ++ ':' :: ':' :: rest := by
  cases own with
  | nil =>
    obtain ⟨rfl, rfl⟩ := List.cons_eq_cons.1 heq
    exact absurd ⟨directiveName_nil.1 h, rfl, rfl⟩ hgoes
  | cons d own =>
    obtain ⟨rfl, rfl⟩ := List.cons_eq_cons.1 heq
    exact ⟨own, rfl, rfl⟩

/-- Where two colons end the name, it holds nothing more. -/
theorem DirectiveName.eq_nil {before own cs rest : List Char} {c : Char}
    (h : DirectiveName before own) (hends : before ≠ [] ∧ c = ':' ∧ cs.head? = some ':')
    (heq : c :: cs = own ++ ':' :: ':' :: rest) : own = [] := by
  cases own with
  | nil => rfl
  | cons d own =>
    obtain ⟨rfl, rfl⟩ : c = d ∧ cs = own ++ ':' :: ':' :: rest := List.cons_eq_cons.1 heq
    rw [head?_append_colons] at hends
    exact absurd hends (directiveName_cons.1 h).2.1

/-- **The reader finds the name and the argument behind it.** -/
theorem splitDirective_eq_some_iff {before text name argument : List Char} (hline : '\n' ∉ text) :
    splitDirective before text = some (name, argument) ↔
      ∃ own rest, text = own ++ ':' :: ':' :: rest ∧ DirectiveName before own ∧
        name = before.reverse ++ own ∧ argument = trim rest := by
  induction text generalizing before with
  | nil => simp [splitDirective]
  | cons c cs ih =>
    have hcs : '\n' ∉ cs := fun h => hline (List.mem_cons_of_mem c h)
    have hrest : (trim (cs.drop 1)).contains '\n' = false := by
      simpa using fun h => hcs ((List.drop_sublist 1 cs).mem (mem_of_mem_trim h))
    rw [splitDirective]
    simp only [hrest, Bool.not_false, Bool.and_true, Bool.and_eq_true, Bool.not_eq_true',
      List.isEmpty_eq_false_iff, decide_eq_true_eq, beq_iff_eq, and_assoc]
    split
    · -- the two colons here end the name
      rename_i hends
      constructor
      · rintro h
        cases h
        obtain ⟨hbefore, rfl, hcolon⟩ := hends
        obtain ⟨rest, rfl⟩ := List.head?_eq_some_iff.1 hcolon
        exact ⟨[], rest, rfl, directiveName_nil.2 hbefore, by simp, rfl⟩
      · rintro ⟨own, rest, heq, hname, rfl, rfl⟩
        obtain rfl := hname.eq_nil hends heq
        obtain ⟨-, rfl⟩ := List.cons_eq_cons.1 heq
        simp
    rename_i hgoes
    split
    · rename_i hblank
      simp only [reduceCtorEq, false_iff]
      rintro ⟨own, rest, heq, hname, -, -⟩
      obtain ⟨more, rfl, -⟩ := hname.exists_cons hgoes heq
      rw [(directiveName_cons.1 hname).1] at hblank
      cases hblank
    · rename_i hblank
      rw [ih hcs]
      constructor
      · rintro ⟨own, rest, rfl, hname, rfl, rfl⟩
        rw [head?_append_colons] at hgoes
        exact ⟨c :: own, rest, rfl, directiveName_cons.2 ⟨by simpa using hblank, hgoes, hname⟩,
          by simp, rfl⟩
      · rintro ⟨own, rest, heq, hname, rfl, rfl⟩
        obtain ⟨more, rfl, rfl⟩ := hname.exists_cons hgoes heq
        exact ⟨more, rest, rfl, (directiveName_cons.1 hname).2.2, by simp, rfl⟩

/-! ## Lines -/

/-- A line that spells out a directive: behind the mark and blanks stand a name, two colons, and
whatever else the line holds. The name is the shortest stretch that two colons stand behind. -/
structure SpellsOut (line name rest : List Char) : Prop where
  line_eq : ∃ blanks, blanks ≠ [] ∧ (∀ c ∈ blanks, isBlank c = true) ∧
    line = "///..".toList ++ blanks ++ name ++ ':' :: ':' :: rest
  nonempty : name ≠ []
  unbroken : ∀ c ∈ name, isBlank c = false
  shortest : ∀ front back, front ≠ [] →
    name ++ ':' :: ':' :: rest = front ++ ':' :: ':' :: back → name.length ≤ front.length

theorem spellsOut_iff {line name rest : List Char} :
    SpellsOut line name rest ↔ DirectiveName [] name ∧
      ∃ blanks, blanks ≠ [] ∧ (∀ c ∈ blanks, isBlank c = true) ∧
        line = "///..".toList ++ blanks ++ name ++ ':' :: ':' :: rest :=
  ⟨fun h => ⟨(directiveName_iff rest).2 ⟨h.nonempty, h.unbroken, h.shortest⟩, h.line_eq⟩,
    fun ⟨hname, hline⟩ => have h := (directiveName_iff rest).1 hname
      ⟨hline, h.1, h.2.1, h.2.2⟩⟩

/-- Behind blanks, the text begins with what is none. -/
theorem Text.trimStart_blanks {blanks text : List Char} (hblanks : ∀ c ∈ blanks, isBlank c = true)
    (htext : ∀ c ∈ text.head?, isBlank c = false) : trimStart (blanks ++ text) = text := by
  rw [trimStart, List.dropWhile_append_of_pos hblanks]
  cases text with
  | nil => rfl
  | cons c text => rw [List.dropWhile_cons_of_neg (by simpa using htext c)]

/-- **A line gives a directive exactly if it spells one out**, and then that one. -/
theorem Comment.directiveOfLine?_eq_some_iff {line : String} (hline : '\n' ∉ line.toList)
    {e : ExplicitDirective} :
    directiveOfLine? line = some e ↔ ∃ name rest, SpellsOut line.toList name rest ∧
      e = ⟨Directive.parse (String.ofList name), String.ofList (trim rest)⟩ := by
  have hmark : "///..".toList = ['/', '/', '/', '.', '.'] := rfl
  unfold directiveOfLine? announcesDirective
  rw [hmark]
  constructor
  · intro h
    split at h
    case isFalse => cases h
    rename_i hannounced
    obtain ⟨text, htext⟩ := List.isPrefixOf_iff_prefix.1 hannounced
    rw [← htext] at h hline ⊢
    rw [show (['/', '/', '/', '.', '.'] ++ text).drop 5 = text from rfl] at h
    cases text with
    | nil => cases h
    | cons c cs =>
      simp only at h
      split at h
      case isFalse => cases h
      rename_i hblank
      obtain ⟨⟨name, argument⟩, hsplit, rfl⟩ := Option.map_eq_some_iff.1 h
      have hcs : '\n' ∉ trimStart cs := fun hmem => hline (List.mem_append_right _
        (List.mem_cons_of_mem c ((List.dropWhile_sublist _).mem hmem)))
      obtain ⟨own, rest, hown, hname, hfound, rfl⟩ := (splitDirective_eq_some_iff hcs).1 hsplit
      rw [List.reverse_nil, List.nil_append] at hfound
      subst hfound
      refine ⟨name, rest, spellsOut_iff.2 ⟨hname, c :: cs.takeWhile isBlank, List.cons_ne_nil _ _,
        List.forall_mem_cons.2 ⟨hblank, fun d hd => List.mem_takeWhile_imp hd⟩, ?_⟩, rfl⟩
      have hcut : cs = cs.takeWhile isBlank ++ trimStart cs :=
        List.takeWhile_append_dropWhile.symm
      rw [hown] at hcut
      simp only [hmark, List.append_assoc, List.cons_append, ← hcut]
  · rintro ⟨name, rest, hspells, rfl⟩
    obtain ⟨hname, blanks, hne, hblanks, htext⟩ := spellsOut_iff.1 hspells
    rw [htext] at hline
    obtain ⟨c, blanks, rfl⟩ := List.exists_cons_of_ne_nil hne
    have htrim :
        trimStart (blanks ++ (name ++ ':' :: ':' :: rest)) = name ++ ':' :: ':' :: rest := by
      apply trimStart_blanks (List.forall_mem_cons.1 hblanks).2
      intro d hd
      cases name with
      | nil => exact absurd rfl hspells.nonempty
      | cons a name =>
        obtain rfl : a = d := by simpa using hd
        exact hspells.unbroken a List.mem_cons_self
    have hsplit : splitDirective [] (name ++ ':' :: ':' :: rest) = some (name, trim rest) :=
      (splitDirective_eq_some_iff fun hmem => hline (by simp [hmem])).2
        ⟨name, rest, rfl, hname, by simp, rfl⟩
    have hdrop : ("///..".toList ++ c :: blanks ++ name ++ ':' :: ':' :: rest).drop 5 =
        c :: (blanks ++ (name ++ ':' :: ':' :: rest)) := by
      rw [hmark]
      simp
    rw [htext, hdrop, if_pos]
    · simp only [(List.forall_mem_cons.1 hblanks).1, if_true, htrim, hsplit, Option.map_some]
    · rw [hmark, List.isPrefixOf_iff_prefix]
      simp

/-! ## Comments -/

/-- How a directive is spelled out. -/
def directiveLine (name argument : String) : String :=
  "///.. " ++ name ++ ":: " ++ argument

theorem directiveName_of_colonFree {name : List Char} (hne : name ≠ [])
    (hunbroken : name.any isBlank = false) (hfree : ':' ∉ name) : DirectiveName [] name := by
  refine ⟨hne, by simpa using hunbroken, fun front back _ heq => ?_⟩
  -- there is but one colon on the left
  have hcount := congrArg (List.count ':') heq
  simp only [List.count_append, List.count_eq_zero.2 hfree, List.count_cons_self] at hcount
  simp only [List.count_nil] at hcount
  omega

/-- A directive's own name does for the name that it was read from. -/
theorem DirectiveName.parse {name : List Char} (h : DirectiveName [] name) :
    DirectiveName [] (Directive.parse (String.ofList name)).name.toList := by
  have hhead : trimStart name = name := by
    have hblanks : trimStart ([] ++ name) = name := trimStart_blanks (by simp) fun c hc =>
      h.unbroken c (List.mem_of_mem_head? hc)
    exact hblanks
  have htrim : trim name = name := by
    rw [trim, hhead, trimEnd, ← trimStart, ← List.nil_append name.reverse,
      trimStart_blanks (by simp) fun c hc =>
        h.unbroken c (List.mem_reverse.1 (List.mem_of_mem_head? hc)),
      List.reverse_reverse]
  rw [Directive.parse, String.toList_ofList, htrim]
  cases hknown : Directive.ofBareName? (String.ofList (Directive.dropDomain name)) with
  | none => simpa [Directive.name] using h
  | some d =>
    unfold Directive.ofBareName? at hknown
    rw [Option.getD_some]
    split at hknown <;> cases hknown <;>
      exact directiveName_of_colonFree (by decide) (by decide) (by decide)

namespace Comment

/-- **A line that is made up of a name and an argument gives them back.** -/
theorem directiveOfLine?_directiveLine {name argument : List Char} (hname : DirectiveName [] name)
    (hargument : '\n' ∉ argument) (htrim : trim argument = argument) :
    directiveOfLine? (directiveLine (String.ofList name) (String.ofList argument)) =
      some ⟨Directive.parse (String.ofList name), String.ofList argument⟩ := by
  have hline : '\n' ∉ (directiveLine (String.ofList name) (String.ofList argument)).toList := by
    have hfree : '\n' ∉ name := fun hmem => Bool.noConfusion (hname.unbroken _ hmem)
    simp only [directiveLine, String.toList_append, String.toList_ofList, List.mem_append, not_or]
    exact ⟨⟨⟨by decide, hfree⟩, by decide⟩, hargument⟩
  have hspells : SpellsOut (directiveLine (String.ofList name) (String.ofList argument)).toList name
      (' ' :: argument) := by
    have hblank : isBlank ' ' = true := by decide
    refine spellsOut_iff.2 ⟨hname, [' '], List.cons_ne_nil _ _, by simpa using hblank, ?_⟩
    simp only [directiveLine, String.toList_append, String.toList_ofList, List.append_assoc]
    rfl
  have hblank : trim (' ' :: argument) = argument := (congrArg trimEnd rfl).trans htrim
  refine (directiveOfLine?_eq_some_iff hline).2 ⟨name, ' ' :: argument, hspells, ?_⟩
  rw [hblank]

/-- Takes the directive that the first line spells out off a comment. -/
def takeExplicit (c : Comment) : Option ExplicitDirective × Comment :=
  match c.explicit? with
  | some (e, c') => (some e, c')
  | none => (none, c)

/-- What is taken off is what the first line gives. -/
theorem takeExplicit_eq (c : Comment) {line : String} {lines : List String}
    (htext : c.text = line :: lines) :
    c.takeExplicit = ((directiveOfLine? line).elim (none, c)
      fun e => (some e, { c with text := lines })) := by
  unfold takeExplicit explicit?
  rw [htext]
  cases h : directiveOfLine? line <;> simp only [h, Option.map_none, Option.map_some, Option.elim]

/-- What the first line spells out is taken off, and the line with it. -/
theorem takeExplicit_of_spellsOut {c : Comment} {line : String} {lines : List String}
    {name rest : List Char} (htext : c.text = line :: lines) (hline : '\n' ∉ line.toList)
    (hspells : SpellsOut line.toList name rest) :
    c.takeExplicit = (some ⟨Directive.parse (String.ofList name), String.ofList (trim rest)⟩,
      { c with text := lines }) := by
  have he := (directiveOfLine?_eq_some_iff hline).2 ⟨name, rest, hspells, rfl⟩
  rw [takeExplicit_eq c htext, he]
  rfl

/-- Nothing else is taken off. -/
theorem exists_spellsOut_of_takeExplicit {c : Comment}
    (hline : ∀ line ∈ c.text.head?, '\n' ∉ line.toList) (hsome : c.takeExplicit.1.isSome) :
    ∃ line lines name rest, c.text = line :: lines ∧ SpellsOut line.toList name rest := by
  cases htext : c.text with
  | nil =>
    rw [takeExplicit, explicit?, htext] at hsome
    cases hsome
  | cons line lines =>
    rw [takeExplicit_eq c htext] at hsome
    cases he : directiveOfLine? line with
    | none =>
      rw [he] at hsome
      cases hsome
    | some e =>
      have hfree : '\n' ∉ line.toList := hline line (by rw [htext]; rfl)
      obtain ⟨name, rest, hspells, -⟩ := (directiveOfLine?_eq_some_iff hfree).1 he
      exact ⟨line, lines, name, rest, rfl, hspells⟩

theorem takeExplicit_of_none {c : Comment} (hnone : c.takeExplicit.1 = none) :
    c.takeExplicit.2 = c := by
  unfold takeExplicit at hnone ⊢
  split
  · rename_i h
    rw [h] at hnone
    cases hnone
  · rfl

/-- What a line spells out may be spelled out anew, by the name that was found or by the directive's
own. -/
theorem directiveOfLine?_again {line name rest : List Char} (hline : '\n' ∉ line)
    (hspells : SpellsOut line name rest) {spelled : String}
    (hspelled : spelled ∈ [String.ofList name, (Directive.parse (String.ofList name)).name]) :
    directiveOfLine? (directiveLine spelled (String.ofList (trim rest))) =
      some ⟨Directive.parse (String.ofList name), String.ofList (trim rest)⟩ := by
  have hrest : '\n' ∉ trim rest := by
    obtain ⟨blanks, -, -, hsplit⟩ := hspells.line_eq
    intro hmem
    apply hline
    rw [hsplit]
    exact List.mem_append_right _ (List.mem_cons_of_mem _ (List.mem_cons_of_mem _
      (mem_of_mem_trim hmem)))
  have hname := (spellsOut_iff.1 hspells).1
  rw [List.mem_cons, List.mem_singleton] at hspelled
  rcases hspelled with rfl | rfl
  · exact directiveOfLine?_directiveLine hname hrest (trim_trim rest)
  · have hown := directiveOfLine?_directiveLine hname.parse hrest (trim_trim rest)
    rwa [String.ofList_toList, Directive.parse_name_parse] at hown

/-- **A directive is taken off a comment exactly if the first line spells one out.** It is the one
that the name stands for, with the rest of the line as its argument, less outer blanks; the first
line is gone, and nothing else has changed. If none is taken off, nothing has changed at all. What
was taken off is taken off again when it is spelled out anew, by the name that was found or by the
directive's own. -/
theorem explicit_of_first_line (c : Comment)
    (hline : ∀ line ∈ c.text.head?, '\n' ∉ line.toList) :
    (c.takeExplicit.1.isSome ↔
        ∃ line lines name rest, c.text = line :: lines ∧ SpellsOut line.toList name rest) ∧
      (c.takeExplicit.1 = none → c.takeExplicit.2 = c) ∧
      ∀ line lines name rest, c.text = line :: lines → SpellsOut line.toList name rest →
        c.takeExplicit =
          (some ⟨Directive.parse (String.ofList name), String.ofList (trim rest)⟩,
            { c with text := lines }) ∧
        ∀ spelled ∈ [String.ofList name, (Directive.parse (String.ofList name)).name],
          ∀ (d : Comment) (more : List String),
            d.text = directiveLine spelled (String.ofList (trim rest)) :: more →
              d.takeExplicit = (c.takeExplicit.1, { d with text := more }) := by
  have hfree {line : String} {lines : List String} (htext : c.text = line :: lines) :
      '\n' ∉ line.toList := hline line (by rw [htext]; rfl)
  refine ⟨⟨exists_spellsOut_of_takeExplicit hline, ?_⟩, takeExplicit_of_none, ?_⟩
  · rintro ⟨line, lines, name, rest, htext, hspells⟩
    rw [takeExplicit_of_spellsOut htext (hfree htext) hspells]
    rfl
  · intro line lines name rest htext hspells
    have htaken := takeExplicit_of_spellsOut htext (hfree htext) hspells
    refine ⟨htaken, fun spelled hspelled d more hd => ?_⟩
    rw [takeExplicit_eq d hd, directiveOfLine?_again (hfree htext) hspells hspelled, htaken]
    rfl

/-- The name may begin with a domain, and the argument hold colons of its own. -/
theorem explicit_of_domain :
    let c : Comment :=
      ⟨⟨"t.hxx"⟩, 3, ["///.. cpp:function::  std::string name() ", "/// Tells it."], none⟩
    (∀ line ∈ c.text.head?, '\n' ∉ line.toList) ∧
      c.takeExplicit =
        (some ⟨.function, "std::string name()"⟩, { c with text := ["/// Tells it."] }) ∧
      ∀ d : Comment, d.text = ["///.. function:: std::string name()"] →
        d.takeExplicit = (some ⟨.function, "std::string name()"⟩, { d with text := [] }) := by
  intro c
  have hline : ∀ line ∈ c.text.head?, '\n' ∉ line.toList := by decide
  have he : directiveOfLine? "///.. cpp:function::  std::string name() " =
      some ⟨.function, "std::string name()"⟩ := by decide +kernel
  obtain ⟨name, rest, hspells, heq⟩ := (directiveOfLine?_eq_some_iff (by decide)).1 he
  obtain ⟨hdirective, hargument⟩ := ExplicitDirective.mk.inj heq
  obtain ⟨-, -, h⟩ := explicit_of_first_line c hline
  obtain ⟨htaken, hagain⟩ := h _ _ name rest rfl hspells
  rw [← hdirective, ← hargument] at htaken hagain
  refine ⟨hline, htaken, ?_⟩
  intro d hd
  rw [hagain "function" (List.mem_cons_of_mem _ List.mem_cons_self) d [] hd, htaken]

end Comment

end DocIndex
