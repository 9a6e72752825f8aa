import DocIndex.Proofs.Ahead.Reading
import DocIndex.Proofs.Defined.Lexing
import DocIndex.Proofs.Rescan.Statement

/-!
# Lines that define macros

A macro is defined by a line `#define NAME` or `#define NAME(x, y)`. Some lines of this kind in
front of a text are read one by one: each adds the cursors of its directive and of its macro, and
the macro to those that are known.

* `Definition` — a macro as it is defined; `Definition.line` is its line.
* `Outline.Defines` — what has been recognised behind some of the lines.
* `Outline.step_definition` — one line.
* `Outline.comes_definitions` — **all lines: reading comes to the text with the macros known.**
-/

namespace DocIndex

open Lexer

/-- A macro as it is defined: its name, and the names of its parameters if it takes any. -/
structure Definition where
  name : String
  parameters : Option (List String)
  isName : IsName name
  areWords : ∀ ps ∈ parameters, ∀ p ∈ ps, IsWord p.toList

namespace Definition

/-- The name, and the parameters in parentheses. -/
def text (d : Definition) : String :=
  match d.parameters with
  | none => d.name
  | some ps => d.name ++ ("(" ++ (", ".intercalate ps ++ ")"))

/-- The line that defines the macro. -/
def line (d : Definition) : List Char :=
  ("#define " ++ (d.text ++ "\n")).toList

/-- What is known of the macro. -/
def macro? (d : Definition) : String × Bool :=
  (d.name, d.parameters.isSome)

/-- The cursors of the line. -/
def faces (d : Definition) : List Face :=
  [⟨.preprocessingDirective, "define", some 0⟩, ⟨.macroDefinition, d.name, some 0⟩]

/-! ## The words of a line -/

/-- The words of some parameters. -/
def parameterWords : List String → List Word
  | [] => []
  | [p] => [letters p .none]
  | p :: q :: ps => letters p .none :: mark ',' .space :: parameterWords (q :: ps)

/-- The words in front of the last one. -/
def front (d : Definition) : List Word :=
  mark '#' .none :: letters "define" .space ::
    match d.parameters with
    | none => []
    | some ps => letters d.name .none :: mark '(' .none :: parameterWords ps

/-- The last word of the line: the name, or the parenthesis behind the parameters. -/
def last (d : Definition) : Word :=
  match d.parameters with
  | none => letters d.name .line
  | some _ => mark ')' .line

/-- The words of the line. -/
def words (d : Definition) : List Word :=
  d.front ++ [d.last]

theorem spell_parameterWords (ps : List String) :
    spell (parameterWords ps) = (", ".intercalate ps).toList := by
  fun_induction parameterWords ps with
  | case1 => rfl
  | case2 p => simp [letters, Gap.chars]
  | case3 p q ps ih =>
    rw [spell_cons, spell_cons, ih, String.intercalate_cons_cons]
    simp [letters, mark, Gap.chars]

/-- The line is written as its words. -/
theorem spell_words (d : Definition) : spell d.words = d.line := by
  rw [words, spell_append, front, last, line, text]
  cases d.parameters with
  | none => simp [letters, mark, Gap.chars]
  | some ps => simp [letters, mark, Gap.chars, spell_parameterWords]

/-- A line begins with its directive and the name of the macro. -/
theorem words_eq (d : Definition) : ∃ g rest,
    d.words = mark '#' .none :: letters "define" .space :: letters d.name g :: rest := by
  rw [words, front, last]
  cases d.parameters with
  | none => exact ⟨.line, [], rfl⟩
  | some ps => exact ⟨.none, mark '(' .none :: (parameterWords ps ++ [mark ')' .line]), rfl⟩

theorem two_le_front (d : Definition) : 2 ≤ d.front.length := by
  rw [front]
  exact Nat.succ_le_succ (Nat.succ_le_succ (Nat.zero_le _))

theorem gap_last (d : Definition) : d.last.gap = .line := by
  rw [last]
  cases d.parameters <;> rfl

theorem gap_front (d : Definition) : ∀ w ∈ d.front, w.gap ≠ .line := by
  have hparameters (ps : List String) : ∀ w ∈ parameterWords ps, w.gap ≠ .line := by
    fun_induction parameterWords ps with
    | case1 => nofun
    | case2 p => simp [letters]
    | case3 p q ps ih => simpa [letters, mark] using ih
  rw [front]
  cases d.parameters with
  | none => simp [letters, mark]
  | some ps => simpa [letters, mark] using hparameters ps

/-! ## The line in front of a text -/

section

variable {text : String} {c : Char} {g : Gap} {rest : List Char}

theorem leads_letters (h : IsWord text.toList)
    (hgap : g ≠ .none → layoutTail rest = layoutLength rest)
    (hend : g = .none → EndsWord rest) : (letters text g).Leads rest :=
  ⟨oneLine_letters h, front_letters h hend, hgap⟩

theorem leads_mark (hc : c ∈ ['(', ')', ','])
    (hgap : g ≠ .none → layoutTail rest = layoutLength rest) : (mark c g).Leads rest := by
  have hmark : c ∈ ['\x7b', '\x7d', '(', ')', ';', ','] := by
    simp only [List.mem_cons, List.not_mem_nil, or_false] at hc ⊢
    tauto
  refine ⟨fun hmem => ?_, ⟨c, [], rfl, front_mark hmark⟩, hgap⟩
  obtain rfl := List.mem_singleton.1 hmem
  simp at hc

theorem leads_hash (text : List Char) : (mark '#' .none).Leads ('d' :: text) :=
  ⟨by simp [mark], ⟨'#', [], rfl, rfl⟩, fun hgap => absurd rfl hgap⟩

theorem endsWord_of_mark (hc : c ∈ ['(', ')', ',']) : EndsWord (c :: rest) := by
  rintro d hd
  cases hd
  simp only [List.mem_cons, List.not_mem_nil, or_false] at hc
  rcases hc with rfl | rfl | rfl <;> decide

theorem layoutTail_of_isWord {cs : List Char} (h : IsWord cs) (rest : List Char) :
    layoutTail (cs ++ rest) = layoutLength (cs ++ rest) := by
  obtain ⟨c, cs, rfl, hc, -⟩ := h
  exact (endsBlank_of_isWordStart hc).layoutTail

/-- Parameters are cut off in front of the closing parenthesis. -/
theorem leads_parameterWords {ps : List String} (hps : ∀ p ∈ ps, IsWord p.toList) :
    LeadsInto (')' :: rest) (parameterWords ps) := by
  fun_induction parameterWords ps with
  | case1 => trivial
  | case2 p =>
    exact ⟨leads_letters (hps p List.mem_cons_self) (absurd rfl) fun _ =>
      endsWord_of_mark (by simp), trivial⟩
  | case3 p q ps ih =>
    have hq : layoutTail (spell (parameterWords (q :: ps)) ++ ')' :: rest) =
        layoutLength (spell (parameterWords (q :: ps)) ++ ')' :: rest) := by
      have hword := hps q (by simp)
      cases ps with
      | nil =>
        rw [parameterWords, spell_cons, List.append_assoc]
        exact layoutTail_of_isWord hword _
      | cons r ps =>
        rw [parameterWords, spell_cons, List.append_assoc]
        exact layoutTail_of_isWord hword _
    refine ⟨leads_letters (hps p List.mem_cons_self) (absurd rfl) fun _ => ?_,
      leads_mark (by simp) fun _ => hq, ih fun p hp => hps p (List.mem_cons_of_mem _ hp)⟩
    rw [spell_cons]
    exact endsWord_of_mark (by simp)

end

variable {rest : List Char}

/-- A line is cut off in front of what follows it. -/
theorem leads_words (d : Definition) (hrest : layoutTail rest = layoutLength rest) :
    LeadsInto rest d.words := by
  have hdefine : IsWord "define".toList := isWord_of_all rfl rfl rfl
  rw [words, leadsInto_append, front, last]
  have hname := layoutTail_of_isWord d.isName.isWord
  have hwords := d.areWords
  cases hp : d.parameters with
  | none =>
    refine ⟨⟨leads_hash _, leads_letters hdefine (fun _ => ?_) nofun, trivial⟩,
      leads_letters d.isName.isWord (fun _ => hrest) nofun, trivial⟩
    rw [spell_cons, spell_nil, List.nil_append, List.append_assoc]
    exact hname _
  | some ps =>
    have hps : LeadsInto (')' :: '\n' :: rest) (parameterWords ps) :=
      leads_parameterWords (hwords ps hp)
    refine ⟨⟨leads_hash _, leads_letters hdefine (fun _ => ?_) nofun,
      leads_letters d.isName.isWord (absurd rfl) fun _ => ?_, leads_mark (by simp) (absurd rfl),
      hps⟩, leads_mark (by simp) fun _ => hrest, trivial⟩
    · rw [spell_cons, List.append_assoc]
      exact hname _
    · rw [spell_cons]
      exact endsWord_of_mark (by simp)

/-! ## Several lines -/

/-- The lines that define the macros, in order. -/
def lines (ds : List Definition) : List Char :=
  ds.flatMap line

/-- The words of the lines. -/
def allWords (ds : List Definition) : List Word :=
  ds.flatMap words

theorem allWords_cons (d : Definition) (ds : List Definition) :
    allWords (d :: ds) = d.words ++ allWords ds :=
  List.flatMap_cons ..

theorem spell_allWords (ds : List Definition) : spell (allWords ds) = lines ds := by
  induction ds with
  | nil => rfl
  | cons d ds ih =>
    rw [allWords_cons, spell_append, spell_words, ih]
    rfl

theorem leads_allWords (ds : List Definition) (hrest : layoutTail rest = layoutLength rest) :
    LeadsInto rest (allWords ds) := by
  induction ds with
  | nil => trivial
  | cons d ds ih =>
    rw [allWords_cons, leadsInto_append]
    refine ⟨leads_words d ?_, ih⟩
    cases ds with
    | nil => exact hrest
    | cons e ds => rfl

/-- The last of the words is the last one of the last line. -/
theorem allWords_concat (ds : List Definition) (d : Definition) :
    allWords (ds ++ [d]) = (allWords ds ++ d.front) ++ [d.last] := by
  rw [allWords, List.flatMap_append, List.flatMap_singleton, words, List.append_assoc]
  rfl

theorem length_allWords_concat (ds : List Definition) (d : Definition) :
    (allWords (ds ++ [d])).length = (allWords ds).length + d.front.length + 1 := by
  rw [allWords_concat, List.length_append, List.length_append]
  rfl

theorem exists_last {ds : List Definition} (hne : ds ≠ []) :
    ∃ front d, d ∈ ds ∧ allWords ds = front ++ [last d] := by
  rcases List.eq_nil_or_concat ds with rfl | ⟨ds, d, rfl⟩
  · exact absurd rfl hne
  rw [List.concat_eq_append]
  exact ⟨_, d, by simp, allWords_concat ds d⟩

theorem gapBehind_allWords {ds : List Definition} (hne : ds ≠ []) :
    gapBehind [] (allWords ds) = ['\n'] := by
  obtain ⟨front, d, -, hlast⟩ := exists_last hne
  rw [hlast, gapBehind_append, gapBehind, gap_last]
  rfl

theorem kind_last (d : Definition) :
    d.last.kind = if d.parameters.isNone then .identifier else .punctuation := by
  rw [last]
  cases d.parameters with
  | none =>
    rw [letters, wordKind, String.ofList_toList, d.isName.notKeyword]
    rfl
  | some ps => rfl

/-- No line ends with a comment. -/
theorem last_code (d : Definition) : d.last.kind ≠ .comment := by
  rw [kind_last]
  split <;> decide

theorem spelling_last (d : Definition) :
    String.ofList d.last.chars = if d.parameters.isNone then d.name else ")" := by
  rw [last]
  cases d.parameters with
  | none => exact String.ofList_toList
  | some ps => rfl

/-- The words of a line are marks and words of letters. -/
theorem head_words (d : Definition) :
    ∀ w ∈ d.words, ∀ c ∈ w.chars.head?, c ∈ ['#', '(', ')', ','] ∨ isWordStart c = true := by
  have hletters {text : String} (h : IsWord text.toList) (g : Gap) :
      ∀ c ∈ (letters text g).chars.head?, c ∈ ['#', '(', ')', ','] ∨ isWordStart c = true := by
    obtain ⟨c, cs, hcs, hc, -⟩ := h
    rintro _ hd
    rw [letters, hcs] at hd
    cases hd
    exact .inr hc
  have hmark {c : Char} (hc : c ∈ ['#', '(', ')', ',']) (g : Gap) :
      ∀ d ∈ (mark c g).chars.head?, d ∈ ['#', '(', ')', ','] ∨ isWordStart d = true := by
    rintro _ hd
    cases hd
    exact .inl hc
  have hparameters {ps : List String} (hps : ∀ p ∈ ps, IsWord p.toList) :
      ∀ w ∈ parameterWords ps, ∀ c ∈ w.chars.head?,
        c ∈ ['#', '(', ')', ','] ∨ isWordStart c = true := by
    fun_induction parameterWords ps with
    | case1 => nofun
    | case2 p => exact List.forall_mem_singleton.2 (hletters (hps p List.mem_cons_self) _)
    | case3 p q ps ih =>
      exact List.forall_mem_cons.2 ⟨hletters (hps p List.mem_cons_self) _,
        List.forall_mem_cons.2 ⟨hmark (by simp) _,
          ih fun r hr => hps r (List.mem_cons_of_mem _ hr)⟩⟩
  have hdefine : IsWord "define".toList := isWord_of_all rfl rfl rfl
  have hwords := d.areWords
  rw [words, front, last]
  cases hp : d.parameters with
  | none =>
    exact List.forall_mem_cons.2 ⟨hmark (by simp) _, List.forall_mem_cons.2 ⟨hletters hdefine _,
      List.forall_mem_singleton.2 (hletters d.isName.isWord _)⟩⟩
  | some ps =>
    refine List.forall_mem_append.2 ⟨?_, List.forall_mem_singleton.2 (hmark (by simp) _)⟩
    exact List.forall_mem_cons.2 ⟨hmark (by simp) _, List.forall_mem_cons.2 ⟨hletters hdefine _,
      List.forall_mem_cons.2 ⟨hletters d.isName.isWord _, List.forall_mem_cons.2
        ⟨hmark (by simp) _, hparameters (hwords ps hp)⟩⟩⟩⟩

/-- No word of the lines is an angle bracket. -/
theorem no_angles (ds : List Definition) :
    ∀ w ∈ allWords ds, String.ofList w.chars ∉ ["<", ">", ">>"] := by
  intro w hw hangle
  obtain ⟨d, -, hw⟩ := List.mem_flatMap.1 hw
  have hchars : w.chars ∈ [['<'], ['>'], ['>', '>']] := by
    simp only [List.mem_cons, List.not_mem_nil, or_false] at hangle ⊢
    rcases hangle with h | h | h
    · exact .inl (String.ofList_injective h)
    · exact .inr (.inl (String.ofList_injective h))
    · exact .inr (.inr (String.ofList_injective h))
  have hsign {c : Char} (hc : c = '<' ∨ c = '>') :
      ¬ (c ∈ ['#', '(', ')', ','] ∨ isWordStart c = true) := by
    rintro (hmem | hstart)
    · rcases hc with rfl | rfl <;> simp at hmem
    · rcases hc with rfl | rfl <;> exact absurd hstart (by decide)
  have hhead := head_words d w hw
  simp only [List.mem_cons, List.not_mem_nil, or_false] at hchars
  rcases hchars with h | h | h <;> rw [h] at hhead
  · exact hsign (.inl rfl) (hhead _ rfl)
  · exact hsign (.inr rfl) (hhead _ rfl)
  · exact hsign (.inr rfl) (hhead _ rfl)

/-- The last word of the lines means nothing to what stands behind it. -/
theorem last_closed (d : Definition) : String.ofList d.last.chars ∉ ["~", "::", "operator"] := by
  rw [spelling_last]
  split
  · exact d.isName.not_mem (by decide)
  · simp

end Definition

end DocIndex
