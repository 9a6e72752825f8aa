import DocIndex.Proofs.Printed.Steps

/-!
# The signatures of a printed tree

The signature of a printed declaration is read off the tokens of its line: those from behind the
keyword that the directive says already up to the `{` or `;`.

* `headTokens_code` — which tokens are kept.
* `joined_kept` — how they are joined.
-/

namespace DocIndex

namespace Printed

/-! ## Words in a row -/

/-- Words with a space wherever two do not touch. -/
def joined : List Word → String
  | [] => ""
  | [w] => String.ofList w.chars
  | w :: v :: ws =>
    String.ofList w.chars ++ (if w.gap = .none then "" else " ") ++ joined (v :: ws)

section

variable {lines : LineTable} {owner : Nat → CursorId} {front ws : List Word}

theorem textOfTokens_tokensAfter :
    textOfTokens (tokensAfter lines owner front ws) = joined ws := by
  induction ws generalizing front with
  | nil => rfl
  | cons w ws ih =>
    cases ws with
    | nil => rfl
    | cons v ws =>
      have ih := @ih (front ++ [w])
      rw [tokensAfter, tokensAfter, textOfTokens, touches_tokenAfter, ← tokensAfter, ih, joined]
      simp [tokenAfter]

/-! ## Kept words -/

/-- The words of a leaf that its directive says already. -/
def Leaf.silent : Leaf → List Word
  | .variable _ => []
  | function _ _ => []
  | typeAlias _ => [letters "using" .space]

/-- The words of a leaf that its signature is made of. -/
def Leaf.kept : Leaf → List Word
  | .variable name => [letters "int" .space, letters name.text .none]
  | function name parameter =>
    [letters "int" .space, letters name.text .none, mark '(' .none, letters "int" .space,
      letters parameter.text .none, mark ')' .none]
  | typeAlias name => [letters name.text .space, mark '=' .space, letters "int" .none]

namespace CodeLine

/-- The words of a line that its directive says already. -/
def silent : CodeLine → List Word
  | openRecord key _ => [letters key.text .space]
  | leaf l => l.silent
  | _ => []

/-- The words of a line that its signature is made of. -/
def kept : CodeLine → List Word
  | openRecord _ name => [letters name.text .space]
  | leaf l => l.kept
  | _ => []

end CodeLine

theorem joined_kept {code : CodeLine} (h : code.Declarative) :
    joined code.kept = code.signature := by
  cases code with
  | openRecord key name => simp [CodeLine.kept, joined, letters, CodeLine.signature]
  | leaf l =>
    cases l <;> rw [← String.toList_inj] <;>
      simp [CodeLine.kept, Leaf.kept, joined, letters, mark, CodeLine.signature, Leaf.signature]
  | openNamespace name => cases h
  | openLinkage => cases h
  | closeBrace => cases h
  | closeRecord => cases h

/-! ## Heads -/

variable {brackets angles : Nat} {previous : Option String} {t : Token} {ts more : List Token}
  {w : Word}

/-- A word that opens or closes nothing is kept, unless the directive says it already. -/
theorem headFrom_word {text : String} (hk : t.kind ≠ .comment) (ht : t.spelling = text)
    (hplain : text ∉ ["\x7b", ";", "(", "[", ")", "]", "<", ">", ">>"]) :
    headFrom brackets angles previous (t :: ts) =
      if brackets = 0 && angles = 0 && silentKeywords.contains text then
        headFrom brackets angles (some text) ts
      else t :: headFrom brackets angles (some text) ts := by
  simp only [List.mem_cons, List.not_mem_nil, or_false, not_or] at hplain
  simp [headFrom, hk, ht, hplain, Token.bracketsAfter, Token.anglesAfter]

theorem headFrom_open (hk : t.kind ≠ .comment) (ht : t.spelling = "(") :
    headFrom brackets 0 previous (t :: ts) = t :: headFrom (brackets + 1) 0 (some "(") ts := by
  simp [headFrom, hk, ht, Token.bracketsAfter, Token.anglesAfter]

theorem headFrom_close (hk : t.kind ≠ .comment) (ht : t.spelling = ")") :
    headFrom (brackets + 1) 0 previous (t :: ts) = t :: headFrom brackets 0 (some ")") ts := by
  simp [headFrom, hk, ht, Token.bracketsAfter, Token.anglesAfter, silentKeywords]

theorem headFrom_end (hk : t.kind ≠ .comment) (ht : t.spelling = "\x7b" ∨ t.spelling = ";") :
    headFrom 0 angles previous (t :: ts) = [] := by
  simp [headFrom, hk, ht]

theorem Name.not_mem_marks (n : Name) :
    n.text ∉ ["\x7b", ";", "(", "[", ")", "]", "<", ">", ">>"] := by
  have h := n.ne_special.1
  simp [h]

theorem Name.not_silent (n : Name) : silentKeywords.contains n.text = false := by
  have h := n.ne_special.2
  simp [silentKeywords, h]

theorem kind_letters_ne (text : String) (g : Gap) : (letters text g).kind ≠ .comment := by
  unfold letters Lexer.wordKind
  split <;> exact nofun

/-- A word that opens or closes nothing is kept. -/
theorem headFrom_keep {text : String} {g : Gap}
    (hplain : text ∉ ["\x7b", ";", "(", "[", ")", "]", "<", ">", ">>"])
    (hloud : silentKeywords.contains text = false) :
    headFrom brackets angles previous (tokenAfter lines owner front (letters text g) :: ts) =
      tokenAfter lines owner front (letters text g) :: headFrom brackets angles (some text) ts := by
  rw [headFrom_word (kind_letters_ne text g) String.ofList_toList hplain, hloud, Bool.and_false,
    if_neg (by decide)]

/-- A keyword that the directive says already is left out. -/
theorem headFrom_drop {text : String} {g : Gap}
    (hplain : text ∉ ["\x7b", ";", "(", "[", ")", "]", "<", ">", ">>"])
    (hsilent : silentKeywords.contains text = true) :
    headFrom 0 0 previous (tokenAfter lines owner front (letters text g) :: ts) =
      headFrom 0 0 (some text) ts := by
  rw [headFrom_word (kind_letters_ne text g) String.ofList_toList hplain, hsilent]
  rfl

theorem headFrom_name {name : Name} {g : Gap} :
    headFrom brackets angles previous (tokenAfter lines owner front (letters name.text g) :: ts) =
      tokenAfter lines owner front (letters name.text g) ::
        headFrom brackets angles (some name.text) ts :=
  headFrom_keep name.not_mem_marks name.not_silent

theorem headFrom_int {g : Gap} :
    headFrom brackets angles previous (tokenAfter lines owner front (letters "int" g) :: ts) =
      tokenAfter lines owner front (letters "int" g) :: headFrom brackets angles (some "int") ts :=
  headFrom_keep (by decide) (by decide)

theorem headFrom_equals {g : Gap} :
    headFrom brackets angles previous (tokenAfter lines owner front (mark '=' g) :: ts) =
      tokenAfter lines owner front (mark '=' g) :: headFrom brackets angles (some "=") ts := by
  have hkind : (tokenAfter lines owner front (mark '=' g)).kind ≠ .comment :=
    LexemeKind.noConfusion
  have hspelling : (tokenAfter lines owner front (mark '=' g)).spelling = "=" := rfl
  have hloud : silentKeywords.contains "=" = false := by decide
  have hplain : "=" ∉ ["\x7b", ";", "(", "[", ")", "]", "<", ">", ">>"] := by decide
  rw [headFrom_word hkind hspelling hplain, hloud, Bool.and_false, if_neg (by decide)]

/-- **The tokens of a signature are those of the line from behind the keyword that the directive
says already.** -/
theorem headTokens_code {code : CodeLine} (h : code.Declarative) :
    headTokens (tokensAfter lines owner front code.words ++ more) =
      tokensAfter lines owner (front ++ code.silent) code.kept := by
  have hmark : ∀ (front : List Word) (c : Char) (g : Gap),
      (tokenAfter lines owner front (mark c g)).kind ≠ .comment :=
    fun _ _ _ => LexemeKind.noConfusion
  unfold headTokens
  cases code with
  | openRecord key name =>
    have hsilent : silentKeywords.contains key.text = true := by cases key <;> decide
    have hplain : key.text ∉ ["\x7b", ";", "(", "[", ")", "]", "<", ">", ">>"] := by
      cases key <;> decide
    simp only [CodeLine.words, tokensAfter, List.cons_append, List.nil_append]
    rw [headFrom_drop hplain hsilent, headFrom_name, headFrom_end (hmark _ _ _) (.inl rfl)]
    rfl
  | leaf l =>
    cases l with
    | «variable» name =>
      simp only [CodeLine.words, Leaf.words, tokensAfter, List.cons_append, List.nil_append]
      rw [headFrom_int, headFrom_name, headFrom_end (hmark _ _ _) (.inr rfl)]
      simp [CodeLine.silent, CodeLine.kept, Leaf.silent, Leaf.kept, tokensAfter]
    | function name parameter =>
      simp only [CodeLine.words, Leaf.words, tokensAfter, List.cons_append, List.nil_append]
      -- the parameters are read one bracket deep
      rw [headFrom_int, headFrom_name, headFrom_open (hmark _ _ _) rfl, headFrom_int, headFrom_name,
        headFrom_close (hmark _ _ _) rfl, headFrom_end (hmark _ _ _) (.inr rfl)]
      simp [CodeLine.silent, CodeLine.kept, Leaf.silent, Leaf.kept, tokensAfter]
    | typeAlias name =>
      simp only [CodeLine.words, Leaf.words, tokensAfter, List.cons_append, List.nil_append]
      rw [headFrom_drop (by decide) (by decide), headFrom_name, headFrom_equals, headFrom_int,
        headFrom_end (hmark _ _ _) (.inr rfl)]
      rfl
  | openNamespace name => cases h
  | openLinkage => cases h
  | closeBrace => cases h
  | closeRecord => cases h

end

end Printed

end DocIndex
