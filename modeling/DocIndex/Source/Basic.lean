import DocIndex.Source.Lexer

/-!
# Source texts

A source text with its lexemes by number. All reading of structure goes through the questions asked
here: how a lexeme is spelled, what it is, which lines it stands on and what it touches. A number
past the last lexeme is answered as a lexeme without spelling.
-/

namespace DocIndex

/-- A text, cut into lexemes. -/
structure Source where
  lexemes : Array Lexeme
  lines : LineTable
  /-- The length of the text in bytes. -/
  length : Nat
  deriving Repr, Inhabited

namespace Source

variable (s : Source)

/-- The number of lexemes. -/
def size : Nat :=
  s.lexemes.size

/-- How a lexeme is spelled. -/
def spelling (i : Nat) : String :=
  match s.lexemes[i]? with
  | some t => t.spelling
  | none => ""

/-- What a lexeme is. -/
def kind? (i : Nat) : Option LexemeKind :=
  s.lexemes[i]?.map Lexeme.kind

/-- The lexeme is spelled `word`. -/
def is (i : Nat) (word : String) : Bool :=
  decide (i < s.size) && s.spelling i == word

/-- The lexeme is an identifier. -/
def isIdentifier (i : Nat) : Bool :=
  s.kind? i == some .identifier

/-- The lexeme is a comment. -/
def isComment (i : Nat) : Bool :=
  s.kind? i == some .comment

/-- The line that the lexeme starts on. -/
def startLine (i : Nat) : Nat :=
  match s.lexemes[i]? with
  | some t => (s.lines.place t.start).line
  | none => 0

/-- The line that the lexeme ends on. -/
def stopLine (i : Nat) : Nat :=
  match s.lexemes[i]? with
  | some t => (s.lines.place t.stop).line
  | none => 0

/-- The lexeme ends exactly where the next one starts. -/
def touchesNext (i : Nat) : Bool :=
  match s.lexemes[i]?, s.lexemes[i + 1]? with
  | some t, some u => t.stop == u.start
  | _, _ => false

/-- The nearest lexeme before `i` that is no comment. -/
def previous? : Nat → Option Nat
  | 0 => none
  | i + 1 => if s.isComment i then previous? i else some i

/-- The lexeme is the first of its line, comments apart. -/
def startsLine (i : Nat) : Bool :=
  match s.previous? i with
  | none => true
  | some p => s.stopLine p < s.startLine i

/-- Every line feed is taken back by a backslash before it; carriage returns may stand between. In
front of the text stands such a backslash exactly if `escaped`. -/
def continuesLine (escaped : Bool) : List Char → Bool
  | [] => true
  | c :: cs =>
    if c = '\n' then escaped && continuesLine false cs
    else continuesLine (c = '\\' || (c = '\r' && escaped)) cs

/-- The next lexeme stands on the same line, continued lines counting as one. -/
def lineContinues (i : Nat) : Bool :=
  match s.lexemes[i + 1]? with
  | some t => continuesLine false t.gap.toList
  | none => false

/-- The spellings of the `n` lexemes from `first` on, with a space wherever two do not touch. -/
def joinFrom (first : Nat) : Nat → String
  | 0 => ""
  | 1 => s.spelling first
  | n + 2 =>
    s.spelling first ++ (if s.touchesNext first then "" else " ") ++ joinFrom (first + 1) (n + 1)

/-- The spellings from `first` up to `last`, without it, joined the way they stand. -/
def join (first last : Nat) : String :=
  s.joinFrom first (last - first)

/-- The place of a lexeme's first byte, or of the end of the text. -/
def placeOf (i : Nat) : Place :=
  match s.lexemes[i]? with
  | some t => s.lines.place t.start
  | none => s.lines.place s.length

/-- The whole text. -/
def extent : Extent :=
  ⟨s.lines.place 0, s.lines.place s.length⟩

theorem lt_size_of_is {s : Source} {i : Nat} {word : String} (h : s.is i word = true) :
    i < s.size := by
  simp only [is, Bool.and_eq_true, decide_eq_true_eq] at h
  exact h.1

theorem spelling_of_is {s : Source} {i : Nat} {word : String} (h : s.is i word = true) :
    s.spelling i = word := by
  simp only [is, Bool.and_eq_true, beq_iff_eq] at h
  exact h.2

theorem lt_size_of_isIdentifier {s : Source} {i : Nat} (h : s.isIdentifier i = true) :
    i < s.size := by
  simp only [isIdentifier, kind?, beq_iff_eq, Option.map_eq_some_iff] at h
  obtain ⟨t, ht, -⟩ := h
  exact (Array.getElem?_eq_some_iff.1 ht).1

end Source

end DocIndex
