import DocIndex.Text.Blank
import Std.Data.TreeMap.Basic

/-!
# Directives

A directive says what kind of thing a comment documents. `Directive.parse` reads the names that
authors write, `Directive.name` is the one name that each is shown and stored by.
-/

namespace DocIndex

/-- What kind of thing is documented. -/
inductive Directive
  | function
  | struct
  | macroDefinition
  | typeAlias
  | variable
  | member
  | custom (name : String)
  deriving DecidableEq, Repr, Inhabited

namespace Directive

/-- The name that a directive is shown and stored by. -/
def name : Directive → String
  | function => "function"
  | struct => "struct"
  | macroDefinition => "macro"
  | typeAlias => "type-alias"
  | .variable => "variable"
  | member => "member"
  | custom name => name

/-- The directive that a name without a domain stands for, if it is a known one. -/
def ofBareName? (name : String) : Option Directive :=
  match name with
  | "function" => some function
  | "struct" | "class" => some struct
  | "macro" => some macroDefinition
  | "type-alias" | "type" => some typeAlias
  | "variable" | "var" => some .variable
  | "member" => some member
  | _ => none

/-- A name without the domain `cpp:` or `c:` in front. -/
def dropDomain : List Char → List Char
  | 'c' :: 'p' :: 'p' :: ':' :: cs => cs
  | 'c' :: ':' :: cs => cs
  | cs => cs

/-- Reads a directive's name, as written in a comment or a query. Blanks around it do not count,
and neither does a domain in front of a known name. -/
def parse (s : String) : Directive :=
  let cs := Text.trim s.toList
  (ofBareName? (String.ofList (dropDomain cs))).getD (custom (String.ofList cs))

/-- The directives that are known come first, as they are listed above. -/
def rank : Directive → Nat
  | function => 0
  | struct => 1
  | macroDefinition => 2
  | typeAlias => 3
  | .variable => 4
  | member => 5
  | custom _ => 6

/-- Directives are ordered by rank, and those that are not known by name. -/
instance : Ord Directive :=
  ⟨compareLex (compareOn rank) (compareOn name)⟩

instance : Std.TransOrd Directive :=
  inferInstanceAs (Std.TransCmp (compareLex (compareOn rank) (compareOn name)))

/-- No two directives rank alike: those of one rank differ by name. -/
instance : Std.LawfulEqOrd Directive where
  eq_of_compare {a b} h := by
    obtain ⟨hr, hn⟩ := Ordering.then_eq_eq.1 h
    have hr : a.rank = b.rank := Std.LawfulEqOrd.eq_of_compare hr
    have hn : a.name = b.name := Std.LawfulEqOrd.eq_of_compare hn
    cases a <;> cases b <;> simp_all [rank, name]

end Directive

end DocIndex
