import DocIndex.Outline.Reading
import DocIndex.Proofs.Commented.Declaration

/-!
# The words in front of a declaration

In front of a declaration's own words may stand the calls of macros, `export` and template heads.
They say nothing about how the declaration is read, but that it is a template; so a declaration is
read as if it were read from its own words on (`Lead.read_ownWords`).

* `Lead` — how far the words in front have been read.
* `Lead.next?` — behind the next one of them.
* `Lead.ownWords` — behind all of them.
* `Reading.lead` — the same, where a declaration is read next.
-/

namespace DocIndex

/-- How far the words in front of a declaration have been read. -/
structure Lead where
  outline : Outline
  index : Nat
  templated : Bool

namespace Lead

open Outline Source

/-- Behind the word at which the lead stands, if it is one of those that stand in front of a
declaration that begins at `start`. -/
def next? (s : Source) (start : Nat) (l : Lead) : Option Lead :=
  if s.size ≤ l.index ∨ (s.is l.index "\x7d" && start < l.index) = true then none
  else if s.isMacroCall l.outline.macros l.index then
    if s.is (s.macroCallEnd l.outline.macros l.index + 1) ";" ||
        s.standsAlone (s.macroCallEnd l.outline.macros l.index) then none
    else
      some ⟨(l.outline.addMacroCall s l.index).1, s.macroCallEnd l.outline.macros l.index + 1,
        l.templated⟩
  else
    match s.announced start l.index with
    | .exported => some { l with index := l.index + 1 }
    | .templateHead => some ⟨l.outline, s.angleEnd (l.index + 1) + 1, true⟩
    | _ => none

variable {s : Source} {start : Nat} {l l' : Lead} {scope : Scope}

/-- A word that stands in front of a declaration is a macro call, `export` or a template head. -/
theorem next?_cases (h : l.next? s start = some l') :
    l.index < s.size ∧ ¬ (s.is l.index "\x7d" && start < l.index) = true ∧
      ((s.isMacroCall l.outline.macros l.index = true ∧
          s.is (s.macroCallEnd l.outline.macros l.index + 1) ";" = false ∧
          s.standsAlone (s.macroCallEnd l.outline.macros l.index) = false ∧
          l' = ⟨(l.outline.addMacroCall s l.index).1,
            s.macroCallEnd l.outline.macros l.index + 1, l.templated⟩) ∨
        (¬ s.isMacroCall l.outline.macros l.index = true ∧
          ((s.announced start l.index = .exported ∧ l' = { l with index := l.index + 1 }) ∨
            (s.announced start l.index = .templateHead ∧
              l' = ⟨l.outline, s.angleEnd (l.index + 1) + 1, true⟩)))) := by
  unfold next? at h
  split at h
  · cases h
  rename_i hword
  have hlt : l.index < s.size := Nat.lt_of_not_le fun hle => hword (.inl hle)
  refine ⟨hlt, fun hbrace => hword (.inr hbrace), ?_⟩
  split at h
  · rename_i hcalled
    split at h
    · cases h
    · rename_i hdecorates
      simp only [Bool.or_eq_true, not_or, Bool.not_eq_true] at hdecorates
      exact .inl ⟨hcalled, hdecorates.1, hdecorates.2, (Option.some.inj h).symm⟩
  · rename_i hcalled
    refine .inr ⟨hcalled, ?_⟩
    split at h
    · rename_i ha
      exact .inl ⟨ha, (Option.some.inj h).symm⟩
    · rename_i ha
      exact .inr ⟨ha, (Option.some.inj h).symm⟩
    · cases h

theorem lt_of_next? (h : l.next? s start = some l') : l.index < l'.index := by
  obtain ⟨-, -, ⟨-, -, -, rfl⟩ | ⟨-, ⟨-, rfl⟩ | ⟨ha, rfl⟩⟩⟩ := next?_cases h
  · exact Nat.lt_succ_of_le (s.le_macroCallEnd l.outline.macros l.index)
  · exact Nat.lt_succ_self l.index
  · have hle := le_angleEnd (lt_size_of_is (is_of_announced ha))
    simp only
    omega

set_option linter.unusedVariables false in
/-- Behind all of the words that stand in front of a declaration. -/
def ownWords (s : Source) (start : Nat) (l : Lead) : Lead :=
  match h : l.next? s start with
  | some l' => l'.ownWords s start
  | none => l
termination_by s.size - l.index
decreasing_by
  have hlt := lt_of_next? h
  have hin := (next?_cases h).1
  omega

theorem ownWords_next? (h : l.next? s start = some l') :
    l.ownWords s start = l'.ownWords s start := by
  rw [ownWords]
  split <;> simp_all

theorem ownWords_none (h : l.next? s start = none) : l.ownWords s start = l := by
  rw [ownWords]
  split <;> simp_all

theorem le_ownWords : l.index ≤ (l.ownWords s start).index := by
  fun_induction ownWords s start l with
  | case1 l l' h ih => exact Nat.le_trans (Nat.le_of_lt (lt_of_next? h)) ih
  | case2 l h => exact Nat.le_refl _

/-- Behind the own words no other word stands in front. -/
theorem next?_ownWords : (l.ownWords s start).next? s start = none := by
  fun_induction ownWords s start l with
  | case1 l l' h ih => exact ih
  | case2 l h => exact h

/-- The declaration is read on from where the lead stands. -/
def read (s : Source) (scope : Scope) (start : Nat) (l : Lead) : Outcome :=
  readDeclaration s scope start l.outline l.index l.templated

theorem read_next? (h : l.next? s start = some l') :
    l.read s scope start = l'.read s scope start := by
  obtain ⟨hlt, hbrace, ⟨hcalled, hsemi, halone, rfl⟩ | ⟨hcalled, ⟨ha, rfl⟩ | ⟨ha, rfl⟩⟩⟩ :=
    next?_cases h
  · rw [read, readDeclaration_macroCall hlt hbrace hcalled]
    simp only [hsemi, halone, Bool.false_eq_true, if_false]
    rfl
  · rw [read, readDeclaration_announced hlt hbrace hcalled, ha]
    rfl
  · rw [read, readDeclaration_announced hlt hbrace hcalled, ha]
    rfl

/-- **A declaration is read as if it were read from its own words on.** -/
theorem read_ownWords : l.read s scope start = (l.ownWords s start).read s scope start := by
  fun_induction ownWords s start l with
  | case1 l l' h ih => rw [read_next? h, ih]
  | case2 l h => rfl

end Lead

/-- Where the own words begin of the declaration that is read next. -/
def Reading.lead (s : Source) (r : Reading) : Lead :=
  Lead.ownWords s r.next ⟨r.outline, r.next, false⟩

theorem Reading.le_lead (s : Source) (r : Reading) : r.next ≤ (r.lead s).index :=
  Lead.le_ownWords (l := ⟨r.outline, r.next, false⟩)

theorem Reading.read_lead (s : Source) (r : Reading) (scope : Scope) :
    Outline.readDeclaration s scope r.next r.outline r.next false =
      (r.lead s).read s scope r.next :=
  Lead.read_ownWords (l := ⟨r.outline, r.next, false⟩)

end DocIndex
