import DocIndex.Proofs.Layout.Unit
import DocIndex.Proofs.Lexing.Sound

/-!
# Nothing of a text is lost

What is cut off a text is a lexeme, is told as a fault, or is layout; so every character of a text
can be accounted for (`SourceUnit.lossless_parseText`). One kind of character is passed over that
should not be: a backslash directly behind layout, which is a lexeme anywhere else
(`Lexed.backslash_lost`).

* `Lexed.Swallows` — what a fault stands for.
* `Lexed.Lossless` — every character of a text is accounted for.
-/

namespace DocIndex

open Lexer

/-! ## Stretches of a text -/

namespace Lexer

variable {ss ss₁ ss₂ ss₁' ss₂' : List Stretch} {x x' : Stretch} {front back : List Char} {c : Char}

/-- A character of a text stands in one of its stretches. -/
theorem exists_stretch (h : chars ss = front ++ c :: back) :
    ∃ ss₁ x ss₂ before after, ss = ss₁ ++ x :: ss₂ ∧ x.text = before ++ c :: after ∧
      front = chars ss₁ ++ before ∧ back = after ++ chars ss₂ := by
  induction ss generalizing front with
  | nil => simp at h
  | cons x ss ih =>
    rw [chars_cons] at h
    rcases List.append_eq_append_iff.1 h with ⟨front', rfl, hrest⟩ | ⟨after, htext, hrest⟩
    · obtain ⟨ss₁, y, ss₂, before, after, rfl, htext, rfl, rfl⟩ := ih hrest
      exact ⟨x :: ss₁, y, ss₂, before, after, rfl, htext, by simp, rfl⟩
    · cases after with
      | nil =>
        have hnext : chars ss = [] ++ c :: back := hrest.symm
        obtain ⟨ss₁, y, ss₂, before, after, rfl, htext', hfront, rfl⟩ := ih hnext
        refine ⟨x :: ss₁, y, ss₂, before, after, rfl, htext', ?_, rfl⟩
        rw [chars_cons, List.append_assoc, ← hfront, htext]
        simp
      | cons d after =>
        obtain ⟨rfl, rfl⟩ := List.cons.inj hrest
        exact ⟨[], x, ss, front, after, rfl, htext, rfl, rfl⟩

/-- Two of the stretches of a text are the same, or one ends where the other begins or in front of
it. -/
theorem apart_of_stretches (h : ss₁ ++ x :: ss₂ = ss₁' ++ x' :: ss₂') :
    byteLength (chars ss₁) + byteLength x.text ≤ byteLength (chars ss₁') ∨
      byteLength (chars ss₁') + byteLength x'.text ≤ byteLength (chars ss₁) ∨
        ss₁ = ss₁' ∧ x = x' := by
  have hbehind {y : Stretch} (front mid : List Stretch) :
      byteLength (chars front) + byteLength y.text ≤ byteLength (chars (front ++ y :: mid)) := by
    rw [chars_append, chars_cons, byteLength_append, byteLength_append]
    omega
  rcases List.append_eq_append_iff.1 h with ⟨mid, rfl, hrest⟩ | ⟨mid, rfl, hrest⟩
  · cases mid with
    | nil => exact .inr (.inr ⟨(List.append_nil _).symm, (List.cons.inj hrest).1⟩)
    | cons y mid =>
      obtain ⟨rfl, -⟩ := List.cons.inj hrest
      exact .inl (hbehind ss₁ mid)
  · cases mid with
    | nil => exact .inr (.inr ⟨List.append_nil _, (List.cons.inj hrest).1.symm⟩)
    | cons y mid =>
      obtain ⟨rfl, -⟩ := List.cons.inj hrest
      exact .inr (.inl (hbehind ss₁' mid))

theorem text_ne_nil {cs : List Char} (hx : x ∈ stretches cs) : x.text ≠ [] := by
  obtain ⟨c, ds, -, htext, -⟩ := front_of_mem_stretches hx
  rw [htext]
  exact List.cons_ne_nil c ds

/-- What is passed over is passed over behind more text. -/
theorem Passed.append (h : Passed front c back) (more : List Char) :
    Passed (more ++ front) c back := by
  cases h with
  | layout hc => exact .layout hc
  | continued hc hback => exact .continued hc hback
  | behindLayout hc hd hlayout =>
    refine .behindLayout hc ?_ hlayout
    rw [List.getLast?_append, Option.mem_def.1 hd]
    rfl

end Lexer

/-! ## Lexemes and faults by their stretches -/

namespace Lexed

variable {offset : Nat} {gap : List Char} {ss ss₁ ss₂ : List Stretch} {x : Stretch}

theorem exists_lexeme (offset : Nat) (gap : List Char) (ss₁ ss₂ : List Stretch)
    {kind : LexemeKind} (hx : x.role = .lexeme kind) :
    ∃ t ∈ (ofStretches offset gap (ss₁ ++ x :: ss₂)).lexemes,
      t.spelling = String.ofList x.text ∧ t.start = offset + byteLength (chars ss₁) := by
  induction ss₁ generalizing offset gap with
  | nil =>
    rw [List.nil_append, lexemes_of_role hx]
    exact ⟨_, List.mem_cons_self, rfl, rfl⟩
  | cons y ss₁ ih =>
    rw [List.cons_append, chars_cons, byteLength_append, ← Nat.add_assoc]
    cases hy : y.isLexeme with
    | false =>
      rw [lexemes_of_not_isLexeme hy]
      exact ih ..
    | true =>
      obtain ⟨kind, hkind⟩ := role_of_isLexeme hy
      rw [lexemes_of_role hkind]
      obtain ⟨t, ht, hplace⟩ := ih (offset + byteLength y.text) []
      exact ⟨t, List.mem_cons_of_mem _ ht, hplace⟩

theorem faults_of_role (hx : x.role = .fault) :
    (ofStretches offset gap (x :: ss)).faults =
      (offset, LexFault.ofText x.text) ::
        (ofStretches (offset + byteLength x.text) (x.text.reverse ++ gap) ss).faults := by
  rw [ofStretches]
  simp only [hx]

theorem faults_of_ne_fault (offset : Nat) (gap : List Char) (ss : List Stretch)
    (hx : x.role ≠ .fault) :
    ∃ gap', (ofStretches offset gap (x :: ss)).faults =
      (ofStretches (offset + byteLength x.text) gap' ss).faults := by
  rw [ofStretches]
  cases hrole : x.role with
  | blank => exact ⟨_, rfl⟩
  | fault => exact absurd hrole hx
  | lexeme kind => exact ⟨_, rfl⟩

/-- The faults are the stretches that cannot be read, with the text in front of them. -/
theorem mem_faults_iff {f : Nat × LexFault} :
    f ∈ (ofStretches offset gap ss).faults ↔ ∃ ss₁ x ss₂, ss = ss₁ ++ x :: ss₂ ∧ x.role = .fault ∧
      f = (offset + byteLength (chars ss₁), LexFault.ofText x.text) := by
  induction ss generalizing offset gap with
  | nil => simp [ofStretches]
  | cons y ss ih =>
    have hbehind : (∃ ss₁ x ss₂, ss = ss₁ ++ x :: ss₂ ∧ x.role = .fault ∧
          f = (offset + byteLength y.text + byteLength (chars ss₁), LexFault.ofText x.text)) ↔
        ∃ ss₁ x ss₂, y :: ss = y :: ss₁ ++ x :: ss₂ ∧ x.role = .fault ∧
          f = (offset + byteLength (chars (y :: ss₁)), LexFault.ofText x.text) := by
      simp only [List.cons_append, List.cons.injEq, true_and, chars_cons, byteLength_append,
        Nat.add_assoc]
    by_cases hy : y.role = .fault
    · rw [faults_of_role hy, List.mem_cons, ih, hbehind]
      constructor
      · rintro (rfl | ⟨ss₁, x, ss₂, hss, hrest⟩)
        · exact ⟨[], y, ss, rfl, hy, rfl⟩
        · exact ⟨y :: ss₁, x, ss₂, hss, hrest⟩
      · rintro ⟨ss₁, x, ss₂, hss, hrole, rfl⟩
        rcases List.cons_eq_append_iff.1 hss with ⟨rfl, hhead⟩ | ⟨ss₁, rfl, -⟩
        · obtain ⟨rfl, -⟩ := List.cons.inj hhead
          exact .inl rfl
        · exact .inr ⟨ss₁, x, ss₂, hss, hrole, rfl⟩
    · obtain ⟨gap', hfaults⟩ := faults_of_ne_fault offset gap ss hy
      rw [hfaults, ih, hbehind]
      constructor
      · rintro ⟨ss₁, x, ss₂, hss, hrest⟩
        exact ⟨y :: ss₁, x, ss₂, hss, hrest⟩
      · rintro ⟨ss₁, x, ss₂, hss, hrole, rfl⟩
        rcases List.cons_eq_append_iff.1 hss with ⟨rfl, hhead⟩ | ⟨ss₁, rfl, -⟩
        · obtain ⟨rfl, -⟩ := List.cons.inj hhead
          exact absurd hrole hy
        · exact ⟨ss₁, x, ss₂, hss, hrole, rfl⟩

/-- Faults are told in the order of the text. -/
theorem ordered_faults (hss : ∀ x ∈ ss, x.text ≠ []) :
    (ofStretches offset gap ss).faults.Pairwise fun f g => f.1 < g.1 := by
  induction ss generalizing offset gap with
  | nil => exact List.Pairwise.nil
  | cons y ss ih =>
    have hrest := fun x hx => hss x (List.mem_cons_of_mem y hx)
    by_cases hy : y.role = .fault
    · rw [faults_of_role hy]
      refine List.pairwise_cons.2 ⟨fun f hf => ?_, ih hrest⟩
      obtain ⟨ss₁, x, -, -, -, rfl⟩ := mem_faults_iff.1 hf
      have hpos := byteLength_pos (hss y List.mem_cons_self)
      show offset < offset + byteLength y.text + byteLength (chars ss₁)
      omega
    · obtain ⟨gap', hfaults⟩ := faults_of_ne_fault offset gap ss hy
      rw [hfaults]
      exact ih hrest

/-! ## What becomes of a text -/

/-- The text of the lexeme stands where the lexeme begins, whole characters of it, and a comment or
raw string ends where it is closed for the first time. -/
structure Cut (cs : List Char) (t : Lexeme) (front text rest : List Char) : Prop where
  whole : cs = front ++ (text ++ rest)
  nonempty : text ≠ []
  start : byteLength front = t.start
  spelling : t.spelling = String.ofList text
  terminated : Terminated t.kind text rest

/-- The fault tells of a part of the text that cannot be read, where that part begins. No lexeme
stands within it, and no other fault tells of it. -/
structure Swallows (cs : List Char) (l : Lexed) (f : Nat × LexFault) (front text rest : List Char) :
    Prop where
  whole : cs = front ++ (text ++ rest)
  nonempty : text ≠ []
  start : byteLength front = f.1
  told : f.2 = LexFault.ofText text
  unlexable : Unlexable text rest
  lexemes : ∀ t ∈ l.lexemes, t.stop ≤ f.1 ∨ f.1 + byteLength text ≤ t.start
  alone : ∀ g ∈ l.faults, f.1 ≤ g.1 → g.1 < f.1 + byteLength text → g = f

/-- What stands at the offset is within a lexeme, or within what a fault tells of. -/
inductive Tells (cs : List Char) (l : Lexed) (n : Nat) : Prop
  | lexeme {t : Lexeme} (ht : t ∈ l.lexemes) (hstart : t.start ≤ n) (hstop : n < t.stop)
  | fault {f : Nat × LexFault} (hf : f ∈ l.faults) {front text rest : List Char}
      (hswallows : Swallows cs l f front text rest) (hstart : f.1 ≤ n)
      (hstop : n < f.1 + byteLength text)

/-- Lexemes and faults are in order and apart, and every character that is in none of them is
passed over as layout. -/
structure Lossless (cs : List Char) (l : Lexed) : Prop where
  lexeme : ∀ t ∈ l.lexemes, ∃ front text rest, Cut cs t front text rest
  apart : l.lexemes.Pairwise fun t u => t.stop ≤ u.start
  fault : ∀ f ∈ l.faults, ∃ front text rest, Swallows cs l f front text rest
  ordered : l.faults.Pairwise fun f g => f.1 < g.1
  covered : ∀ front c back, cs = front ++ c :: back →
    Passed front c back ∨ Tells cs l (byteLength front)

section Stretches

variable {cs : List Char}

/-- What is told of a stretch that cannot be read. -/
theorem swallows_of_stretches (h : stretches cs = ss₁ ++ x :: ss₂) (hx : x.role = .fault) :
    Swallows cs (ofText cs) (byteLength (chars ss₁), LexFault.ofText x.text) (chars ss₁) x.text
      (chars ss₂) where
  whole := by rw [← chars_stretches cs, h, chars_append, chars_cons]
  nonempty := text_ne_nil (h ▸ List.mem_append_right _ List.mem_cons_self)
  start := rfl
  told := rfl
  unlexable := by
    have hsound := sound_of_stretches h
    simpa only [Sound, hx] using hsound
  lexemes t ht := by
    obtain ⟨ss₁', x', ss₂', h', hrole, hspelling, hstart⟩ := exists_of_mem_lexemes ht
    rw [Nat.zero_add] at hstart
    rw [Lexeme.stop, hspelling, utf8ByteSize_ofList, hstart]
    rcases apart_of_stretches (h.symm.trans h') with hle | hle | ⟨-, rfl⟩
    · exact .inr hle
    · exact .inl hle
    · rw [hx] at hrole
      cases hrole
  alone g hg hle hlt := by
    obtain ⟨ss₁', x', ss₂', h', -, rfl⟩ := mem_faults_iff.1 hg
    rw [Nat.zero_add] at hle hlt ⊢
    have hpos := byteLength_pos (text_ne_nil (h' ▸ List.mem_append_right _ List.mem_cons_self))
    rcases apart_of_stretches (h.symm.trans h') with happart | happart | ⟨rfl, rfl⟩
    · exact absurd hlt (Nat.not_lt_of_le happart)
    · exact absurd hle (by omega)
    · rfl

/-- **Nothing of a text is lost.** -/
theorem lossless_ofText (cs : List Char) : Lossless cs (ofText cs) where
  lexeme t ht := by
    obtain ⟨ss₁, x, ss₂, h, hrole, hspelling, hstart⟩ := exists_of_mem_lexemes ht
    have hsound := sound_of_stretches h
    simp only [Sound, hrole] at hsound
    refine ⟨chars ss₁, x.text, chars ss₂, ?_, ?_, ?_, hspelling, hsound⟩
    · rw [← chars_stretches cs, h, chars_append, chars_cons]
    · exact text_ne_nil (h ▸ List.mem_append_right _ List.mem_cons_self)
    · rw [hstart, Nat.zero_add]
  apart := apart_ofStretches
  fault f hf := by
    obtain ⟨ss₁, x, ss₂, h, hrole, rfl⟩ := mem_faults_iff.1 hf
    rw [Nat.zero_add]
    exact ⟨_, _, _, swallows_of_stretches h hrole⟩
  ordered := ordered_faults fun _ => text_ne_nil
  covered front c back hcs := by
    obtain ⟨ss₁, x, ss₂, before, after, h, htext, rfl, rfl⟩ :=
      exists_stretch ((chars_stretches cs).trans hcs)
    have hin : byteLength before < byteLength x.text := by
      have := Char.utf8Size_pos c
      rw [htext, byteLength_append, byteLength_cons]
      omega
    cases hrole : x.role with
    | blank =>
      have hsound := sound_of_stretches h
      simp only [Sound, hrole] at hsound
      exact .inl ((hsound before c after htext).append (chars ss₁))
    | lexeme kind =>
      obtain ⟨t, ht, hspelling, hstart⟩ :=
        exists_lexeme 0 [] ss₁ ss₂ hrole
      rw [← h] at ht
      refine .inr (.lexeme ht ?_ ?_)
      · rw [hstart, byteLength_append]
        omega
      · rw [Lexeme.stop, hspelling, utf8ByteSize_ofList, hstart, byteLength_append]
        omega
    | fault =>
      refine .inr (.fault ?_ (swallows_of_stretches h hrole) ?_ ?_)
      · exact mem_faults_iff.2 ⟨ss₁, x, ss₂, h, hrole, by rw [Nat.zero_add]⟩
      · rw [byteLength_append]
        omega
      · rw [byteLength_append]
        omega

end Stretches

/-- What may stand outside of lexemes and faults: layout, and a backslash that continues a line. -/
def Blank (c : Char) (back : List Char) : Prop :=
  isLayout c = true ∨ c = '\\' ∧ (['\n'] <+: back ∨ ['\r', '\n'] <+: back)

/-- **A backslash directly behind layout is lost**: it continues no line, stands in no lexeme, and
no fault tells of it. -/
theorem backslash_lost :
    ¬ ∀ front c back, "int \\ x;\n".toList = front ++ c :: back →
      Blank c back ∨ Tells "int \\ x;\n".toList (ofText "int \\ x;\n".toList) (byteLength front) := by
  intro h
  have hlexemes : ∀ t ∈ (ofText "int \\ x;\n".toList).lexemes, t.stop ≤ 3 ∨ 6 ≤ t.start := by
    decide +kernel
  have hfaults : (ofText "int \\ x;\n".toList).faults = [] := by decide +kernel
  rcases h "int ".toList '\\' " x;\n".toList rfl with (hlayout | ⟨-, hline | hline⟩) | htells
  · exact absurd hlayout (by decide)
  · exact absurd hline (by decide)
  · exact absurd hline (by decide)
  · cases htells with
    | lexeme ht hstart hstop =>
      have hoffset : byteLength "int ".toList = 4 := rfl
      have := hlexemes _ ht
      omega
    | fault hf _ _ _ =>
      rw [hfaults] at hf
      cases hf

end Lexed

/-- **Nothing of a text is lost in its unit**: the tokens are the lexemes, one for one, and the
diagnostics tell of every fault once, in order, in front of what is wrong with the outline. -/
theorem SourceUnit.lossless_parseText (path : Path) (cs : List Char) (args : List String) :
    (Lexed.ofText cs).Lossless cs ∧
      (parseText path cs args).tokens.toList.map
          (fun t => (t.kind, t.spelling, t.extent.start.offset, t.extent.stop.offset)) =
        (Lexed.ofText cs).lexemes.map (fun t => (t.kind, t.spelling, t.start, t.stop)) ∧
      (parseText path cs args).diagnostics =
        (Lexed.ofText cs).faults.map (fun f =>
            diagnostic path ((LineTable.ofText cs).place f.1) "error" f.2.message) ++
          (Outline.ofSource path.text (Macros.ofArguments args) (.ofText cs)).notes.map fun n =>
            diagnostic path ((Source.ofText cs).placeOf n.index) "error" n.flaw.message := by
  refine ⟨Lexed.lossless_ofText cs, ?_, rfl⟩
  simp only [parseText, Source.unitOf, Source.ofLexed, Array.toList_mapIdx]
  refine List.ext_getElem (by simp) fun i _ _ => ?_
  simp [Source.tokenOf, LineTable.place]

end DocIndex
