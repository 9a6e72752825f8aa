import DocIndex.Outline.Declaration

/-!
# Reading goes on

However a declaration is read, reading goes on behind the lexeme that it begins with
(`lt_next_readDeclaration`).
-/

namespace DocIndex

namespace Source

variable {s : Source}

theorem le_skipDecorations (macros : Macros) (i : Nat) :
    i ≤ (s.skipDecorations macros i).index := by
  fun_induction skipDecorations s macros i with
  | case1 i h _ r ih =>
    have := le_groupEnd h
    have : s.groupEnd i + 1 ≤ r.index := ih
    exact Nat.le_trans (by omega) this
  | case2 i h _ hp r ih =>
    simp only [Bool.and_eq_true] at hp
    have := le_groupEnd (lt_size_of_is hp.2)
    have : s.groupEnd (i + 1) + 1 ≤ r.index := ih
    exact Nat.le_trans (by omega) this
  | case3 i h _ _ _ ih => omega
  | case4 => exact Nat.le_refl _
  | case5 => exact Nat.le_refl _

theorem le_skipBrackets (i : Nat) : i ≤ (s.skipBrackets i).index := by
  fun_induction skipBrackets s i with
  | case1 i h r ih =>
    have := le_groupEnd (lt_size_of_is h)
    have : s.groupEnd i + 1 ≤ r.index := ih
    exact Nat.le_trans (by omega) this
  | case2 => exact Nat.le_refl _

theorem le_namespaceNames (names : List String) (i : Nat) : i ≤ (s.namespaceNames names i).2 := by
  fun_induction namespaceNames s names i with
  | case1 names i j _ _ ih =>
    have : i ≤ j := le_skipInline i
    omega
  | case2 names i j _ _ =>
    have : i ≤ j := le_skipInline i
    exact Nat.le_trans this (Nat.le_succ j)
  | case3 names i j _ => exact le_skipInline i

theorem le_recordName (qualifier : List String) (isSpecialized : Bool) (i : Nat) :
    i ≤ (s.recordName qualifier isSpecialized i).index := by
  have step (i : Nat) : i ≤ if s.is (i + 1) "<" then s.angleEnd (i + 1) + 1 else i + 1 := by
    split
    · have := le_angleEnd (lt_size_of_is ‹_›); omega
    · omega
  fun_induction recordName s qualifier isSpecialized i with
  | case1 qualifier isSpecialized i _ a j _ ih =>
    have : i ≤ j := step i
    omega
  | case2 qualifier isSpecialized i _ a j _ => exact step i
  | case3 => exact Nat.le_refl _

theorem le_baseListEnd (i : Nat) : i ≤ (s.baseListEnd i).index := by
  fun_induction baseListEnd s i with
  | case1 => exact Nat.le_refl _
  | case2 i h _ _ ih => have := le_angleEnd h; omega
  | case3 i h _ _ _ r ih =>
    have := le_groupEnd h
    have : s.groupEnd i + 1 ≤ r.index := ih
    exact Nat.le_trans (by omega) this
  | case4 i h _ _ _ ih => omega
  | case5 => exact Nat.le_refl _

theorem le_underlyingEnd (i : Nat) : i ≤ s.underlyingEnd i := by
  fun_induction underlyingEnd s i <;> omega

theorem le_of_announced {start i k : Nat}
    (h : s.announced start i = .namespaceHead k ∨ s.announced start i = .linkage k) : i ≤ k := by
  unfold announced at h
  split at h <;> (try split at h) <;> simp at h <;> omega

end Source

namespace Outline

variable {s : Source} {scope : Scope} {o : Outline} {start first i : Nat} {templated : Bool}

open Source

theorem lt_next_readPlain (hs : first < s.size) (hi : first ≤ i) :
    first < (o.readPlain s scope start i templated).next := by
  have := le_stop_shape o.macros hs hi
  unfold readPlain
  simp only
  split <;> simp only [done] <;> omega

theorem lt_next_readSimple {kind : CursorKind} (hs : first < s.size) (hi : first ≤ i) :
    first < (o.readSimple s scope kind start i).next := by
  have := le_stop_shape o.macros hs (show first ≤ i + 1 by omega)
  simp only [readSimple, done]
  omega

theorem lt_next_readModule (hs : first < s.size) (hi : first ≤ i) :
    first < (o.readModule s scope start i).next := by
  have := le_statementEnd hs (show first < i + 1 by omega)
  simp only [readModule, done]
  omega

theorem lt_next_readUsing (hs : first < s.size) (hi : first ≤ i) :
    first < (o.readUsing s scope start i templated).next := by
  have := le_statementEnd hs (show first < i + 1 by omega)
  simp only [readUsing, done]
  omega

theorem lt_next_readTypedefRest (hs : start < s.size) (hi : start < i) {outer : Nat} :
    start < (o.readTypedefRest s scope outer i).next := by
  have := le_statementEnd hs hi
  simp only [readTypedefRest, done]
  omega

theorem lt_next_readNamespace (hs : first < s.size) (hi : first ≤ i) :
    first < (o.readNamespace s scope start i).next := by
  have h₁ := le_namespaceNames (s := s) [] (i + 1)
  have h₂ := le_skipBrackets (s := s) (s.namespaceNames [] (i + 1)).2
  have h₃ := le_statementEnd hs
    (show first < (s.skipBrackets (s.namespaceNames [] (i + 1)).2).index by omega)
  unfold readNamespace
  simp only
  split
  · simp only [done]; omega
  split
  · simp only [enter]; omega
  · exact lt_next_readPlain hs (by omega)

theorem lt_next_readRecord (hs : first < s.size) (hi : first ≤ i) {outer : Option Nat} :
    first < (o.readRecord s scope start i templated outer).next := by
  have h₁ := le_skipDecorations (s := s) o.macros (i + 1)
  have h₂ := le_recordName (s := s) [] false (s.skipDecorations o.macros (i + 1)).index
  unfold readRecord
  simp only
  generalize hn : s.recordName [] false (s.skipDecorations o.macros (i + 1)).index = n at h₂ ⊢
  have h₃ : first < if s.is n.index "final" then n.index + 1 else n.index := by split <;> omega
  generalize (if s.is n.index "final" then n.index + 1 else n.index) = j at h₃ ⊢
  have h₄ := le_baseListEnd (s := s) (j + 1)
  split
  · split <;> simp only [enter] <;> omega
  split
  · split
    · split <;> simp only [enter] <;> omega
    · simp only [done]; omega
  split
  · simp only [done]; omega
  split
  · simp only [done]; omega
  · exact lt_next_readPlain hs hi

theorem le_next_readEnumerators (id : CursorId) (o : Outline) (i : Nat) :
    i ≤ (readEnumerators s id o i).2 := by
  fun_induction readEnumerators s id o i with
  | case1 => exact Nat.le_refl _
  | case2 o i h _ _ ih => have := le_lineEnd (s := s) i; omega
  | case3 o i h _ _ _ e last ih =>
    have : i ≤ e.index := le_enumeratorEnd i
    omega
  | case4 o i h _ _ _ ih => omega
  | case5 => exact Nat.le_refl _

theorem le_declaratorsEnd (hs : start < s.size) (hi : start < i) :
    start ≤ (declaratorsEnd s i).index := by
  unfold declaratorsEnd
  split
  · simp only; omega
  split
  · exact le_statementEnd hs hi
  · simp only; omega

theorem lt_next_readEnumBody (hs : start < s.size) {id : CursorId} {first brace : Nat}
    (hb : start < brace) {inTypedef : Bool} :
    start < (o.readEnumBody s id first brace inTypedef).next := by
  have h₁ := le_next_readEnumerators (s := s) id o (brace + 1)
  have h₂ := le_declaratorsEnd hs (show start < (readEnumerators s id o (brace + 1)).2 + 1 by omega)
  simp only [readEnumBody, done]
  cases inTypedef
  · simp only [Bool.false_eq_true, if_false]; omega
  · simp only [if_true]; omega

theorem lt_next_readEnumeration (hs : first < s.size) (hi : first ≤ i) {inTypedef : Bool} :
    first < (o.readEnumeration s scope start i inTypedef).next := by
  unfold readEnumeration
  simp only
  have h₁ : first < if s.is (i + 1) "class" || s.is (i + 1) "struct" then i + 2 else i + 1 := by
    split <;> omega
  generalize (if s.is (i + 1) "class" || s.is (i + 1) "struct" then i + 2 else i + 1) = j at h₁ ⊢
  have h₂ := le_skipDecorations (s := s) o.macros j
  generalize s.skipDecorations o.macros j = a at h₂ ⊢
  have h₃ : first < if s.isIdentifier a.index then a.index + 1 else a.index := by split <;> omega
  generalize (if s.isIdentifier a.index then a.index + 1 else a.index) = k at h₃ ⊢
  have h₄ : first < if s.is k ":" then s.underlyingEnd k else k := by
    have := le_underlyingEnd (s := s) k
    split <;> omega
  generalize (if s.is k ":" then s.underlyingEnd k else k) = b at h₄ ⊢
  split
  · exact lt_next_readEnumBody hs h₄
  split
  · simp only [done]; omega
  split
  · simp only [done]; omega
  · exact lt_next_readPlain hs hi

theorem lt_next_readTypedef (hs : first < s.size) (hi : first ≤ i) :
    first < (o.readTypedef s scope start i).next := by
  have hr : i + 1 < s.size →
      first < (o.readRecord s scope (i + 1) (i + 1) false (some start)).next :=
    fun h => Nat.lt_of_le_of_lt (by omega) (lt_next_readRecord h (Nat.le_refl _))
  have he : i + 1 < s.size → first < (o.readEnumeration s scope (i + 1) (i + 1) true).next :=
    fun h => Nat.lt_of_le_of_lt (by omega) (lt_next_readEnumeration h (Nat.le_refl _))
  unfold readTypedef
  split
  · rename_i h
    have h : i + 1 < s.size := by
      simp only [Bool.or_eq_true] at h
      rcases h with (h | h) | h <;> exact lt_size_of_is h
    simp only
    split
    · exact hr h
    · exact lt_next_readTypedefRest hs (hr h)
  split
  · rename_i h
    exact lt_next_readTypedefRest hs (he (lt_size_of_is h))
  · exact lt_next_readTypedefRest hs (by omega)

/-- **Reading goes on behind the first lexeme of a declaration**, whatever stands in front of its
own words. -/
theorem lt_next_readDeclaration (hs : start < s.size) (hi : start ≤ i) :
    start < (readDeclaration s scope start o i templated).next := by
  fun_induction readDeclaration s scope start o i templated with
  | case1 o i templated h hb =>
    simp only [Bool.and_eq_true, decide_eq_true_eq] at hb
    exact hb.2
  | case2 o i templated h _ _ last o' id _ _ =>
    have : i ≤ last := le_macroCallEnd s o.macros i
    simp only [done]
    omega
  | case3 o i templated h _ _ last o' id _ _ =>
    have : i ≤ last := le_macroCallEnd s o.macros i
    simp only [done]
    omega
  | case4 o i templated h _ _ last o' id _ _ _ ih =>
    have : i ≤ last := le_macroCallEnd s o.macros i
    exact ih (Nat.le_trans hi (Nat.le_succ_of_le this))
  | case5 o i templated h _ _ keyword ha =>
    exact lt_next_readNamespace hs (Nat.le_trans hi (le_of_announced (.inl ha)))
  | case6 o i templated h _ _ brace ha =>
    have := le_of_announced (.inr ha)
    simp only [readLinkage, enter]
    omega
  | case7 o i templated h _ _ ha ih => exact ih (by omega)
  | case8 o i templated h _ _ ha => exact lt_next_readModule hs hi
  | case9 o i templated h _ _ ha ih =>
    have := le_angleEnd (lt_size_of_is (is_of_announced ha))
    exact ih (by omega)
  | case10 o i templated h _ _ ha => simp only [done]; omega
  | case11 o i templated h _ _ ha => exact lt_next_readRecord hs hi
  | case12 o i templated h _ _ ha => exact lt_next_readEnumeration hs hi
  | case13 o i templated h _ _ ha => exact lt_next_readUsing hs hi
  | case14 o i templated h _ _ ha => exact lt_next_readTypedef hs hi
  | case15 o i templated h _ _ kind ha => exact lt_next_readSimple hs hi
  | case16 o i templated h _ _ ha => exact lt_next_readPlain hs hi
  | case17 o i templated h => simp only [done]; omega

/-- Reading goes on behind the lexeme that it has come to, unless that closes a scope or is none. -/
theorem next_readDeclaration :
    i < (readDeclaration s scope start o i templated).next ∨
      (readDeclaration s scope start o i templated).next = i ∧
        (s.is i "\x7d" = true ∨ s.size ≤ i) := by
  fun_induction readDeclaration s scope start o i templated with
  | case1 o i templated h hb =>
    simp only [Bool.and_eq_true] at hb
    exact .inr ⟨rfl, .inl hb.1⟩
  | case2 o i templated h _ _ last o' id _ _ =>
    have : i ≤ last := le_macroCallEnd s o.macros i
    simp only [done]
    omega
  | case3 o i templated h _ _ last o' id _ _ =>
    have : i ≤ last := le_macroCallEnd s o.macros i
    simp only [done]
    omega
  | case4 o i templated h _ _ last o' id _ _ _ ih =>
    have : i ≤ last := le_macroCallEnd s o.macros i
    omega
  | case5 o i templated h _ _ keyword ha =>
    exact .inl (lt_next_readNamespace h (le_of_announced (.inl ha)))
  | case6 o i templated h _ _ brace ha =>
    have := le_of_announced (.inr ha)
    simp only [readLinkage, enter]
    omega
  | case7 o i templated h _ _ ha ih => omega
  | case8 o i templated h _ _ ha => exact .inl (lt_next_readModule h (Nat.le_refl i))
  | case9 o i templated h _ _ ha ih =>
    have := le_angleEnd (lt_size_of_is (is_of_announced ha))
    omega
  | case10 o i templated h _ _ ha => simp only [done]; omega
  | case11 o i templated h _ _ ha => exact .inl (lt_next_readRecord h (Nat.le_refl i))
  | case12 o i templated h _ _ ha => exact .inl (lt_next_readEnumeration h (Nat.le_refl i))
  | case13 o i templated h _ _ ha => exact .inl (lt_next_readUsing h (Nat.le_refl i))
  | case14 o i templated h _ _ ha => exact .inl (lt_next_readTypedef h (Nat.le_refl i))
  | case15 o i templated h _ _ kind ha => exact .inl (lt_next_readSimple h (Nat.le_refl i))
  | case16 o i templated h _ _ ha => exact .inl (lt_next_readPlain h (Nat.le_refl i))
  | case17 o i templated h => exact .inr ⟨rfl, .inr (by omega)⟩

end Outline

end DocIndex
