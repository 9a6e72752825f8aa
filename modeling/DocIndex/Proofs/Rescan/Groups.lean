import DocIndex.Proofs.Rescan.Kept
import DocIndex.Proofs.Source.Tokens

/-!
# Nested groups

Where the words of a text nest their brackets, the bracket that closes a group is the one that
belongs to it (`close?_group`), and template arguments reach over the group as over a single word
(`angleEndFrom_group`).
-/

namespace DocIndex

/-- The word as it is spelled. -/
def Word.text (w : Word) : String :=
  String.ofList w.chars

namespace Source

variable {s : Source} {i depth : Nat} {opening closing word : String} {brackets : Int}
  {w o c : Word} {is rs ws : List Word} {words : List String}

theorem At.spelling_text (h : s.At i w) : s.spelling i = w.text :=
  h.spelling

/-- The words of a group, and those behind it, stand at their places. -/
theorem shows_group (h : s.Shows i (o :: (is ++ c :: rs))) :
    s.At i o ∧ s.Shows (i + 1) is ∧ s.At (i + 1 + is.length) c ∧
      s.Shows (i + 1 + is.length + 1) rs := by
  obtain ⟨ho, hbehind⟩ := h
  obtain ⟨his, hc, hrs⟩ := shows_append.1 hbehind
  exact ⟨ho, his, hc, hrs⟩

/-! ## Closing brackets -/

theorem closeFrom_word (hi : i < s.size) (hopening : s.spelling i ≠ opening)
    (hclosing : s.spelling i ≠ closing) :
    s.closeFrom opening closing depth i = s.closeFrom opening closing depth (i + 1) := by
  rw [closeFrom, if_pos hi, if_neg hopening, if_neg hclosing]

theorem closeFrom_opening (hi : i < s.size) (hopening : s.spelling i = opening) :
    s.closeFrom opening closing depth i = s.closeFrom opening closing (depth + 1) (i + 1) := by
  rw [closeFrom, if_pos hi, if_pos hopening]

/-- What a bracket is told apart from. -/
theorem brackets_apart (hopening : opening ∈ ["(", "[", "\x7b"])
    (hword : word ∈ ["(", "[", "\x7b"]) :
    opening ≠ closingOf word ∧ closingOf opening ∈ bracketWords ∧ opening ∈ bracketWords ∧
      (word ≠ opening → closingOf word ≠ closingOf opening) := by
  simp only [List.mem_cons, List.not_mem_nil, or_false] at hopening hword
  rcases hopening with rfl | rfl | rfl <;> rcases hword with rfl | rfl | rfl <;> decide

/-- Within a group, nested groups are passed over. -/
theorem closeFrom_nested (hopening : opening ∈ ["(", "[", "\x7b"]) (hwords : Balanced words)
    (htexts : ws.map Word.text = words) (h : s.Shows i ws) (depth : Nat) :
    s.closeFrom opening (closingOf opening) (depth + 1) i =
      s.closeFrom opening (closingOf opening) (depth + 1) (i + ws.length) := by
  induction hwords generalizing ws i depth with
  | nil =>
    obtain rfl := List.map_eq_nil_iff.1 htexts
    rfl
  | word hw _ ih =>
    obtain ⟨w, ws, rfl, rfl, hrest⟩ := List.map_eq_cons_iff.1 htexts
    obtain ⟨hclosing, hmem, hmem', -⟩ := brackets_apart hopening hopening
    have hplace := h.1.spelling_text
    rw [closeFrom_word h.1.lt (by rw [hplace]; rintro rfl; exact hw hmem')
      (by rw [hplace]; intro heq; exact hw (heq ▸ hmem)), ih hrest h.2, List.length_cons,
      Nat.add_right_comm]
    rfl
  | @group inner inside rest hinner _ _ ihInner ihRest =>
    obtain ⟨o, is, c, rs, rfl, ho, his, hc, hrs⟩ := exists_of_map_eq_group htexts
    obtain ⟨hfirst, hinside, hlast, hbehind⟩ := shows_group h
    have hfirst' := hfirst.spelling_text.trans ho
    have hlast' := hlast.spelling_text.trans hc
    have hlength : i + (o :: (is ++ c :: rs)).length = i + 1 + is.length + 1 + rs.length := by
      simp only [List.length_cons, List.length_append]
      omega
    obtain ⟨happart, -, -, hother⟩ := brackets_apart hopening hinner
    obtain ⟨happart', -, -, -⟩ := brackets_apart hinner hopening
    rw [hlength]
    -- a group of the same kind is counted in and out again, another one is words
    by_cases hsame : inner = opening
    · subst hsame
      rw [closeFrom_opening hfirst.lt hfirst', ihInner his hinside, closeFrom, if_pos hlast.lt,
        if_neg (by rw [hlast']; exact happart.symm), if_pos hlast', if_neg (by omega),
        Nat.add_sub_cancel, ihRest hrs hbehind]
    · rw [closeFrom_word hfirst.lt (by rwa [hfirst']) (by rwa [hfirst']), ihInner his hinside,
        closeFrom_word hlast.lt (by rw [hlast']; exact happart.symm)
          (by rw [hlast']; exact hother hsame), ihRest hrs hbehind]

/-- **A group is closed by the bracket that belongs to it.** -/
theorem close?_group (hopening : o.text ∈ ["(", "[", "\x7b"])
    (hinner : Balanced (is.map Word.text)) (hclosing : c.text = closingOf o.text)
    (h : s.Shows i (o :: (is ++ c :: rs))) : s.close? i = some (i + 1 + is.length) := by
  obtain ⟨hfirst, hinside, hlast, -⟩ := shows_group h
  have hfirst' := hfirst.spelling_text
  have hopens : s.openingAt i = o.text := by
    simp only [List.mem_cons, List.not_mem_nil, or_false] at hopening
    rw [openingAt, hfirst']
    rcases hopening with h | h | h <;> simp [h]
  obtain ⟨happart, -, -, -⟩ := brackets_apart hopening hopening
  have hlast' := hlast.spelling_text.trans hclosing
  rw [close?, hopens, closeFrom_opening hfirst.lt hfirst',
    closeFrom_nested hopening hinner rfl hinside, closeFrom, if_pos hlast.lt,
    if_neg (by rw [hlast']; exact happart.symm), if_pos hlast', if_pos (Nat.le_refl 1)]

/-! ## Template arguments -/

theorem depthAfter_word (h : s.spelling i ∉ bracketWords) (brackets : Int) :
    s.depthAfter i brackets = brackets := by
  simp only [bracketWords, List.mem_cons, List.not_mem_nil, or_false, not_or] at h
  simp [depthAfter, h]

theorem depthAfter_opening (h : s.spelling i ∈ ["(", "[", "\x7b"]) (brackets : Int) :
    s.depthAfter i brackets = brackets + 1 := by
  simp only [List.mem_cons, List.not_mem_nil, or_false] at h
  rcases h with h | h | h <;> simp [depthAfter, h]

theorem depthAfter_closing (hopening : opening ∈ ["(", "[", "\x7b"])
    (h : s.spelling i = closingOf opening) (brackets : Int) :
    s.depthAfter i brackets = brackets - 1 := by
  simp only [List.mem_cons, List.not_mem_nil, or_false] at hopening
  rcases hopening with rfl | rfl | rfl <;> simp [depthAfter, h, closingOf]

/-- At a bracket, and within brackets, angle brackets do not count. -/
theorem angleEndFrom_within (hi : i < s.size)
    (h : s.depthAfter i brackets ≠ brackets ∨ brackets ≠ 0) :
    s.angleEndFrom depth brackets i = s.angleEndFrom depth (s.depthAfter i brackets) (i + 1) := by
  rw [angleEndFrom, if_pos hi, if_pos (by simpa using h)]

/-- Within brackets, nested groups are passed over. -/
theorem angleEndFrom_nested (hwords : Balanced words) (htexts : ws.map Word.text = words)
    (h : s.Shows i ws) (hbrackets : 0 < brackets) :
    s.angleEndFrom depth brackets i = s.angleEndFrom depth brackets (i + ws.length) := by
  induction hwords generalizing ws i brackets with
  | nil =>
    obtain rfl := List.map_eq_nil_iff.1 htexts
    rfl
  | word hw _ ih =>
    obtain ⟨w, ws, rfl, rfl, hrest⟩ := List.map_eq_cons_iff.1 htexts
    have hplace := h.1.spelling_text
    rw [angleEndFrom_within h.1.lt (.inr (by omega)), depthAfter_word (by rwa [hplace]),
      ih hrest h.2 hbrackets, List.length_cons, Nat.add_right_comm]
    rfl
  | @group inner inside rest hinner _ _ ihInner ihRest =>
    obtain ⟨o, is, c, rs, rfl, rfl, his, hc, hrs⟩ := exists_of_map_eq_group htexts
    obtain ⟨hfirst, hinside, hlast, hbehind⟩ := shows_group h
    -- the depth stays positive, so no angle bracket counts in the nested group
    have hopen := depthAfter_opening (s := s) (i := i) (by rwa [hfirst.spelling_text]) brackets
    have hclose := depthAfter_closing hinner (hlast.spelling_text.trans hc) (brackets + 1)
    have hlength : i + (o :: (is ++ c :: rs)).length = i + 1 + is.length + 1 + rs.length := by
      simp only [List.length_cons, List.length_append]
      omega
    rw [hlength, angleEndFrom_within hfirst.lt (.inr (by omega)), hopen,
      ihInner his hinside (by omega), angleEndFrom_within hlast.lt (.inr (by omega)), hclose,
      Int.add_sub_cancel, ihRest hrs hbehind hbrackets]

/-- **Template arguments reach over a group.** -/
theorem angleEndFrom_group (hopening : o.text ∈ ["(", "[", "\x7b"])
    (hinner : Balanced (is.map Word.text)) (hclosing : c.text = closingOf o.text)
    (h : s.Shows i (o :: (is ++ c :: rs))) (depth : Nat) :
    s.angleEndFrom depth 0 i = s.angleEndFrom depth 0 (i + 1 + is.length + 1) := by
  obtain ⟨hfirst, hinside, hlast, -⟩ := shows_group h
  have hopen : s.depthAfter i 0 = 1 :=
    depthAfter_opening (by rwa [hfirst.spelling_text]) 0
  have hclose : s.depthAfter (i + 1 + is.length) 1 = 0 :=
    depthAfter_closing hopening (hlast.spelling_text.trans hclosing) 1
  rw [angleEndFrom_within hfirst.lt (.inl (by rw [hopen]; decide)), hopen,
    angleEndFrom_nested hinner rfl hinside Int.one_pos,
    angleEndFrom_within hlast.lt (.inr Int.one_ne_zero), hclose]

end Source

end DocIndex
