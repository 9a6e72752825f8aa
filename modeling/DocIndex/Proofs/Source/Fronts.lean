import DocIndex.Proofs.Source.Stretches

/-!
# What the front of a text depends on

How a lexeme is cut off depends on what follows it, but not on all of that. If what follows begins
alike up to a space, a `;` or the end of the text, the lexeme is cut off alike (`front_congr`): no
lexeme goes on with one of these unless it holds it already.
-/

namespace DocIndex

namespace Lexer

/-- If the text goes on, it does so with a character that no lexeme takes in. -/
def Separated (cs : List Char) : Prop :=
  ∀ c ∈ cs.head?, c = ' ' ∨ c = ';'

variable {c : Char} {ds text p q q' word : List Char} {n : Nat}

/-- What holds no such character does not reach over a separation. -/
theorem Separated.length_le (h : Separated q') (hword : ∀ c ∈ word, c ≠ ' ' ∧ c ≠ ';')
    (hpre : word <+: p ++ q') : word.length ≤ p.length := by
  refine Nat.le_of_not_lt fun hlt => ?_
  obtain ⟨rest, hrest⟩ := hpre
  cases q' with
  | nil =>
    have hlen := congrArg List.length hrest
    simp only [List.length_append, List.append_nil] at hlen
    omega
  | cons s q' =>
    have hget : (p ++ s :: q')[p.length]? = some s := by simp
    rw [← hrest, List.getElem?_append_left hlt] at hget
    have hne := hword s (List.mem_of_getElem? hget)
    exact (h s rfl).elim hne.1 hne.2

/-! ## Literals -/

/-- A body that is found within the front is found there whatever follows. -/
theorem bodyLength_append {mark : Char} (hmark : mark ≠ '\\')
    (h : bodyLength mark (p ++ q) = (n, true)) (hn : n ≤ p.length) :
    bodyLength mark (p ++ q') = (n, true) := by
  generalize htext : p ++ q = text at h
  fun_induction bodyLength mark text generalizing p n with
  | case1 => cases h
  | case2 => cases h
  | case3 c cs hc b =>
    rename_i ih
    obtain ⟨rfl, hfound⟩ := Prod.mk.inj h
    match p, hn with
    | x :: y :: p, hn =>
      obtain ⟨rfl, rfl, hrest⟩ : x = '\\' ∧ y = c ∧ p ++ q = cs := by simpa using htext
      have hlen : (bodyLength mark cs).1 ≤ p.length := by simpa using hn
      have hbody := ih hlen hrest (Prod.ext rfl hfound)
      simp only [List.cons_append, bodyLength, hc, if_false, hbody, b]
  | case4 cs hfront =>
    obtain ⟨rfl, -⟩ := Prod.mk.inj h
    match p, hn with
    | x :: p, hn =>
      obtain ⟨rfl, -⟩ : x = mark ∧ p ++ q = cs := by simpa using htext
      cases hp : p ++ q' with
      | nil => simp [bodyLength, hp]
      | cons d ds => simp [bodyLength, hp, hmark]
  | case5 => cases h
  | case6 c cs hfront hc hother b =>
    rename_i ih
    obtain ⟨rfl, hfound⟩ := Prod.mk.inj h
    match p, hn with
    | x :: p, hn =>
      obtain ⟨rfl, hrest⟩ : x = c ∧ p ++ q = cs := by simpa using htext
      have hlen : (bodyLength mark cs).1 ≤ p.length := by simpa using hn
      have hbody := ih hlen hrest (Prod.ext rfl hfound)
      have hx : x ≠ '\\' := fun hx => hother (by simp [hx])
      cases hp : p ++ q' with
      | nil => simp_all [bodyLength, b]
      | cons d ds => simp_all [bodyLength, b]

/-- A word that occurs within the front is first found there whatever follows. -/
theorem before?_append (h : before? word (p ++ q) = some n) (hn : n + word.length ≤ p.length) :
    before? word (p ++ q') = some n := by
  induction p generalizing n with
  | nil =>
    have hzero : n + word.length = 0 := Nat.le_zero.1 hn
    obtain rfl : word = [] := List.eq_nil_of_length_eq_zero (by omega)
    obtain rfl : n = 0 := by omega
    cases q' <;> rfl
  | cons c p ih =>
    have hpre (r : List Char) (hle : word.length ≤ (c :: p).length) :
        word.isPrefixOf (c :: (p ++ r)) = word.isPrefixOf (c :: p) := by
      rw [Bool.eq_iff_iff, List.isPrefixOf_iff_prefix, List.isPrefixOf_iff_prefix,
        ← List.cons_append]
      exact ⟨fun h => List.prefix_of_prefix_length_le h (List.prefix_append _ _) hle,
        fun h => h.trans (List.prefix_append _ _)⟩
    have hle : word.length ≤ (c :: p).length := by omega
    rw [List.cons_append, before?, hpre _ hle] at h ⊢
    by_cases hhere : word.isPrefixOf (c :: p) = true
    · rwa [if_pos hhere] at h ⊢
    · rw [if_neg hhere] at h ⊢
      obtain ⟨m, hm, rfl⟩ := Option.map_eq_some_iff.1 h
      have hfound := ih hm (by simp only [List.length_cons] at hn; omega)
      rw [hfound, Option.map_some]

/-- A raw string that ends within the front ends there whatever follows. -/
theorem rawTail_append (h : rawTail (p ++ q) = (.lexeme .literal, n)) (hn : n ≤ p.length) :
    rawTail (p ++ q') = (.lexeme .literal, n) := by
  unfold rawTail at h
  split at h
  · cases h
  rename_i m hm
  simp only at h
  split at h
  · rename_i hdelimiter
    split at h
    · rename_i k hk
      obtain ⟨-, rfl⟩ := Prod.mk.inj h
      simp only [List.cons_append, List.length_cons] at hn
      have hopen : before? ['('] (p ++ q') = some m :=
        before?_append hm (by simp only [List.length_singleton]; omega)
      have htake (r : List Char) : (p ++ r).take m = p.take m :=
        List.take_append_of_le_length (by omega)
      have hdrop (r : List Char) : (p ++ r).drop (m + 1) = p.drop (m + 1) ++ r :=
        List.drop_append_of_le_length (by omega)
      rw [htake] at hdelimiter hk
      rw [hdrop] at hk
      have hclose : before? (')' :: p.take m ++ ['"']) (p.drop (m + 1) ++ q') = some k := by
        refine before?_append hk ?_
        rw [htake] at hn
        simp only [List.length_drop, List.cons_append, List.length_cons]
        omega
      simp only [rawTail, hopen, htake, hdrop, hdelimiter, hclose, if_true]
    · cases h
  · cases h

/-- The encodings that a literal may name. -/
def encodings : List (List Char) :=
  [[], ['u', '8'], ['u'], ['U'], ['L']]

theorem openingMark?_eq_some {form : LiteralForm} (h : openingMark? text = some (n, form)) :
    ∃ m rest, text = m ++ rest ∧ m.length = n ∧ (∀ c ∈ m, c ≠ ' ' ∧ c ≠ ';') ∧
      form ≠ .between '\\' ∧ ∀ rest', ∀ enc ∈ encodings,
        opening? (enc ++ (m ++ rest')) = some (n + enc.length, form) := by
  unfold openingMark? at h
  split at h <;> cases h
  · exact ⟨['R', '"'], _, rfl, rfl, by simp, by simp, by simp [encodings, opening?, openingMark?]⟩
  · exact ⟨['"'], _, rfl, rfl, by simp, by simp, by simp [encodings, opening?, openingMark?]⟩
  · exact ⟨['\''], _, rfl, rfl, by simp, by simp, by simp [encodings, opening?, openingMark?]⟩

/-- The opening of a literal is told by its own characters, and none of them separates. -/
theorem opening?_eq_some {form : LiteralForm} (h : opening? text = some (n, form)) :
    ∃ m rest, text = m ++ rest ∧ m.length = n ∧ (∀ c ∈ m, c ≠ ' ' ∧ c ≠ ';') ∧
      form ≠ .between '\\' ∧ ∀ rest', opening? (m ++ rest') = some (n, form) := by
  have hencoded (enc cs : List Char) (henc : enc ∈ encodings) (htext : text = enc ++ cs)
      (hmark : (openingMark? cs).map (fun m => (m.1 + enc.length, m.2)) = some (n, form)) :
      ∃ m rest, text = m ++ rest ∧ m.length = n ∧ (∀ c ∈ m, c ≠ ' ' ∧ c ≠ ';') ∧
        form ≠ .between '\\' ∧ ∀ rest', opening? (m ++ rest') = some (n, form) := by
    have hplain : ∀ enc ∈ encodings, ∀ c ∈ enc, c ≠ ' ' ∧ c ≠ ';' := by
      simp [encodings]
    obtain ⟨⟨k, form'⟩, hk, heq⟩ := Option.map_eq_some_iff.1 hmark
    cases heq
    obtain ⟨m, rest, rfl, rfl, hm, hform, hopen⟩ := openingMark?_eq_some hk
    refine ⟨enc ++ m, rest, by rw [htext, List.append_assoc], ?_, ?_, hform, fun rest' => ?_⟩
    · rw [List.length_append, Nat.add_comm]
    · intro c hc
      exact (List.mem_append.1 hc).elim (hplain enc henc c) (hm c)
    · rw [List.append_assoc]
      exact hopen rest' enc henc
  unfold opening? at h
  split at h
  · exact hencoded ['u', '8'] _ (by decide) rfl h
  · exact hencoded ['u'] _ (by decide) rfl h
  · exact hencoded ['U'] _ (by decide) rfl h
  · exact hencoded ['L'] _ (by decide) rfl h
  · refine hencoded [] text (by decide) rfl ?_
    rw [h]
    rfl

theorem opening?_pos {form : LiteralForm} (h : opening? text = some (n, form)) : 0 < n := by
  obtain ⟨m, rest, -, rfl, -, -, hany⟩ := opening?_eq_some h
  cases m with
  | nil => cases hany []
  | cons c m => exact Nat.succ_pos _

/-- Whether the front opens a literal does not depend on what follows a separation. -/
theorem opening?_congr (hseparated : Separated q')
    (h : ∀ n form, opening? (p ++ q) = some (n, form) → n ≤ p.length) :
    opening? (p ++ q') = opening? (p ++ q) := by
  cases hopen : opening? (p ++ q) with
  | some r =>
    obtain ⟨n, form⟩ := r
    have hn := h n form hopen
    obtain ⟨m, rest, hm, rfl, -, -, hany⟩ := opening?_eq_some hopen
    obtain ⟨p', rfl⟩ : m <+: p :=
      List.prefix_of_prefix_length_le ⟨rest, hm.symm⟩ (List.prefix_append p q) hn
    rw [List.append_assoc]
    exact hany _
  | none =>
    cases hopen' : opening? (p ++ q') with
    | none => rfl
    | some r =>
      obtain ⟨n, form⟩ := r
      obtain ⟨m, rest, hm, rfl, hplain, -, hany⟩ := opening?_eq_some hopen'
      have hpre : m <+: p ++ q' := ⟨rest, hm.symm⟩
      obtain ⟨p', rfl⟩ : m <+: p := List.prefix_of_prefix_length_le hpre (List.prefix_append p _)
        (hseparated.length_le hplain hpre)
      rw [List.append_assoc, hany] at hopen
      cases hopen

/-- A literal that ends within the front ends there whatever follows. -/
theorem literal_append {form : LiteralForm} (hform : form ≠ .between '\\')
    {k : Nat} (h : literal n form (p ++ q) = (.lexeme .literal, k)) (hk : k ≤ p.length) :
    literal n form (p ++ q') = (.lexeme .literal, k) := by
  cases form with
  | raw =>
    obtain ⟨hrole, rfl⟩ := Prod.mk.inj h
    have hdrop (r : List Char) : (p ++ r).drop n = p.drop n ++ r :=
      List.drop_append_of_le_length (by omega)
    rw [hdrop] at hrole hk ⊢
    have hlen : (rawTail (p.drop n ++ q)).2 ≤ (p.drop n).length := by
      rw [List.length_drop]
      exact Nat.le_sub_of_add_le' hk
    have htail : rawTail (p.drop n ++ q') = (.lexeme .literal, (rawTail (p.drop n ++ q)).2) :=
      rawTail_append (Prod.ext hrole rfl) hlen
    simp only [literal, hdrop, htail]
  | between mark =>
    obtain ⟨hrole, rfl⟩ := Prod.mk.inj h
    have hdrop (r : List Char) : (p ++ r).drop n = p.drop n ++ r :=
      List.drop_append_of_le_length (by omega)
    rw [hdrop] at hrole hk ⊢
    have hfound : (bodyLength mark (p.drop n ++ q)).2 = true := by
      cases hb : (bodyLength mark (p.drop n ++ q)).2 with
      | true => rfl
      | false => rw [hb] at hrole; cases hrole
    have hlen : (bodyLength mark (p.drop n ++ q)).1 ≤ (p.drop n).length := by
      rw [List.length_drop]
      exact Nat.le_sub_of_add_le' hk
    have hbody : bodyLength mark (p.drop n ++ q') = ((bodyLength mark (p.drop n ++ q)).1, true) :=
      bodyLength_append (fun hm => hform (by rw [hm])) (Prod.ext rfl hfound) hlen
    simp only [literal, hdrop, hbody, if_true]

/-! ## Words and numbers -/

/-- What does not go on with a part of a word does not do so behind a separation either. -/
theorem head_congr {w r r' : List Char} (P : Char → Prop) (hsep : ∀ c, c = ' ' ∨ c = ';' → P c)
    (hseparated : Separated r') (h : ∀ c ∈ (w ++ r).head?, P c) :
    ∀ c ∈ (w ++ r').head?, P c := by
  cases w with
  | cons d ds => exact h
  | nil => exact fun c hc => hsep c (hseparated c hc)

theorem takeWhile_eq_self_iff {P : Char → Bool} :
    (p ++ q).takeWhile P = p ↔ (∀ c ∈ p, P c = true) ∧ ∀ c ∈ q.head?, P c = false := by
  constructor
  · intro h
    have hp : ∀ c ∈ p, P c = true := by
      intro c hc
      rw [← h] at hc
      exact List.all_eq_true.1 List.all_takeWhile c hc
    refine ⟨hp, ?_⟩
    rw [List.takeWhile_append_of_pos hp, List.append_right_eq_self] at h
    intro c hc
    obtain ⟨rest, rfl⟩ := List.head?_eq_some_iff.1 hc
    cases hP : P c with
    | false => rfl
    | true =>
      rw [List.takeWhile_cons_of_pos hP] at h
      cases h
  · rintro ⟨hp, hq⟩
    rw [List.takeWhile_append_of_pos hp, List.append_right_eq_self]
    cases q with
    | nil => rfl
    | cons d ds => exact List.takeWhile_cons_of_neg (by rw [hq d rfl]; decide)

theorem takeWhile_eq_of_length {P : Char → Bool}
    (h : ((p ++ q).takeWhile P).length = p.length) : (p ++ q).takeWhile P = p := by
  have hpre := List.takeWhile_prefix P (l := p ++ q)
  exact List.prefix_or_prefix_of_prefix hpre (List.prefix_append p _) |>.elim
    (fun hp => hp.eq_of_length h) fun hp => (hp.eq_of_length h.symm).symm

/-- A run of characters that ends somewhere ends there in front of every text that goes on alike. -/
theorem takeWhile_congr {w r r' : List Char} {P : Char → Bool} (hseparated : Separated r')
    (hsep : ∀ c, c = ' ' ∨ c = ';' → P c = false)
    (h : ((p ++ (w ++ r)).takeWhile P).length = p.length) :
    (p ++ (w ++ r')).takeWhile P = (p ++ (w ++ r)).takeWhile P := by
  have hrun := takeWhile_eq_of_length h
  rw [hrun]
  obtain ⟨hp, hnext⟩ := takeWhile_eq_self_iff.1 hrun
  exact takeWhile_eq_self_iff.2 ⟨hp, head_congr (w := w) _ hsep hseparated hnext⟩

theorem numberLength_cons_cons (c d : Char) (cs : List Char) :
    numberLength (c :: d :: cs) =
      if isExponentMark c && (d = '+' || d = '-') then numberLength cs + 2
      else if isNumberPart c then numberLength (d :: cs) + 1
      else 0 := by
  rw [numberLength]

theorem isNumberPart_of_isExponentMark (h : isExponentMark c = true) : isNumberPart c = true := by
  simp only [isExponentMark, Bool.or_eq_true, decide_eq_true_eq] at h
  rcases h with ((rfl | rfl) | rfl) | rfl <;> decide

theorem numberLength_eq_zero :
    numberLength text = 0 ↔ ∀ c ∈ text.head?, isNumberPart c = false := by
  match text with
  | [] => simp [numberLength]
  | [c] => cases hc : isNumberPart c <;> simp [numberLength, hc]
  | c :: d :: cs =>
    have hmark := @isNumberPart_of_isExponentMark c
    cases hc : isNumberPart c <;> cases he : isExponentMark c <;> simp_all [numberLength]
    split <;> simp

theorem numberLength_eq_one :
    numberLength (c :: text) = 1 ↔ isNumberPart c = true ∧ ∀ d ∈ text.head?,
      isNumberPart d = false ∧ (isExponentMark c = true → d ≠ '+' ∧ d ≠ '-') := by
  cases text with
  | nil => cases hc : isNumberPart c <;> simp [numberLength, hc]
  | cons d cs =>
    have hzero := @numberLength_eq_zero (d :: cs)
    have hsign : isExponentMark c = true ∧ (d = '+' ∨ d = '-') →
        numberLength (c :: d :: cs) ≠ 1 := by
      rintro ⟨he, hd⟩
      simp [numberLength_cons_cons, he, hd]
    by_cases hboth : isExponentMark c = true ∧ (d = '+' ∨ d = '-')
    · simp only [hsign hboth, false_iff]
      rintro ⟨-, h⟩
      have hd := (h d rfl).2 hboth.1
      exact hboth.2.elim hd.1 hd.2
    · have hnot : (isExponentMark c && (d = '+' || d = '-')) = false := by
        simpa using hboth
      rw [numberLength_cons_cons, hnot, if_neg (by decide)]
      cases hc : isNumberPart c with
      | false => simp
      | true =>
        have hd : isExponentMark c = true → d ≠ '+' ∧ d ≠ '-' := by
          simpa using hboth
        simp only [List.head?_cons, Option.mem_some_iff, forall_eq'] at hzero
        simp only [if_true, Nat.add_eq_right, hzero, List.head?_cons, Option.mem_some_iff,
          forall_eq', true_and]
        exact ⟨fun h => ⟨h, hd⟩, And.left⟩

/-- A number that ends somewhere ends there in front of every text that goes on alike. -/
theorem numberLength_congr (p : List Char) {w r r' : List Char} (hseparated : Separated r')
    (h : numberLength (p ++ (w ++ r)) = p.length) :
    numberLength (p ++ (w ++ r')) = p.length := by
  match p, h with
  | [], h =>
    have hnext := numberLength_eq_zero.1 h
    refine numberLength_eq_zero.2 (head_congr (w := w) _ ?_ hseparated hnext)
    rintro c (rfl | rfl) <;> rfl
  | [x], h =>
    obtain ⟨hx, hnext⟩ := numberLength_eq_one.1 h
    refine numberLength_eq_one.2 ⟨hx, head_congr (w := w) _ ?_ hseparated hnext⟩
    rintro c (rfl | rfl) <;> exact ⟨rfl, fun _ => by decide⟩
  | x :: y :: p, h =>
    simp only [List.cons_append, List.length_cons, numberLength_cons_cons] at h ⊢
    split at h
    · rename_i hsign
      rw [if_pos hsign, numberLength_congr p hseparated (Nat.add_right_cancel h)]
    · rename_i hsign
      rw [if_neg hsign]
      split at h
      · rename_i hx
        have hrest := numberLength_congr (y :: p) hseparated (Nat.add_right_cancel h)
        rw [if_pos hx]
        exact congrArg (· + 1) hrest
      · cases h
termination_by p.length

/-! ## Punctuation -/

/-- Characters in front that do not reach over a separation stand in front of every text that goes
on alike. -/
theorem isPrefixOf_of_separated (hseparated : Separated q')
    (hword : ∀ c ∈ word, c ≠ ' ' ∧ c ≠ ';') (h : word.isPrefixOf (p ++ q') = true) :
    word <+: p := by
  have hpre := List.isPrefixOf_iff_prefix.1 h
  exact List.prefix_of_prefix_length_le hpre (List.prefix_append p q')
    (hseparated.length_le hword hpre)

theorem isPrefixOf_append (h : word <+: p) (q : List Char) : word.isPrefixOf (p ++ q) = true :=
  List.isPrefixOf_iff_prefix.2 (h.trans (List.prefix_append p q))

/-- The punctuator at the front does not depend on what follows a separation. -/
theorem punctuator?_congr {n : Nat} (hseparated : Separated q') (h : punctuator? (p ++ q) = some n)
    (hn : 0 < n ∧ n ≤ p.length) : punctuator? (p ++ q') = some n := by
  have hwords : ∀ word ∈ longPunctuators, ∀ c ∈ word, c ≠ ' ' ∧ c ≠ ';' := by
    simp [longPunctuators]
  unfold punctuator? at h ⊢
  cases hfind : longPunctuators.find? (·.isPrefixOf (p ++ q)) with
  | some word =>
    rw [hfind] at h
    cases h
    obtain ⟨hmatch, front, back, hlist, hfront⟩ := List.find?_eq_some_iff_append.1 hfind
    have hpre : word <+: p :=
      List.prefix_of_prefix_length_le (List.isPrefixOf_iff_prefix.1 hmatch)
        (List.prefix_append p q) hn.2
    have hfind' : longPunctuators.find? (·.isPrefixOf (p ++ q')) = some word := by
      refine List.find?_eq_some_iff_append.2 ⟨isPrefixOf_append hpre q', front, back, hlist, ?_⟩
      intro v hv
      have hmem : v ∈ longPunctuators := by
        rw [hlist]
        exact List.mem_append_left _ hv
      have hnot := hfront v hv
      rw [Bool.not_eq_true'] at hnot ⊢
      rw [Bool.eq_false_iff] at hnot ⊢
      exact fun hv' =>
        hnot (isPrefixOf_append (isPrefixOf_of_separated hseparated (hwords v hmem) hv') q)
    rw [hfind']
  | none =>
    have hfind' : longPunctuators.find? (·.isPrefixOf (p ++ q')) = none := by
      rw [List.find?_eq_none] at hfind ⊢
      intro v hv hv'
      exact hfind v hv
        (isPrefixOf_append (isPrefixOf_of_separated hseparated (hwords v hv) hv') q)
    rw [hfind] at h
    rw [hfind']
    cases p with
    | nil => simp only [List.length_nil] at hn; omega
    | cons c p => exact h

theorem isPrefixOf_eq_false_congr (hseparated : Separated q')
    (hword : ∀ c ∈ word, c ≠ ' ' ∧ c ≠ ';') (h : word.isPrefixOf (p ++ q) = false) :
    word.isPrefixOf (p ++ q') = false := by
  rw [Bool.eq_false_iff] at h ⊢
  exact fun h' => h (isPrefixOf_append (isPrefixOf_of_separated hseparated hword h') q)

theorem startsNumber_congr (hseparated : Separated q') (hne : p ≠ [])
    (h : startsNumber (p ++ q) = true → p ≠ ['.']) :
    startsNumber (p ++ q') = startsNumber (p ++ q) := by
  match p, hne with
  | c :: d :: p, _ =>
    by_cases hc : c = '.'
    · subst hc
      rfl
    · simp [startsNumber, hc]
  | [c], _ =>
    by_cases hc : c = '.'
    · subst hc
      cases hstarts : startsNumber (['.'] ++ q) with
      | true => exact absurd rfl (h hstarts)
      | false =>
        cases q' with
        | nil => rfl
        | cons s q₁ => rcases hseparated s rfl with rfl | rfl <;> rfl
    · cases q <;> cases q' <;> simp [startsNumber, hc]

theorem layoutLength_cons_eq_zero {cs : List Char} :
    layoutLength (c :: cs) = 0 ↔ isLayout c = false ∧ ['\\', '\n'].isPrefixOf (c :: cs) = false ∧
      ['\\', '\r', '\n'].isPrefixOf (c :: cs) = false := by
  unfold layoutLength
  split
  · rename_i heq
    cases heq
  · rename_i heq
    cases heq
    simp
  · rename_i heq
    cases heq
    simp
  · rename_i d ds hreturn hfeed heq
    cases heq
    cases hc : isLayout c with
    | true => simp
    | false =>
      simp only [Bool.false_eq_true, if_false, true_and, true_iff]
      constructor
      · rw [Bool.eq_false_iff]
        intro hpre
        obtain ⟨rest, hrest⟩ := List.isPrefixOf_iff_prefix.1 hpre
        obtain ⟨rfl, rfl⟩ := List.cons.inj hrest
        exact hfeed rest rfl rfl
      · rw [Bool.eq_false_iff]
        intro hpre
        obtain ⟨rest, hrest⟩ := List.isPrefixOf_iff_prefix.1 hpre
        obtain ⟨rfl, rfl⟩ := List.cons.inj hrest
        exact hreturn rest rfl rfl

/-! ## Fronts -/

/-- What stands at the front if that is no layout, no comment, no literal between marks, no word. -/
def plainFront (c : Char) (cs : List Char) : Role × Nat :=
  if startsNumber (c :: cs) then
    let mark := if c = '.' then 2 else 1
    (.lexeme .literal, mark + numberLength ((c :: cs).drop mark))
  else
    match punctuator? (c :: cs) with
    | some n => (.lexeme .punctuation, n)
    | none => (.fault, 1)

theorem plainFront_congr {w r r' : List Char} {kind : LexemeKind} (hseparated : Separated r')
    (h : plainFront c (ds ++ (w ++ r)) = (.lexeme kind, ds.length + 1)) :
    plainFront c (ds ++ (w ++ r')) = (.lexeme kind, ds.length + 1) := by
  have hall (x : List Char) : c :: (ds ++ (w ++ x)) = (c :: (ds ++ w)) ++ x := by simp
  -- a dot begins a number only with the digit behind it
  have hnumber : startsNumber (c :: (ds ++ (w ++ r'))) = startsNumber (c :: (ds ++ (w ++ r))) := by
    rw [hall, hall]
    refine startsNumber_congr hseparated (List.cons_ne_nil _ _) fun hstarts hdot => ?_
    rw [← hall] at hstarts
    obtain ⟨rfl, hnil⟩ := List.cons.inj hdot
    obtain ⟨rfl, -⟩ := List.append_eq_nil_iff.1 hnil
    rw [plainFront, if_pos hstarts] at h
    have hlen := congrArg Prod.snd h
    simp only [if_true, List.length_nil] at hlen
    omega
  unfold plainFront at h ⊢
  rw [hnumber]
  by_cases hstarts : startsNumber (c :: (ds ++ (w ++ r))) = true
  · rw [if_pos hstarts] at h ⊢
    obtain ⟨hkind, hlen⟩ := Prod.mk.inj h
    refine Prod.ext hkind ?_
    by_cases hdot : c = '.'
    · simp only [if_pos hdot] at hlen ⊢
      cases ds with
      | nil => simp only [List.length_nil] at hlen; omega
      | cons d ds =>
        have hrest : numberLength (ds ++ (w ++ r)) = ds.length := by
          have hlen : 2 + numberLength (ds ++ (w ++ r)) = ds.length + 1 + 1 := hlen
          omega
        have hrest' := numberLength_congr ds hseparated hrest
        show 2 + numberLength (ds ++ (w ++ r')) = ds.length + 1 + 1
        omega
    · simp only [if_neg hdot] at hlen ⊢
      have hrest : numberLength (ds ++ (w ++ r)) = ds.length := by
        have hlen : 1 + numberLength (ds ++ (w ++ r)) = ds.length + 1 := hlen
        omega
      have hrest' := numberLength_congr ds hseparated hrest
      show 1 + numberLength (ds ++ (w ++ r')) = ds.length + 1
      omega
  · rw [if_neg hstarts] at h ⊢
    cases hpunctuator : punctuator? (c :: (ds ++ (w ++ r))) with
    | none =>
      rw [hpunctuator] at h
      cases congrArg Prod.fst h
    | some n =>
      rw [hpunctuator] at h
      obtain ⟨hkind, rfl⟩ := Prod.mk.inj h
      have hle : ds.length + 1 ≤ (c :: (ds ++ w)).length := by
        rw [List.length_cons, List.length_append]
        omega
      rw [hall] at hpunctuator ⊢
      rw [punctuator?_congr hseparated hpunctuator ⟨Nat.succ_pos _, hle⟩]
      exact Prod.ext hkind rfl

/-- **What is cut off at the front does not depend on what follows a separation.** -/
theorem front_congr {w r r' : List Char} {kind : LexemeKind} (hkind : kind ≠ .comment)
    (hseparated : Separated r')
    (h : front c (ds ++ (w ++ r)) = (.lexeme kind, ds.length + 1)) :
    front c (ds ++ (w ++ r')) = (.lexeme kind, ds.length + 1) := by
  have hall (x : List Char) : c :: (ds ++ (w ++ x)) = (c :: (ds ++ w)) ++ x := by simp
  have hne : c :: (ds ++ w) ≠ [] := List.cons_ne_nil _ _
  have hlen : ds.length + 1 ≤ (c :: (ds ++ w)).length := by
    rw [List.length_cons, List.length_append]
    omega
  have hpre (word : List Char) (hword : ∀ c ∈ word, c ≠ ' ' ∧ c ≠ ';')
      (h : word.isPrefixOf (c :: (ds ++ (w ++ r))) = false) :
      word.isPrefixOf (c :: (ds ++ (w ++ r'))) = false := by
    rw [hall] at h ⊢
    exact isPrefixOf_eq_false_congr hseparated hword h
  unfold front at h ⊢
  simp only at h ⊢
  by_cases hlayout : layoutLength (c :: (ds ++ (w ++ r))) > 0
  · rw [if_pos hlayout] at h
    cases h
  rw [if_neg hlayout] at h
  obtain ⟨hc, hfeed, hreturn⟩ := layoutLength_cons_eq_zero.1 (Nat.eq_zero_of_not_pos hlayout)
  have hlayout' := layoutLength_cons_eq_zero.2
    ⟨hc, hpre _ (by simp) hfeed, hpre _ (by simp) hreturn⟩
  rw [if_neg (Nat.not_lt.2 (Nat.le_of_eq hlayout'))]
  by_cases hline : ['/', '/'].isPrefixOf (c :: (ds ++ (w ++ r))) = true
  · rw [if_pos hline] at h
    exact absurd (Role.lexeme.inj (Prod.mk.inj h).1).symm hkind
  rw [if_neg hline] at h
  rw [Bool.not_eq_true] at hline
  rw [hpre _ (by simp) hline, if_neg (by decide)]
  by_cases hblock : ['/', '*'].isPrefixOf (c :: (ds ++ (w ++ r))) = true
  · rw [if_pos hblock] at h
    split at h
    · exact absurd (Role.lexeme.inj (Prod.mk.inj h).1).symm hkind
    · cases h
  rw [if_neg hblock] at h
  rw [Bool.not_eq_true] at hblock
  rw [hpre _ (by simp) hblock, if_neg (by decide)]
  -- an opening lies within the lexeme, since the literal reaches at least over it
  have hopening : opening? (c :: (ds ++ (w ++ r'))) = opening? (c :: (ds ++ (w ++ r))) := by
    rw [hall, hall]
    refine opening?_congr hseparated fun n form hopen => Nat.le_trans ?_ hlen
    rw [hall, hopen] at h
    rw [← (Prod.mk.inj h).2]
    cases form <;> exact Nat.le_add_right _ _
  rw [hopening]
  cases hopen : opening? (c :: (ds ++ (w ++ r))) with
  | some o =>
    obtain ⟨n, form⟩ := o
    obtain ⟨-, -, -, -, -, hform, -⟩ := opening?_eq_some hopen
    rw [hopen] at h
    have hkind : kind = .literal := by
      rcases role_literal n form (c :: (ds ++ (w ++ r))) with hrole | hrole
      · exact Role.lexeme.inj ((congrArg Prod.fst h).symm.trans hrole)
      · cases (congrArg Prod.fst h).symm.trans hrole
    subst hkind
    simp only [hall] at h ⊢
    exact literal_append hform h hlen
  | none =>
    rw [hopen] at h
    by_cases hstart : isWordStart c = true
    · simp only [hstart, if_true] at h ⊢
      have hword := takeWhile_congr hseparated (p := c :: ds) (P := isWordPart)
        (by rintro c (rfl | rfl) <;> rfl) (congrArg Prod.snd h)
      rw [List.cons_append, List.cons_append] at hword
      rw [hword]
      exact h
    · simp only [hstart, Bool.false_eq_true, if_false] at h ⊢
      exact plainFront_congr hseparated h

/-- **A comment is cut off alike if what follows begins with the same character**, or if nothing
follows. -/
theorem front_comment_congr {r r' : List Char} (hr : ∀ d ∈ r'.head?, r.head? = some d)
    (h : front c (ds ++ r) = (.lexeme .comment, ds.length + 1)) :
    front c (ds ++ r') = (.lexeme .comment, ds.length + 1) := by
  have hlayout (cs : List Char) : ¬layoutLength ('/' :: cs) > 0 := by
    rw [layoutLength_cons_eq_zero.2 ⟨rfl, rfl, rfl⟩]
    exact Nat.lt_irrefl 0
  -- both marks of the opening lie within the comment
  have hopening {mark : Char} {x : List Char} (hx : ds ++ r = mark :: x) (hlong : 0 < ds.length) :
      ∃ es, ds = mark :: es ∧ x = es ++ r := by
    obtain ⟨d, es, rfl⟩ := List.exists_cons_of_length_pos hlong
    obtain ⟨rfl, rfl⟩ := List.cons.inj hx
    exact ⟨es, rfl, rfl⟩
  obtain ⟨rfl, ⟨x, hx, hlen⟩ | ⟨x, m, hx, hm, hlen⟩⟩ := of_front_comment h
  · obtain ⟨es, rfl, rfl⟩ := hopening hx (by omega)
    have hrun := takeWhile_eq_of_length (Nat.succ.inj (Nat.succ.inj hlen)).symm
    obtain ⟨hes, hnext⟩ := takeWhile_eq_self_iff.1 hrun
    have hrun' := takeWhile_eq_self_iff.2 ⟨hes, fun d hd => hnext d (hr d hd)⟩
    have hline : lineLength (es ++ r') = es.length := congrArg List.length hrun'
    unfold front
    simp only [if_neg (hlayout _), List.cons_append]
    rw [if_pos (by simp [List.isPrefixOf])]
    exact Prod.ext rfl (congrArg (· + 2) hline)
  · obtain ⟨es, rfl, rfl⟩ := hopening hx (by omega)
    rw [List.length_cons] at hlen
    have hend : before? ['*', '/'] (es ++ r') = some m := before?_append hm (by
      simp only [List.length_cons, List.length_nil]
      omega)
    unfold front
    simp only [if_neg (hlayout _), List.cons_append]
    rw [if_neg (by simp [List.isPrefixOf]), if_pos (by simp [List.isPrefixOf])]
    simp only [List.drop_succ_cons, List.drop_zero, hend]
    exact Prod.ext rfl hlen.symm

/-! ## How much is cut off -/

theorem bodyLength_le (mark : Char) (text : List Char) :
    (bodyLength mark text).1 ≤ text.length := by
  fun_induction bodyLength mark text with
  | case1 => exact Nat.le_refl _
  | case2 => exact Nat.zero_le _
  | case3 c cs hc b ih => exact Nat.add_le_add_right ih 2
  | case4 cs => exact Nat.succ_le_succ (Nat.zero_le _)
  | case5 => exact Nat.zero_le _
  | case6 c cs hfront hc hother b ih => exact Nat.add_le_add_right ih 1

theorem add_length_le_of_before? (h : before? word text = some n) :
    n + word.length ≤ text.length := by
  induction text generalizing n with
  | nil =>
    cases word with
    | nil => cases h; exact Nat.le_refl _
    | cons c word => cases h
  | cons c text ih =>
    rw [before?] at h
    split at h
    · rename_i hpre
      cases h
      rw [Nat.zero_add]
      exact (List.isPrefixOf_iff_prefix.1 hpre).length_le
    · obtain ⟨m, hm, rfl⟩ := Option.map_eq_some_iff.1 h
      have hle := ih hm
      rw [List.length_cons]
      omega

theorem rawTail_le (text : List Char) : (rawTail text).2 ≤ text.length := by
  unfold rawTail
  split
  · exact Nat.zero_le _
  · rename_i n hn
    have hopen := add_length_le_of_before? hn
    simp only
    split
    · split
      · rename_i m hm
        have hclose := add_length_le_of_before? hm
        rw [List.length_drop] at hclose
        rw [List.length_singleton] at hopen
        show n + 1 + m + _ ≤ _
        omega
      · exact Nat.le_refl _
    · exact Nat.zero_le _

theorem numberLength_le (text : List Char) : numberLength text ≤ text.length := by
  fun_induction numberLength text with
  | case1 => exact Nat.le_refl _
  | case2 => exact Nat.le_refl _
  | case3 => exact Nat.zero_le _
  | case4 c d cs _ ih => exact Nat.add_le_add_right ih 2
  | case5 c d cs _ _ ih => exact Nat.add_le_add_right ih 1
  | case6 => exact Nat.zero_le _

theorem punctuator?_bounds (h : punctuator? text = some n) : 0 < n ∧ n ≤ text.length := by
  unfold punctuator? at h
  split at h
  · rename_i word hfind
    cases h
    have hpos : ∀ word ∈ longPunctuators, 0 < word.length := by decide
    refine ⟨hpos word (List.mem_of_find?_eq_some hfind), ?_⟩
    have hpre : word.isPrefixOf text = true :=
      List.find?_some (p := fun v => List.isPrefixOf v text) hfind
    exact (List.isPrefixOf_iff_prefix.1 hpre).length_le
  · split at h
    · split at h
      · cases h
        exact ⟨Nat.one_pos, Nat.succ_le_succ (Nat.zero_le _)⟩
      · cases h
    · cases h

theorem plainFront_bounds {cs : List Char} :
    0 < (plainFront c cs).2 ∧ (plainFront c cs).2 ≤ cs.length + 1 := by
  unfold plainFront
  split
  · rename_i hstarts
    simp only
    by_cases hdot : c = '.'
    · subst hdot
      cases cs with
      | nil => cases hstarts
      | cons d ds =>
        have hle := numberLength_le ds
        show 0 < 2 + numberLength ds ∧ 2 + numberLength ds ≤ ds.length + 1 + 1
        omega
    · rw [if_neg hdot]
      have hle := numberLength_le cs
      show 0 < 1 + numberLength cs ∧ 1 + numberLength cs ≤ cs.length + 1
      omega
  · split
    · rename_i n hn
      exact punctuator?_bounds hn
    · exact ⟨Nat.one_pos, Nat.succ_le_succ (Nat.zero_le _)⟩

/-- Something is cut off, and no more than there is. -/
theorem front_bounds {cs : List Char} {kind : LexemeKind} (h : front c cs = (.lexeme kind, n)) :
    0 < n ∧ n ≤ cs.length + 1 := by
  unfold front at h
  simp only at h
  split at h
  · cases h
  split at h
  · rename_i hline
    obtain ⟨-, rfl⟩ := Prod.mk.inj h
    obtain ⟨rest, hrest⟩ := List.isPrefixOf_iff_prefix.1 hline
    obtain ⟨rfl, -⟩ := List.cons.inj hrest
    exact ⟨Nat.succ_pos _, (List.takeWhile_prefix _).length_le⟩
  split at h
  · rename_i hblock
    split at h
    · rename_i m hm
      obtain ⟨-, rfl⟩ := Prod.mk.inj h
      have hopen := (List.isPrefixOf_iff_prefix.1 hblock).length_le
      have hclose := add_length_le_of_before? hm
      rw [List.length_drop] at hclose
      simp only [List.length_cons, List.length_nil] at hopen hclose
      omega
    · cases h
  split at h
  · rename_i k form hopen
    have hlen : k ≤ cs.length + 1 := by
      obtain ⟨m, rest, htext, rfl, -⟩ := opening?_eq_some hopen
      have hlen := congrArg List.length htext
      rw [List.length_append, List.length_cons] at hlen
      omega
    obtain ⟨-, rfl⟩ := Prod.mk.inj h
    refine ⟨Nat.lt_of_lt_of_le (opening?_pos hopen) ?_, ?_⟩
    · cases form <;> exact Nat.le_add_right _ _
    · cases form with
      | raw =>
        have htail := rawTail_le ((c :: cs).drop k)
        rw [List.length_drop, List.length_cons] at htail
        show k + (rawTail ((c :: cs).drop k)).2 ≤ cs.length + 1
        omega
      | between mark =>
        have hbody := bodyLength_le mark ((c :: cs).drop k)
        rw [List.length_drop, List.length_cons] at hbody
        show k + (bodyLength mark ((c :: cs).drop k)).1 ≤ cs.length + 1
        omega
  split at h
  · rename_i hstart
    obtain ⟨-, rfl⟩ := Prod.mk.inj h
    refine ⟨?_, (List.takeWhile_prefix isWordPart).length_le⟩
    have hpart : isWordPart c = true := by
      simp only [isWordStart, isWordPart, Char.isAlphanum, Bool.or_eq_true] at hstart ⊢
      exact hstart.imp_left Or.inl
    rw [List.takeWhile_cons_of_pos hpart]
    exact Nat.succ_pos _
  · have hbounds := @plainFront_bounds c cs
    rw [show plainFront c cs = (.lexeme kind, n) from h] at hbounds
    exact hbounds

end Lexer

end DocIndex
