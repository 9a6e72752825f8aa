import DocIndex.Proofs.Comment.Scanned

/-!
# What can be kept for later

The comments of a file can be written down and read back as they were if their directives are known,
their line numbers fit into 32 bits, and the time of the file is one that can be written
(`FileComments.Lasting`).

* `Lasting.storable`, `Lasting.exists_toJson?` — such comments can be written, and come back.
* `FileComments.lasting_of_ofJson?` — **all that can be read is of that kind.**
-/

namespace DocIndex

namespace Directive

/-- The directive was read from some name, or is that of a category of declarations. -/
def Known (d : Directive) : Prop :=
  (∃ s, d = parse s) ∨ ∃ category : Category, category.directive? = some d

/-- A directive that is known is read again from its name. -/
theorem Known.parse_name {d : Directive} (h : d.Known) : parse d.name = d := by
  rcases h with ⟨s, rfl⟩ | ⟨category, hc⟩
  · exact parse_name_parse s
  · exact parse_name_of_category hc

end Directive

namespace FileComments

variable {f : FileComments}

/-- All directives are known, all line numbers have 32 bits, and the time is one that a file can
have and not before 1970. -/
structure Lasting (f : FileComments) : Prop where
  known : ∀ d ∈ f.directiveComments, d.context.directive.Known
  fits : f.Fits
  normal : f.modified.Normal
  not_early : 0 ≤ f.modified.seconds

theorem Lasting.storable (hf : f.Lasting) : f.Storable where
  canonical d hd := (hf.known d hd).parse_name
  normal := hf.normal

theorem Lasting.exists_toJson? (hf : f.Lasting) : ∃ j, f.toJson? = some j := by
  have hlate : ¬f.modified.seconds < 0 := by
    have := hf.not_early
    omega
  unfold toJson? Timestamp.toJson?
  rw [if_neg hlate]
  exact ⟨_, rfl⟩

end FileComments

/-! ## What is read -/

theorem Json.le_of_nat? {j : Json} {bound n : Nat} (h : j.nat? bound = some n) : n ≤ bound := by
  unfold nat? at h
  split at h
  · obtain ⟨m, -, h⟩ := Option.bind_eq_some_iff.1 h
    split at h
    · cases h
      assumption
    · cases h
  · cases h

theorem Json.exists_of_list? {α : Type} {read : Json → Option α} {j : Json} {as : List α}
    (h : j.list? read = some as) {a : α} (ha : a ∈ as) : ∃ j', read j' = some a := by
  unfold list? at h
  split at h
  · obtain ⟨j', -, hj⟩ := Fallible.exists_of_mapM h ha
    exact ⟨j', hj⟩
  · cases h

theorem Comment.nextLine_le_of_ofJson? {j : Json} {c : Comment} (h : ofJson? j = some c) :
    c.nextLine ≤ maxLine := by
  obtain ⟨fields, -, h⟩ := Option.bind_eq_some_iff.1 h
  split at h
  · obtain ⟨file, -, h⟩ := Option.bind_eq_some_iff.1 h
    obtain ⟨nextLine, hline, h⟩ := Option.bind_eq_some_iff.1 h
    obtain ⟨text, -, h⟩ := Option.bind_eq_some_iff.1 h
    obtain ⟨kind, -, h⟩ := Option.bind_eq_some_iff.1 h
    cases h
    exact Json.le_of_nat? hline
  · cases h

theorem DocContext.known_of_ofJson? {j : Json} {c : DocContext} (h : ofJson? j = some c) :
    c.directive.Known := by
  obtain ⟨fields, -, h⟩ := Option.bind_eq_some_iff.1 h
  split at h
  · obtain ⟨name, -, h⟩ := Option.bind_eq_some_iff.1 h
    obtain ⟨namespacePath, -, h⟩ := Option.bind_eq_some_iff.1 h
    obtain ⟨moduleName, -, h⟩ := Option.bind_eq_some_iff.1 h
    cases h
    exact .inl ⟨name, rfl⟩
  · cases h

theorem DirectiveComment.known_of_ofJson? {j : Json} {d : DirectiveComment}
    (h : ofJson? j = some d) :
    d.context.directive.Known ∧ d.comment.nextLine ≤ maxLine := by
  obtain ⟨fields, -, h⟩ := Option.bind_eq_some_iff.1 h
  split at h
  · obtain ⟨context, hcontext, h⟩ := Option.bind_eq_some_iff.1 h
    obtain ⟨signature, -, h⟩ := Option.bind_eq_some_iff.1 h
    obtain ⟨comment, hcomment, h⟩ := Option.bind_eq_some_iff.1 h
    cases h
    exact ⟨DocContext.known_of_ofJson? hcontext, Comment.nextLine_le_of_ofJson? hcomment⟩
  · cases h

/-- A time that is read is not before 1970. -/
theorem Timestamp.normal_of_ofJson? {j : Json} {t : Timestamp} (h : ofJson? j = some t) :
    t.Normal ∧ 0 ≤ t.seconds := by
  obtain ⟨-, -, h⟩ := Option.bind_eq_some_iff.1 h
  obtain ⟨fields, -, h⟩ := Option.bind_eq_some_iff.1 h
  split at h
  · obtain ⟨n, -, h⟩ := Option.bind_eq_some_iff.1 h
    obtain ⟨s, -, h⟩ := Option.bind_eq_some_iff.1 h
    dsimp only at h
    by_cases hlt : s + n / perSecond < 0x8000000000000000
    · rw [if_pos hlt] at h
      cases h
      exact ⟨⟨Nat.mod_lt _ (by decide), Int.ofNat_lt.2 hlt⟩, Int.natCast_nonneg _⟩
    · rw [if_neg hlt] at h
      cases h
  · cases h

/-- **All that can be read can be written again.** -/
theorem FileComments.lasting_of_ofJson? {j : Json} {f : FileComments} (h : ofJson? j = some f) :
    f.Lasting := by
  obtain ⟨fields, -, h⟩ := Option.bind_eq_some_iff.1 h
  split at h
  · obtain ⟨moduleName, -, h⟩ := Option.bind_eq_some_iff.1 h
    obtain ⟨directiveComments, hdirective, h⟩ := Option.bind_eq_some_iff.1 h
    obtain ⟨floatingComments, hfloating, h⟩ := Option.bind_eq_some_iff.1 h
    obtain ⟨diagnostics, -, h⟩ := Option.bind_eq_some_iff.1 h
    obtain ⟨modified, hmodified, h⟩ := Option.bind_eq_some_iff.1 h
    cases h
    obtain ⟨hnormal, hearly⟩ := Timestamp.normal_of_ofJson? hmodified
    have hread : ∀ d ∈ directiveComments,
        d.context.directive.Known ∧ d.comment.nextLine ≤ maxLine := by
      intro d hd
      obtain ⟨j', hj⟩ := Json.exists_of_list? hdirective hd
      exact DirectiveComment.known_of_ofJson? hj
    refine ⟨fun d hd => (hread d hd).1, ⟨fun d hd => (hread d hd).2, fun c hc => ?_⟩, hnormal,
      hearly⟩
    obtain ⟨j', hj⟩ := Json.exists_of_list? hfloating hc
    exact Comment.nextLine_le_of_ofJson? hj
  · cases h

end DocIndex
