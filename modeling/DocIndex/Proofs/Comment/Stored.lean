import DocIndex.Comment.Stored
import DocIndex.Proofs.Fallible
import DocIndex.Proofs.Json.RoundTrip

/-!
# What a file holds comes back from its JSON

A comment is read back as it was, unless its line number is too large, which makes the reading fail.
A directive comes back if `Directive.parse` gives it, and a point in time if it is normal.

* `ofJson?_toJson` — one comment, and one with what it documents.
* `FileComments.ofJson?_of_toJson?` — **all that a file holds**: it comes back, or the reading
  fails; it never comes back as something else.
-/

namespace DocIndex

/-! ## Numbers and lists -/

theorem decimal?_eq_ofDigitChars {cs : List Char} (h : ∀ c ∈ cs, c.isDigit) (n : Nat) :
    cs.foldlM (fun n c => if c.isDigit then some (n * 10 + (c.toNat - 48)) else none) n =
      some (Nat.ofDigitChars 10 cs n) := by
  induction cs generalizing n with
  | nil => rfl
  | cons c cs ih =>
    rw [List.foldlM_cons, if_pos (h c List.mem_cons_self), Nat.ofDigitChars_cons,
      Nat.mul_comm 10 n]
    exact ih (fun c hc => h c (List.mem_cons_of_mem _ hc)) _

theorem decimal?_toString (n : Nat) : decimal? (toString n).toList = some n := by
  have hs : (toString n).toList = Nat.toDigits 10 n := Nat.toList_repr
  rw [hs, decimal?, decimal?_eq_ofDigitChars (Json.isDigit_toDigits n),
    Nat.ofDigitChars_ten_toDigits]

namespace Json

theorem nat?_nat (bound n : Nat) : (nat n).nat? bound = if n ≤ bound then some n else none := by
  rw [nat, nat?, decimal?_toString]
  rfl

/-- A list of values, each of which comes back if `P` holds of it. -/
theorem mapM_map_guarded {α : Type} {P : α → Prop} [DecidablePred P] {read : Json → Option α}
    {write : α → Json} {as : List α}
    (h : ∀ a ∈ as, read (write a) = if P a then some a else none) :
    (as.map write).mapM read = if ∀ a ∈ as, P a then some as else none := by
  have hall : List.Forall₂ (fun a j => read j = if P a then some (id a) else none) as
      (as.map write) := by
    rw [List.forall₂_map_right_iff, List.forall₂_same]
    exact h
  rw [Fallible.mapM_guarded hall, List.map_id]

theorem list?_strings (ss : List String) : (strings ss).list? text? = some ss := by
  rw [strings, list?, mapM_map_guarded (P := fun _ => True) fun s _ => by rw [if_pos trivial]; rfl,
    if_pos fun _ _ => trivial]

end Json

/-! ## Comments -/

namespace CursorKind

theorem ofName?_name (k : CursorKind) : ofName? k.name = some k := by
  cases k <;> decide

end CursorKind

namespace Comment

theorem ofJson?_toJson (c : Comment) :
    ofJson? c.toJson = if c.nextLine ≤ maxLine then some c else none := by
  obtain ⟨⟨file⟩, nextLine, text, kind⟩ := c
  have hfields : (Comment.mk ⟨file⟩ nextLine text kind).toJson.record?
      ["file", "next_line", "text", "cursor_kind"] =
        some [some (.string file), some (.nat nextLine), some (.strings text),
          kind.map fun k => .string k.name] := by
    cases kind with
    | none => rfl
    | some k => rfl
  have hkind : attachedKind? (kind.map fun k => .string k.name) = some kind := by
    cases kind with
    | none => rfl
    | some k =>
      rw [Option.map_some, attachedKind?, CursorKind.ofJson?, CursorKind.ofName?_name]
      · rfl
      · nofun
  rw [ofJson?, hfields]
  simp only [Option.bind_eq_bind, Option.bind_some, Json.text?, Json.nat?_nat, hkind,
    Json.list?_strings]
  split <;> rfl

end Comment

namespace DirectiveComment

/-- The directive is one that `Directive.parse` gives. -/
def Canonical (d : DirectiveComment) : Prop :=
  Directive.parse d.context.directive.name = d.context.directive

theorem ofJson?_toJson {d : DirectiveComment} (h : d.Canonical) :
    ofJson? d.toJson = if d.comment.nextLine ≤ maxLine then some d else none := by
  obtain ⟨⟨directive, namespacePath, moduleName⟩, signature, comment⟩ := d
  have h : Directive.parse directive.name = directive := h
  have hcontext : DocContext.ofJson?
      (.object [("directive", .string directive.name), ("namespace", .string namespacePath),
        ("module", .string moduleName)]) = some ⟨directive, namespacePath, moduleName⟩ := by
    have hfields : (Json.object [("directive", .string directive.name),
        ("namespace", .string namespacePath), ("module", .string moduleName)]).record?
          ["directive", "namespace", "module"] =
        some [some (.string directive.name), some (.string namespacePath),
          some (.string moduleName)] := rfl
    rw [DocContext.ofJson?, hfields]
    simp only [Option.bind_eq_bind, Option.bind_some, Json.text?, Option.getD_some, h]
    rfl
  have hfields : (toJson ⟨⟨directive, namespacePath, moduleName⟩, signature, comment⟩).record?
      ["context", "signature", "comment"] =
        some [some (.object [("directive", .string directive.name),
          ("namespace", .string namespacePath), ("module", .string moduleName)]),
          some (.string signature), some comment.toJson] := rfl
  rw [ofJson?, hfields]
  simp only [Option.bind_eq_bind, Option.bind_some, Json.text?, hcontext, Comment.ofJson?_toJson]
  split <;> rfl

end DirectiveComment

/-! ## Points in time -/

namespace Timestamp

/-- The nanoseconds are less than a second, and the seconds fit into 64 bits. -/
structure Normal (t : Timestamp) : Prop where
  nanoseconds_lt : t.nanoseconds < perSecond
  seconds_lt : t.seconds < 0x8000000000000000

theorem ofJson?_of_toJson? {t : Timestamp} (ht : t.Normal) {j : Json} (h : t.toJson? = some j) :
    ofJson? j = some t := by
  obtain ⟨seconds, nanoseconds⟩ := t
  obtain ⟨hn, hs⟩ := ht
  dsimp only at hn hs
  rw [toJson?] at h
  split at h
  · cases h
  rename_i hneg
  dsimp only at hneg
  obtain ⟨n, rfl⟩ := Int.eq_ofNat_of_zero_le (Int.not_lt.1 hneg)
  cases h
  have hfields : (Json.object [("secs_since_epoch", .nat n),
      ("nanos_since_epoch", .nat nanoseconds)]).record? timestampFields =
        some [some (.nat n), some (.nat nanoseconds)] := rfl
  have hn' : n < 0x8000000000000000 := by omega
  have hcarry : n + nanoseconds / perSecond = n := by
    rw [perSecond] at *
    omega
  have hshort : nanoseconds ≤ 0xFFFFFFFF := by
    rw [perSecond] at hn
    omega
  have hknown : (Json.object [("secs_since_epoch", .nat n),
      ("nanos_since_epoch", .nat nanoseconds)]).memberNames.all timestampFields.contains = true :=
    rfl
  rw [ofJson?, Int.toNat_natCast, hfields, hknown]
  simp only [guard, if_true, Option.pure_def, Option.bind_eq_bind, Option.bind_some, Json.nat?_nat,
    if_pos hshort, if_pos (show n ≤ 0xFFFFFFFFFFFFFFFF by omega), hcarry,
    if_pos hn', Nat.mod_eq_of_lt hn]
  rfl

end Timestamp

namespace FileComments

/-- Every line number is small enough to be read back. -/
def Fits (f : FileComments) : Prop :=
  (∀ d ∈ f.directiveComments, d.comment.nextLine ≤ maxLine) ∧
    ∀ c ∈ f.floatingComments, c.nextLine ≤ maxLine

instance (f : FileComments) : Decidable f.Fits :=
  inferInstanceAs (Decidable (_ ∧ _))

/-- Everything comes back but for line numbers that are too large. -/
structure Storable (f : FileComments) : Prop where
  canonical : ∀ d ∈ f.directiveComments, d.Canonical
  normal : f.modified.Normal

/-- **What a file holds is read back as it was**, or not at all if a line number is too large. -/
theorem ofJson?_of_toJson? {f : FileComments} (hf : f.Storable) {j : Json}
    (h : f.toJson? = some j) : ofJson? j = if f.Fits then some f else none := by
  obtain ⟨m, hm, rfl⟩ := Option.map_eq_some_iff.1 h
  have hmodified := Timestamp.ofJson?_of_toJson? hf.normal hm
  have hdirective : (Json.array (f.directiveComments.map DirectiveComment.toJson)).list?
      DirectiveComment.ofJson? =
        if ∀ d ∈ f.directiveComments, d.comment.nextLine ≤ maxLine then some f.directiveComments
        else none :=
    Json.mapM_map_guarded fun d hd => DirectiveComment.ofJson?_toJson (hf.canonical d hd)
  have hfloating : (Json.array (f.floatingComments.map Comment.toJson)).list? Comment.ofJson? =
      if ∀ c ∈ f.floatingComments, c.nextLine ≤ maxLine then some f.floatingComments else none :=
    Json.mapM_map_guarded fun c _ => Comment.ofJson?_toJson c
  have hfields : (Json.object [("module", .string f.moduleName),
      ("directive_comments", .array (f.directiveComments.map DirectiveComment.toJson)),
      ("floating_comments", .array (f.floatingComments.map Comment.toJson)),
      ("diagnostics", .strings f.diagnostics), ("mtime", m)]).record?
        ["module", "directive_comments", "floating_comments", "diagnostics", "mtime"] =
      some [some (.string f.moduleName),
        some (.array (f.directiveComments.map DirectiveComment.toJson)),
        some (.array (f.floatingComments.map Comment.toJson)), some (.strings f.diagnostics),
        some m] := rfl
  rw [ofJson?, hfields]
  simp only [Option.bind_eq_bind, Option.bind_some, Json.text?, hdirective, hfloating, hmodified,
    Json.list?_strings]
  by_cases hd : ∀ d ∈ f.directiveComments, d.comment.nextLine ≤ maxLine
  · by_cases hc : ∀ c ∈ f.floatingComments, c.nextLine ≤ maxLine
    · rw [if_pos hd, if_pos hc, if_pos (show f.Fits from ⟨hd, hc⟩)]
      rfl
    · rw [if_pos hd, if_neg hc, if_neg (show ¬f.Fits from fun hfits => hc hfits.2)]
      rfl
  · rw [if_neg hd, if_neg (show ¬f.Fits from fun hfits => hd hfits.1)]
    rfl

end FileComments

end DocIndex
