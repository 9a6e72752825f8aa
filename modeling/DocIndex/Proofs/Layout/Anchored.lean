import DocIndex.Comment.Signature
import DocIndex.Proofs.Layout.Reading

/-!
# Anchors

A comment is attached to the cursor that owns the first fitting token behind it. That this is the
nearest cursor needs a lexeme by which each cursor that can be documented is found before any that
begins later: its *anchor*, which belongs to it, and in front of which no such cursor begins but the
ones that begin before it does. It is the first word of its own, behind the macros and template
heads that decorate it; these belong to it only in part.

A type definition gets its cursor behind the class that it begins with. Until then it is *due*, and
its keyword is kept for it.

* `Due` — a declaration that has begun and has no cursor yet.
* `Outline.Anchored` — **every cursor that can be documented has an anchor**.
* `Anchored.await`, `Anchored.settle`, `Anchored.add` — a declaration begins, and gets its cursor.
* `anchored_readDeclaration`, `anchored_step`, `anchored_readFrom` — one declaration, one step, the
  whole text.
-/

namespace DocIndex

/-- A declaration that has begun and has no cursor yet. The lexeme in front of `stop` is kept for
it. -/
structure Due where
  first : Nat
  stop : Nat

namespace Outline

/-- Lexeme `k` belongs to cursor `id`, which begins with lexeme `first`, and no other cursor that
can be documented begins from there up to and with `k`. -/
structure IsAnchor (o : Outline) (id : CursorId) (first k : Nat) : Prop where
  le : first ≤ k
  owned : o.owners[k]? = some (some id)
  alone : ∀ (other : CursorId) (d : Draft), other ≠ id → o.drafts[other]? = some d →
    d.kind.canBeDocumented = true → d.first < first ∨ k < d.first

/-- Every cursor that can be documented has an anchor in front of `bound`, and clear of what is due,
the innermost declaration in front; no lexeme from `next` on belongs to anything. -/
structure Anchored (s : Source) (dues : List Due) (bound next : Nat) (o : Outline) : Prop where
  size : o.owners.size = s.size
  /-- No comment is attached to the file itself. -/
  file : ∃ d, o.drafts[0]? = some d ∧ d.kind.canBeDocumented = false
  free : ∀ (k : Nat) (id : CursorId), o.owners[k]? = some (some id) → k < next
  kept : ∀ w ∈ dues, w.first < w.stop ∧ w.stop ≤ bound ∧ o.owners[w.stop - 1]? = some none
  apart : dues.Pairwise fun w outer => outer.stop ≤ w.first
  anchor : ∀ (id : CursorId) (d : Draft), o.drafts[id]? = some d → d.kind.canBeDocumented = true →
    ∃ k, k < bound ∧ o.IsAnchor id d.first k ∧ ∀ w ∈ dues, k < w.first ∨ w.stop ≤ d.first

namespace Anchored

variable {s : Source} {dues : List Due} {w : Due} {bound bound' next next' first last : Nat}
  {o o' : Outline} {id : CursorId} {kind : CursorKind}

theorem lt_size_of_owned (h : o.Anchored s dues bound next) {k : Nat}
    {owner : Option CursorId} (hk : o.owners[k]? = some owner) : k < s.size := by
  rw [← h.size]
  exact (Array.getElem?_eq_some_iff.1 hk).1

/-! ## Reading on -/

theorem congr (h : o.Anchored s dues bound next) (hd : o'.drafts = o.drafts)
    (ho : o'.owners = o.owners) : o'.Anchored s dues bound next := by
  refine ⟨by rw [ho]; exact h.size, by rw [hd]; exact h.file, by rw [ho]; exact h.free,
    by rw [ho]; exact h.kept, h.apart, fun id d hid hkind => ?_⟩
  rw [hd] at hid
  obtain ⟨k, hlt, hk, hdues⟩ := h.anchor id d hid hkind
  exact ⟨k, hlt, ⟨hk.le, by rw [ho]; exact hk.owned, by rw [hd]; exact hk.alone⟩, hdues⟩

theorem note (h : o.Anchored s dues bound next) (notes : List Note) :
    (o.note notes).Anchored s dues bound next :=
  h.congr rfl rfl

theorem define (h : o.Anchored s dues bound next) (name : String) (hasParameters : Bool) :
    (o.define name hasParameters).Anchored s dues bound next :=
  h.congr rfl rfl

theorem undefine (h : o.Anchored s dues bound next) (name : String) :
    (o.undefine name).Anchored s dues bound next :=
  h.congr rfl rfl

theorem nameModule (h : o.Anchored s dues bound next) (name : String) :
    (o.nameModule name).Anchored s dues bound next :=
  h.congr rfl rfl

theorem openScope (h : o.Anchored s dues bound next) (path : List String) (name : String)
    (id : CursorId) : (o.openScope path name id).Anchored s dues bound next := by
  refine h.congr (Laid.drafts_openScope o path name id) ?_
  simp only [Outline.openScope]
  split <;> rfl

/-- Behind the end of the text all places are alike. -/
theorem mono (h : o.Anchored s dues bound next) (hbound : min bound s.size ≤ bound')
    (hnext : min next s.size ≤ next') : o.Anchored s dues bound' next' where
  size := h.size
  file := h.file
  free k id hk := by
    have hlt := h.free k id hk
    have hsize := h.lt_size_of_owned hk
    omega
  kept w hw := by
    obtain ⟨hfirst, hstop, hfree⟩ := h.kept w hw
    have hsize := h.lt_size_of_owned hfree
    exact ⟨hfirst, by omega, hfree⟩
  apart := h.apart
  anchor id d hd hkind := by
    obtain ⟨k, hlt, hk, hdues⟩ := h.anchor id d hd hkind
    have hsize := h.lt_size_of_owned hk.owned
    exact ⟨k, by omega, hk, hdues⟩

theorem stop_le (h : o.Anchored s dues bound next) (hle : bound ≤ first) :
    ∀ w ∈ dues, w.stop ≤ first :=
  fun w hw => Nat.le_trans (h.kept w hw).2.1 hle

/-! ## Claims and ends -/

/-- What belongs to a cursor goes on belonging to it. -/
theorem owned_of_claim {k : Nat} {owner : CursorId} (hk : o.owners[k]? = some (some owner)) :
    (o.claim first last id).owners[k]? = some (some owner) := by
  rw [Outline.claim, getElem?_claimFrom]
  split
  · rw [hk]
    rfl
  · exact hk

/-- A claim behind the lexemes that are kept. -/
theorem claim (h : o.Anchored s dues bound next) (hfirst : ∀ w ∈ dues, w.stop ≤ first)
    (hlast : min (last + 1) s.size ≤ next) (id : CursorId) :
    (o.claim first last id).Anchored s dues bound next where
  size := (size_claimFrom ..).trans h.size
  file := h.file
  free k i hk := by
    have hsize : k < s.size := by
      have hlt := (Array.getElem?_eq_some_iff.1 hk).1
      rwa [Outline.claim, size_claimFrom, h.size] at hlt
    rcases Laid.owner_of_claim hk with hk | ⟨-, hle, -⟩
    · exact h.free k i hk
    · omega
  kept w hw := by
    obtain ⟨hlt, hstop, hfree⟩ := h.kept w hw
    have hbefore := hfirst w hw
    refine ⟨hlt, hstop, ?_⟩
    rw [Outline.claim, getElem?_claimFrom, if_neg (by omega)]
    exact hfree
  apart := h.apart
  anchor i d hd hkind := by
    obtain ⟨k, hlt, hk, hdues⟩ := h.anchor i d hd hkind
    exact ⟨k, hlt, ⟨hk.le, owned_of_claim hk.owned, hk.alone⟩, hdues⟩

/-- The lexeme that is read next is given to a cursor. -/
theorem claim_next (h : o.Anchored s dues next next) (id : CursorId) :
    (o.claim next next id).Anchored s dues (next + 1) (next + 1) :=
  (h.mono (by omega) (by omega)).claim (h.stop_le (Nat.le_refl next)) (Nat.min_le_left _ _) id

/-- Anchors do not depend on where cursors end. -/
theorem reachTo (h : o.Anchored s dues bound next) (id : CursorId) (last : Nat) :
    (o.reachTo id last).Anchored s dues bound next := by
  have hdraft {i : CursorId} {d : Draft} (hd : (o.reachTo id last).drafts[i]? = some d) :
      ∃ d', o.drafts[i]? = some d' ∧ d'.first = d.first ∧ d'.kind = d.kind := by
    rw [Laid.getElem?_reachTo] at hd
    split at hd
    · obtain ⟨d', hd', rfl⟩ := Option.map_eq_some_iff.1 hd
      exact ⟨d', hd', rfl, rfl⟩
    · exact ⟨d, hd, rfl, rfl⟩
  refine ⟨h.size, ?_, h.free, h.kept, h.apart, fun i d hd hkind => ?_⟩
  · obtain ⟨d, hd, hkind⟩ := h.file
    rw [Laid.getElem?_reachTo, hd]
    split
    · exact ⟨_, rfl, hkind⟩
    · exact ⟨d, rfl, hkind⟩
  obtain ⟨d', hd', hfirst, hsame⟩ := hdraft hd
  rw [← hsame] at hkind
  obtain ⟨k, hlt, hk, hdues⟩ := h.anchor i d' hd' hkind
  rw [hfirst] at hk hdues
  refine ⟨k, hlt, ⟨hk.le, hk.owned, fun other e hother he hekind => ?_⟩, hdues⟩
  obtain ⟨e', he', hefirst, hesame⟩ := hdraft he
  rw [← hesame] at hekind
  rw [← hefirst]
  exact hk.alone other e' hother he' hekind

/-! ## New cursors -/

theorem file_declare (h : o.Anchored s dues bound next) (kind : CursorKind) (spelling : String)
    (first last : Nat) (parent : CursorId) :
    ∃ d, (o.declare kind spelling first last parent).1.drafts[0]? = some d ∧
      d.kind.canBeDocumented = false := by
  obtain ⟨d, hd, hkind⟩ := h.file
  refine ⟨d, (Laid.getElem?_declare 0).trans ?_, hkind⟩
  rw [if_neg (Nat.ne_of_lt (Array.getElem?_eq_some_iff.1 hd).1), hd]

/-- A cursor that no comment is attached to needs no anchor. -/
theorem declare_other (h : o.Anchored s dues bound next) (kind : CursorKind)
    (hkind : kind.canBeDocumented = false) (spelling : String) (first last : Nat)
    (parent : CursorId) :
    (o.declare kind spelling first last parent).1.Anchored s dues bound next := by
  have hdraft {i : CursorId} {d : Draft}
      (hd : (o.declare kind spelling first last parent).1.drafts[i]? = some d)
      (hd' : d.kind.canBeDocumented = true) : o.drafts[i]? = some d := by
    rw [Laid.getElem?_declare] at hd
    split at hd
    · cases hd
      rw [hkind] at hd'
      cases hd'
    · exact hd
  refine ⟨h.size, h.file_declare .., h.free, h.kept, h.apart, fun i d hd hd' => ?_⟩
  obtain ⟨k, hlt, hk, hdues⟩ := h.anchor i d (hdraft hd hd') hd'
  exact ⟨k, hlt, ⟨hk.le, hk.owned, fun other e hother he he' =>
    hk.alone other e hother (hdraft he he') he'⟩, hdues⟩

theorem add_other (h : o.Anchored s dues bound next) (kind : CursorKind)
    (hkind : kind.canBeDocumented = false) (spelling : String) (parent : CursorId)
    (hfirst : bound ≤ first) (hlast : min (last + 1) s.size ≤ next) :
    (o.add kind spelling first last parent).Anchored s dues bound next :=
  (h.declare_other kind hkind spelling first last parent).claim (h.stop_le hfirst) hlast _

/-- A declaration begins with lexeme `first`, and lexeme `k`, which nothing owns yet, is kept for
it. -/
theorem await (h : o.Anchored s dues bound next) (hfirst : bound ≤ first) {k : Nat}
    (hle : first ≤ k) (hnext : next ≤ k) (hk : k < s.size) :
    o.Anchored s (⟨first, k + 1⟩ :: dues) (k + 1) (k + 1) where
  size := h.size
  file := h.file
  free i id hi := Nat.lt_succ_of_lt (Nat.lt_of_lt_of_le (h.free i id hi) hnext)
  kept w hw := by
    rcases List.mem_cons.1 hw with rfl | hw
    · refine ⟨Nat.lt_succ_of_le hle, Nat.le_refl _, ?_⟩
      have hsize : k < o.owners.size := by rw [h.size]; exact hk
      rw [Nat.add_sub_cancel, Array.getElem?_eq_getElem hsize]
      cases howner : o.owners[k] with
      | none => rfl
      | some id =>
        have hlt := h.free k id (by rw [Array.getElem?_eq_getElem hsize, howner])
        omega
    · obtain ⟨hlt, hstop, hfree⟩ := h.kept w hw
      exact ⟨hlt, by omega, hfree⟩
  apart := List.pairwise_cons.2 ⟨fun w hw => h.stop_le hfirst w hw, h.apart⟩
  anchor i d hd hkind := by
    obtain ⟨j, hlt, hj, hdues⟩ := h.anchor i d hd hkind
    refine ⟨j, by omega, hj, fun w hw => ?_⟩
    rcases List.mem_cons.1 hw with rfl | hw
    · exact .inl (Nat.lt_of_lt_of_le hlt hfirst)
    · exact hdues w hw

/-- **The innermost declaration that is due gets its cursor**, and with it the lexeme that was kept
for it, which is its anchor. -/
theorem settle (h : o.Anchored s (w :: dues) bound next) (kind : CursorKind) (spelling : String)
    (parent : CursorId) (hstop : w.stop ≤ last + 1) (hlast : min (last + 1) s.size ≤ next) :
    (o.add kind spelling w.first last parent).Anchored s dues bound next := by
  obtain ⟨hlt, hbound, hfree⟩ := h.kept w List.mem_cons_self
  have houter : ∀ w' ∈ dues, w'.stop ≤ w.first := (List.pairwise_cons.1 h.apart).1
  have hnew : (o.add kind spelling w.first last parent).owners[w.stop - 1]? =
      some (some o.drafts.size) := by
    refine (getElem?_claimFrom _ _ _ _ _).trans ?_
    rw [if_pos (by omega)]
    exact congrArg (Option.map _) hfree
  have hold {k : Nat} {i : CursorId} (hk : o.owners[k]? = some (some i)) :
      (o.add kind spelling w.first last parent).owners[k]? = some (some i) :=
    owned_of_claim (o := (o.declare kind spelling w.first last parent).1) hk
  constructor
  case size => exact (size_claimFrom ..).trans h.size
  case file => exact h.file_declare ..
  case free =>
    -- what is claimed ends in front of `next`
    intro k i hk
    have hsize : k < s.size := by
      have hlt := (Array.getElem?_eq_some_iff.1 hk).1
      rwa [Outline.add, Outline.claim, size_claimFrom, Outline.declare, h.size] at hlt
    rcases Laid.owner_of_claim hk with hk | ⟨-, hle, -⟩
    · exact h.free k i hk
    · omega
  case kept =>
    intro w' hw'
    obtain ⟨hlt', hstop', hfree'⟩ := h.kept w' (List.mem_cons_of_mem w hw')
    have hbefore := houter w' hw'
    refine ⟨hlt', hstop', (getElem?_claimFrom _ _ _ _ _).trans ?_⟩
    rw [if_neg (by omega)]
    exact hfree'
  case apart => exact (List.pairwise_cons.1 h.apart).2
  case anchor =>
    intro i d hd hkind
    replace hd := (Laid.getElem?_declare (o := o) i).symm.trans hd
    split at hd
    · -- the new cursor has the lexeme that was kept for it
      rename_i hi
      cases hd
      refine ⟨w.stop - 1, by omega, ⟨by simp only; omega, hi ▸ hnew, ?_⟩, fun w' hw' =>
        .inr (houter w' hw')⟩
      intro other e hother he hekind
      replace he := (Laid.getElem?_declare (o := o) other).symm.trans he
      rw [if_neg fun heq => hother (heq.trans hi.symm)] at he
      -- the other one has its anchor in front, or begins behind what was kept
      obtain ⟨k, -, hk, hdues⟩ := h.anchor other e he hekind
      rcases hdues w List.mem_cons_self with hapart | hapart
      · exact .inl (Nat.lt_of_le_of_lt hk.le hapart)
      · exact .inr (by omega)
    · -- the anchors of the others were clear of what was due
      obtain ⟨k, hkbound, hk, hdues⟩ := h.anchor i d hd hkind
      refine ⟨k, hkbound, ⟨hk.le, hold hk.owned, ?_⟩, fun w' hw' =>
        hdues w' (List.mem_cons_of_mem w hw')⟩
      intro other e hother he hekind
      replace he := (Laid.getElem?_declare (o := o) other).symm.trans he
      split at he
      · cases he
        rcases hdues w List.mem_cons_self with hapart | hapart
        · exact .inr hapart
        · exact .inl (by simp only; omega)
      · exact hk.alone other e hother he hekind

/-- A declaration gets its cursor at once. Lexeme `k`, which nothing owns yet, is its anchor. -/
theorem add (h : o.Anchored s dues bound next) (kind : CursorKind) (spelling : String)
    (parent : CursorId) (hfirst : bound ≤ first) {k : Nat} (hle : first ≤ k) (hnext : next ≤ k)
    (hk : k < s.size) (hlast : k ≤ last) :
    (o.add kind spelling first last parent).Anchored s dues (last + 1) (last + 1) :=
  ((h.await hfirst hle hnext hk).mono (show min (k + 1) s.size ≤ last + 1 by omega)
    (show min (k + 1) s.size ≤ last + 1 by omega)).settle kind spelling parent
      (Nat.succ_le_succ hlast) (Nat.min_le_left _ _)

end Anchored

end Outline

/-- What is due until the body of a scope has been read. -/
def Closing.dues : Closing → List Due
  | linkage _ _ | namespaces _ _ | record _ _ => []
  | typedefRecord _ start outer => [⟨outer, start⟩]

/-- What is due until the bodies that are open have been read. -/
def Frame.dues (frames : List Frame) : List Due :=
  frames.flatMap fun f => f.closing.dues

@[simp] theorem Frame.dues_nil : Frame.dues [] = [] := rfl

@[simp] theorem Frame.dues_cons (f : Frame) (frames : List Frame) :
    Frame.dues (f :: frames) = f.closing.dues ++ Frame.dues frames := rfl

/-- What a declaration leads to: cursors with their anchors, and what is due until the body that it
opens has been read. -/
def Outcome.Anchored (s : Source) (dues : List Due) (r : Outcome) : Prop :=
  r.outline.Anchored s (Frame.dues r.opened.toList ++ dues) r.next r.next

namespace Outline

open Source

variable {s : Source} {dues : List Due} {bound next start i last : Nat} {o : Outline}
  {scope : Scope} {templated : Bool} {id : CursorId}

/-- A cursor that is over as soon as it begins, and reading goes on behind it. -/
theorem Anchored.added (h : o.Anchored s dues start next) (kind : CursorKind) (spelling : String)
    (parent : CursorId) {k : Nat} (hle : start ≤ k) (hnext : next ≤ k) (hk : k < s.size)
    (hlast : k ≤ last) :
    ((o.add kind spelling start last parent).done (last + 1)).Anchored s dues :=
  h.add kind spelling parent (Nat.le_refl start) hle hnext hk hlast

/-! ## Preprocessor lines -/

/-- A macro is found by its name. -/
theorem anchored_readDirective (h : o.Anchored s dues i i) (hi : i < s.size) :
    (o.readDirective s i).Anchored s dues (s.lineEnd i + 1) (s.lineEnd i + 1) := by
  obtain ⟨hfirst, hlast⟩ := s.lastCode_le (le_lineEnd (s := s) i)
  have hline := h.declare_other .preprocessingDirective rfl (s.spelling (i + 1)) i
    (s.lastCode i (s.lineEnd i)) 0
  have hclaim {o' : Outline} (h' : o'.Anchored s dues i i) {n : Nat} (hn : i ≤ n) (id : CursorId) :
      (o'.claim i n id).Anchored s dues (n + 1) (n + 1) :=
    (h'.mono (by omega) (by omega)).claim (h.stop_le (Nat.le_refl i)) (Nat.min_le_left _ _) id
  unfold readDirective
  simp only
  split
  · rename_i hdefine
    simp only [Bool.and_eq_true, decide_eq_true_eq] at hdefine
    have hname : i + 2 < s.size := by
      have := s.lineEnd_lt hi
      omega
    have hparameters :=
      hline.define (s.spelling (i + 2)) (s.is (i + 3) "(" && s.touchesNext (i + 2))
    have hmacro := (hclaim hparameters (Nat.le_succ i) o.drafts.size).add .macroDefinition
      (s.spelling (i + 2)) 0 (Nat.le_refl (i + 2)) (Nat.le_refl _) (Nat.le_refl _) hname
      (show i + 2 ≤ s.lastCode i (s.lineEnd i) by omega)
    exact hmacro.mono (by omega) (by omega)
  split
  · exact (hclaim (hline.undefine _) hfirst _).mono (by omega) (by omega)
  · exact (hclaim hline hfirst _).mono (by omega) (by omega)

/-! ## Functions, variables, modules, aliases and type definitions -/

section

variable {k : Nat} (h : o.Anchored s dues start k) (hle : start ≤ k) (hk : k < s.size)
  (hi : k ≤ i)
include h hle hk hi

theorem anchored_readPlain : (o.readPlain s scope start i templated).Anchored s dues := by
  have hstop : k ≤ (s.shape o.macros i).stop := le_stop_shape o.macros hk hi
  replace h := h.note (s.shape o.macros i).notes
  unfold readPlain
  simp only
  split
  · exact h.added _ _ _ hle (Nat.le_refl k) hk hstop
  split
  · exact h.added _ _ _ hle (Nat.le_refl k) hk hstop
  · exact h.added _ _ _ hle (Nat.le_refl k) hk hstop

theorem anchored_readSimple {kind : CursorKind} :
    (o.readSimple s scope kind start i).Anchored s dues :=
  (h.note _).added kind _ _ hle (Nat.le_refl k) hk
    (le_stop_shape o.macros hk (Nat.le_succ_of_le hi))

theorem anchored_readModule : (o.readModule s scope start i).Anchored s dues := by
  have hlast : k ≤ (s.statementEnd (i + 1)).index := le_statementEnd hk (Nat.lt_succ_of_le hi)
  have hnote := h.note (s.statementEnd (i + 1)).notes
  unfold readModule
  simp only
  split
  · exact (hnote.nameModule _).added _ _ _ hle (Nat.le_refl k) hk hlast
  · exact hnote.added _ _ _ hle (Nat.le_refl k) hk hlast

theorem anchored_readUsing : (o.readUsing s scope start i templated).Anchored s dues := by
  have hlast : k ≤ (s.statementEnd (i + 1)).index := le_statementEnd hk (Nat.lt_succ_of_le hi)
  replace h := h.note ((s.statementEnd (i + 1)).notes ++ (s.skipDecorations o.macros (i + 2)).notes)
  unfold readUsing
  simp only
  split
  · exact h.added _ _ _ hle (Nat.le_refl k) hk hlast
  split
  · exact h.added _ _ _ hle (Nat.le_refl k) hk hlast
  · exact h.added _ _ _ hle (Nat.le_refl k) hk hlast

end

/-- A type definition that was due gets its cursor. -/
theorem anchored_readTypedefRest {stop : Nat} (h : o.Anchored s (⟨start, stop⟩ :: dues) next next)
    (hi : next ≤ i) (hstop : stop ≤ i) :
    (o.readTypedefRest s scope start i).Anchored s dues := by
  obtain ⟨hlt, -, hfree⟩ := h.kept ⟨start, stop⟩ List.mem_cons_self
  have hsize : stop - 1 < s.size := h.lt_size_of_owned hfree
  have hlt : start < stop := hlt
  have hlast : stop - 1 ≤ (s.statementEnd i).index := le_statementEnd hsize (by omega)
  have hreach := s.min_le_statementEnd i
  have hnote := (h.note (s.statementEnd i).notes).mono
    (show min next s.size ≤ (s.statementEnd i).index + 1 by omega)
    (show min next s.size ≤ (s.statementEnd i).index + 1 by omega)
  exact hnote.settle .typedefDecl _ scope.parent (show stop ≤ _ + 1 by omega) (Nat.min_le_left _ _)

/-! ## Scopes -/

section

variable (h : o.Anchored s dues start next)
include h

theorem anchored_readLinkage {brace : Nat} (hstart : start ≤ brace) (hnext : next ≤ brace) :
    (o.readLinkage scope start brace).Anchored s dues :=
  ((h.declare_other .unexposedDecl rfl "" start brace scope.parent).mono
    (show min start s.size ≤ brace + 1 by omega) (show min next s.size ≤ brace + 1 by omega)).claim
      (h.stop_le (Nat.le_refl start)) (Nat.min_le_left _ _) _

theorem anchored_openNamespaces (brace : Nat) (parent : CursorId) (path : List String)
    (ids : List CursorId) (names : List String) :
    (openNamespaces start brace parent path ids names o).1.Anchored s dues start next := by
  induction names generalizing o parent path ids with
  | nil => exact h
  | cons name names ih =>
    have hd := h.declare_other .namespaceDecl rfl name start brace parent
    simp only [openNamespaces]
    split
    · exact ih hd ..
    · exact ih (hd.openScope ..) ..

end

section

variable (h : o.Anchored s dues start i) (hle : start ≤ i) (hi : i < s.size)
include h hle hi

theorem anchored_readNamespaceFrom {names : List String} {j : Nat} (hj : i < j) :
    (o.readNamespaceFrom s scope start names j).Anchored s dues := by
  unfold readNamespaceFrom
  split
  · exact (h.note _).added _ _ _ hle (Nat.le_refl i) hi (le_statementEnd hi hj)
  split
  · exact ((anchored_openNamespaces h j scope.parent scope.path [] _).mono
      (show min start s.size ≤ j + 1 by omega) (show min i s.size ≤ j + 1 by omega)).claim
        (h.stop_le (Nat.le_refl start)) (Nat.min_le_left _ _) _
  · exact anchored_readPlain (h.note _) hle hi (Nat.le_of_lt hj)

theorem anchored_readNamespace {keyword : Nat} (hkeyword : i ≤ keyword) :
    (o.readNamespace s scope start keyword).Anchored s dues := by
  have hj := s.le_namespaceHead (keyword + 1)
  rw [readNamespace_eq]
  exact anchored_readNamespaceFrom (h.note _) hle hi (by omega)

end

/-! ## Classes -/

/-- A type definition that begins with a class is due until the class is over. -/
def outerDues (outer : Option Nat) (start : Nat) : List Due :=
  outer.toList.map fun first => ⟨first, start⟩

section

variable {outer : Option Nat} {n : RecordName} {kind : CursorKind} {parent : CursorId}
  (h : o.Anchored s (outerDues outer start ++ dues) start i) (hle : start ≤ i) (hi : i < s.size)
include h hle hi

theorem anchored_openRecord {brace : Nat} (hbrace : i ≤ brace) :
    (openRecord scope n kind start parent outer o brace).Anchored s dues := by
  have hadd := h.add kind n.name parent (Nat.le_refl start) hle (Nat.le_refl i) hi hbrace
  have hnamed (path : List String) := hadd.openScope path n.name o.drafts.size
  simp only [openRecord]
  cases outer with
  | none =>
    split
    · exact hadd
    · exact hnamed _
  | some first =>
    split
    · exact hadd
    · exact hnamed _

/-- What reading a class leads to: its body is open, or the type definition is left to be read that
begins with it. -/
def AnchoredRecord (s : Source) (dues : List Due) (outer : Option Nat) (start : Nat)
    (r : Outcome) : Prop :=
  r.opened.isSome = true ∧ r.Anchored s dues ∨
    r.opened = none ∧ r.outline.Anchored s (outerDues outer start ++ dues) r.next r.next

theorem anchored_readRecordFrom {j : Nat} (hj : i < j) :
    AnchoredRecord s dues outer start
      (readRecordFrom s scope start i templated outer n parent o j) := by
  have hbase := le_baseListEnd (s := s) (j + 1)
  have hdone {r : Outcome} (hr : r.opened = none)
      (h : r.Anchored s (outerDues outer start ++ dues)) :
      AnchoredRecord s dues outer start r := by
    rw [Outcome.Anchored, hr] at h
    exact .inr ⟨hr, h⟩
  unfold readRecordFrom
  simp only
  split
  · exact .inl ⟨isSome_openRecord, anchored_openRecord h hle hi (Nat.le_of_lt hj)⟩
  split
  · split
    · exact .inl ⟨isSome_openRecord, anchored_openRecord (h.note _) hle hi (by omega)⟩
    · exact hdone rfl (((h.note _).note _).added _ _ _ hle (Nat.le_refl i) hi
        (show i ≤ min _ (s.size - 1) by omega))
  split
  · exact hdone rfl (h.mono (show min start s.size ≤ j by omega) (show min i s.size ≤ j by omega))
  split
  · exact hdone rfl (h.added _ _ _ hle (Nat.le_refl i) hi (Nat.le_of_lt hj))
  · exact hdone opened_readPlain (anchored_readPlain h hle hi (Nat.le_refl i))

theorem anchored_readRecord :
    AnchoredRecord s dues outer start (o.readRecord s scope start i templated outer) := by
  have hj := s.le_recordHead o.macros (i + 1)
  rw [readRecord_eq]
  exact anchored_readRecordFrom (h.note _) hle hi (by omega)

end

/-! ## Enumerations -/

theorem anchored_readEnumerators (h : o.Anchored s dues i i) :
    (readEnumerators s id o i).1.Anchored s dues (readEnumerators s id o i).2
      (readEnumerators s id o i).2 := by
  fun_induction readEnumerators s id o i with
  | case1 => exact h
  | case2 o i hi _ _ ih => exact ih (anchored_readDirective h hi)
  | case3 o i hi _ _ _ e last ih =>
    have hlast : i ≤ last ∧ last ≤ e.index := s.lastCode_le (le_enumeratorEnd i)
    have hadd := (h.note e.notes).add .enumConstantDecl (s.spelling i) id (Nat.le_refl i)
      (Nat.le_refl i) (Nat.le_refl i) hi hlast.1
    exact ih (hadd.mono (by omega) (by omega))
  | case4 o i hi _ _ _ ih => exact ih (h.claim_next id)
  | case5 => exact h

theorem anchored_readEnumBody {brace : Nat} {inTypedef : Bool}
    (h : o.Anchored s dues (brace + 1) (brace + 1)) (hdues : ∀ w ∈ dues, w.stop ≤ brace)
    (hbrace : brace < s.size) :
    (o.readEnumBody s id start brace inTypedef).Anchored s dues := by
  have hle := le_next_readEnumerators (s := s) id o (brace + 1)
  have hbody : (readEnumerators s id o (brace + 1)).1.Anchored s dues _ _ :=
    anchored_readEnumerators h
  generalize hr : readEnumerators s id o (brace + 1) = r at hle hbody
  have hend : min r.2 s.size ≤ (enumEnd s inTypedef r.2).index + 1 ∧
      brace ≤ (enumEnd s inTypedef r.2).index := by
    unfold enumEnd
    split
    · simp only; omega
    · have := s.min_le_declaratorsEnd (r.2 + 1)
      omega
  have hnoted : (if s.size ≤ r.2 then r.1.note [⟨r.2, .noClosingBrace⟩] else r.1).Anchored s dues
      r.2 r.2 := by
    split
    · exact hbody.note _
    · exact hbody
  have hclaim := ((hnoted.note (enumEnd s inTypedef r.2).notes).mono hend.1 hend.1).claim
    (show ∀ w ∈ dues, w.stop ≤ min r.2 (enumEnd s inTypedef r.2).index from
      fun w hw => Nat.le_trans (hdues w hw) (by omega)) (Nat.min_le_left _ _) id
  rw [readEnumBody, hr]
  exact hclaim.reachTo id _

theorem anchored_readEnumeration {inTypedef : Bool} (h : o.Anchored s dues start i)
    (hle : start ≤ i) (hi : i < s.size) :
    (o.readEnumeration s scope start i inTypedef).Anchored s dues := by
  have hj := s.lt_enumHead o.macros i
  rw [readEnumeration_eq]
  replace h := h.note (s.skipDecorations o.macros (s.enumKeyEnd i)).notes
  generalize (s.enumHead o.macros i).2 = j at hj
  unfold readEnumerationFrom
  split
  · rename_i hbrace
    exact anchored_readEnumBody (h.add .enumDecl _ scope.parent (Nat.le_refl start) hle
      (Nat.le_refl i) hi (Nat.le_of_lt hj)) (h.stop_le (by omega)) (lt_size_of_is hbrace)
  split
  · exact h.mono (show min start s.size ≤ j by omega) (show min i s.size ≤ j by omega)
  split
  · exact h.added _ _ _ hle (Nat.le_refl i) hi (Nat.le_of_lt hj)
  · exact anchored_readPlain h hle hi (Nat.le_refl i)

/-! ## Type definitions -/

theorem anchored_readTypedef (h : o.Anchored s dues start i) (hle : start ≤ i) (hi : i < s.size) :
    (o.readTypedef s scope start i).Anchored s dues := by
  -- the keyword is kept for the type definition
  have hdue := h.await (Nat.le_refl start) hle (Nat.le_refl i) hi
  rw [readTypedef_eq]
  split
  · rename_i hkey
    have hlt := lt_size_of_startsRecord hkey
    have hnext : i + 1 < (o.readRecord s scope (i + 1) (i + 1) false (some start)).next :=
      lt_next_readRecord hlt (Nat.le_refl _)
    have hr : AnchoredRecord s dues (some start) (i + 1)
        (o.readRecord s scope (i + 1) (i + 1) false (some start)) :=
      anchored_readRecord hdue (Nat.le_refl _) hlt
    unfold readTypedefAfter
    rcases hr with ⟨hopened, hr⟩ | ⟨hopened, hr⟩
    · obtain ⟨f, hf⟩ := Option.isSome_iff_exists.1 hopened
      rw [hf]
      exact hr
    · rw [hopened]
      exact anchored_readTypedefRest hr (Nat.le_refl _) (Nat.le_of_lt hnext)
  split
  · rename_i hkey
    have hlt := lt_size_of_is hkey
    have hnext : i + 1 < (o.readEnumeration s scope (i + 1) (i + 1) true).next :=
      lt_next_readEnumeration hlt (Nat.le_refl _)
    have hr : (o.readEnumeration s scope (i + 1) (i + 1) true).Anchored s
        (⟨start, i + 1⟩ :: dues) :=
      anchored_readEnumeration hdue (Nat.le_refl _) hlt
    rw [Outcome.Anchored, opened_readEnumeration] at hr
    rw [readTypedefAfter, opened_readEnumeration]
    exact anchored_readTypedefRest hr (Nat.le_refl _) (Nat.le_of_lt hnext)
  · exact anchored_readTypedefRest hdue (Nat.le_refl _) (Nat.le_refl _)

/-! ## All declarations -/

theorem anchored_addMacroCall (h : o.Anchored s dues start i) (hle : start ≤ i) :
    (o.addMacroCall s i).1.Anchored s dues start (s.macroCallEnd o.macros i + 1) := by
  have hend := s.le_macroCallEnd o.macros i
  exact ((h.note _).mono (Nat.min_le_left _ _) (by omega)).add_other _ rfl _ 0 hle
    (Nat.min_le_left _ _)

/-- **Reading a declaration leads to cursors with anchors.** Where the lead in front has been read
up to lexeme `i`, that one is free to be the anchor. -/
theorem anchored_readDeclaration (h : o.Anchored s dues start i) (hle : start ≤ i) :
    (readDeclaration s scope start o i templated).Anchored s dues := by
  fun_induction readDeclaration s scope start o i templated with
  | case1 o i templated hi hb =>
    simp only [Bool.and_eq_true, decide_eq_true_eq] at hb
    have hadd : (o.add .unexposedDecl "" start (i - 1) scope.parent).Anchored s dues start i :=
      h.add_other .unexposedDecl rfl "" scope.parent (Nat.le_refl start) (by omega)
    exact hadd.mono (show min start s.size ≤ i by omega) (show min i s.size ≤ i by omega)
  | case2 o i templated hi _ _ last o' id hcall hsemicolon =>
    have hlast : i ≤ last := s.le_macroCallEnd o.macros i
    have hcalled := anchored_addMacroCall h hle
    rw [hcall] at hcalled
    exact (hcalled.mono (show min start s.size ≤ last + 2 by omega)
      (show min (last + 1) s.size ≤ last + 2 by omega)).claim (h.stop_le (by omega))
        (Nat.min_le_left _ _) id
  | case3 o i templated hi _ _ last o' id hcall _ =>
    have hlast : i ≤ last := s.le_macroCallEnd o.macros i
    have hcalled := anchored_addMacroCall h hle
    rw [hcall] at hcalled
    exact hcalled.mono (show min start s.size ≤ last + 1 by omega) (Nat.min_le_left _ _)
  | case4 o i templated hi _ _ last o' id hcall _ _ ih =>
    have hlast : i ≤ last := s.le_macroCallEnd o.macros i
    have hcalled := anchored_addMacroCall h hle
    rw [hcall] at hcalled
    exact ih hcalled (by omega)
  | case5 o i templated hi _ _ keyword ha =>
    exact anchored_readNamespace h hle hi (le_of_announced (.inl ha))
  | case6 o i templated hi _ _ brace ha =>
    have hbrace := le_of_announced (.inr ha)
    exact anchored_readLinkage h (by omega) hbrace
  | case7 o i templated hi _ _ ha ih =>
    exact ih (h.mono (Nat.min_le_left _ _) (show min i s.size ≤ i + 1 by omega)) (by omega)
  | case8 o i templated hi _ _ ha => exact anchored_readModule h hle hi (Nat.le_refl i)
  | case9 o i templated hi _ _ ha ih =>
    have hangle := le_angleEnd (lt_size_of_is (is_of_announced ha))
    exact ih (h.mono (Nat.min_le_left _ _) (by omega)) (by omega)
  | case10 o i templated hi _ _ ha =>
    exact h.added .accessSpecifier "" scope.parent hle (Nat.le_refl i) hi (Nat.le_succ i)
  | case11 o i templated hi _ _ ha =>
    have hr : AnchoredRecord s dues none start (o.readRecord s scope start i templated none) :=
      anchored_readRecord h hle hi
    rcases hr with ⟨-, hr⟩ | ⟨hopened, hr⟩
    · exact hr
    · rw [Outcome.Anchored, hopened]
      exact hr
  | case12 o i templated hi _ _ ha => exact anchored_readEnumeration h hle hi
  | case13 o i templated hi _ _ ha => exact anchored_readUsing h hle hi (Nat.le_refl i)
  | case14 o i templated hi _ _ ha => exact anchored_readTypedef h hle hi
  | case15 o i templated hi _ _ kind ha => exact anchored_readSimple h hle hi (Nat.le_refl i)
  | case16 o i templated hi _ _ ha => exact anchored_readPlain h hle hi (Nat.le_refl i)
  | case17 o i templated hi =>
    exact h.mono (show min start s.size ≤ i by omega) (Nat.min_le_left _ _)

/-! ## Closing scopes -/

theorem anchored_reachTo_all (h : o.Anchored s dues bound next) (ids : List CursorId) (last : Nat) :
    (ids.foldl (fun o id => o.reachTo id last) o).Anchored s dues bound next := by
  induction ids generalizing o with
  | nil => exact h
  | cons id ids ih => exact ih (h.reachTo id last)

/-- **Where a scope is closed**, the type definition gets its cursor that was due until then. -/
theorem anchored_close (scope : Scope) {closing : Closing} {after : Nat}
    (h : o.Anchored s (closing.dues ++ dues) after after)
    (hdues : ∀ w ∈ closing.dues ++ dues, w.stop < min after s.size) :
    (close s scope closing o after).1.Anchored s dues (close s scope closing o after).2
      (close s scope closing o after).2 := by
  cases closing with
  | linkage id start => exact h.reachTo id _
  | namespaces ids start => exact anchored_reachTo_all h ids _
  | record id start =>
    have hreach := s.min_le_declaratorsEnd after
    have hclaim := ((h.note (declaratorsEnd s after).notes).mono hreach hreach).claim
      (show ∀ w ∈ dues, w.stop ≤ min after (declaratorsEnd s after).index from
        fun w hw => by have := hdues w hw; omega) (Nat.min_le_left _ _) id
    exact hclaim.reachTo id _
  | typedefRecord id start outer =>
    have hstop : start < min after s.size := hdues ⟨outer, start⟩ List.mem_cons_self
    have hclaim := (h.mono (show min after s.size ≤ after - 1 + 1 by omega)
      (show min after s.size ≤ after - 1 + 1 by omega)).claim
        (show ∀ w ∈ ⟨outer, start⟩ :: dues, w.stop ≤ min after (after - 1) from
          fun w hw => by have := hdues w hw; omega) (Nat.min_le_left _ _) id
    exact anchored_readTypedefRest (hclaim.reachTo id _) (Nat.le_refl _) (by omega)

/-! ## Reading a whole text -/

/-- What is due begins in front of a class whose body is open. -/
theorem stop_lt_of_laid {frames : List Frame} (h : o.Laid s (Frame.edges frames) i) :
    ∀ w ∈ Frame.dues frames, w.stop < min i s.size := by
  intro w hw
  obtain ⟨f, hf, hw⟩ := List.mem_flatMap.1 hw
  cases hclosing : f.closing with
  | typedefRecord id start outer =>
    rw [hclosing] at hw
    obtain rfl : w = ⟨outer, start⟩ := List.mem_singleton.1 hw
    have hedge : (⟨start, [id]⟩ : Edge) ∈ Frame.edges frames :=
      List.mem_flatMap.2 ⟨f, hf, by rw [hclosing]; exact List.mem_cons_self⟩
    have hlt := (h.begun _ hedge id List.mem_cons_self).2.1
    have hsize := (h.reached _ hedge).2
    exact Nat.lt_min.2 ⟨hlt, hsize⟩
  | _ => rw [hclosing] at hw; cases hw

/-- **A step leads to cursors with anchors.** -/
theorem anchored_step {frames : List Frame} (h : o.Anchored s (Frame.dues frames) i i)
    (hlaid : o.Laid s (Frame.edges frames) i) (hi : i < s.size) :
    (step s o frames i).outline.Anchored s (Frame.dues (step s o frames i).frames)
      (step s o frames i).next (step s o frames i).next := by
  unfold step
  simp only
  split
  · exact h.claim_next _
  split
  · exact anchored_readDirective h hi
  split
  · cases frames with
    | nil => exact (h.note _).mono (by simp only; omega) (by simp only; omega)
    | cons f around =>
      refine anchored_close _ (h.claim_next _) fun w hw => ?_
      have := stop_lt_of_laid hlaid w hw
      omega
  split
  · exact h.claim_next _
  · have hr : (readDeclaration s (scopeOf frames) i o i false).Anchored s (Frame.dues frames) :=
      anchored_readDeclaration h (Nat.le_refl i)
    rw [Outcome.Anchored] at hr
    generalize readDeclaration s (scopeOf frames) i o i false = r at hr ⊢
    rw [Frame.dues, List.flatMap_append]
    exact hr

theorem anchored_closeAll {frames : List Frame} (h : o.Anchored s (Frame.dues frames) i i)
    (hlaid : o.Laid s (Frame.edges frames) i) (hframes : Frame.Nested frames) :
    ∃ next, (closeAll s frames o i).Anchored s [] next next := by
  induction frames generalizing o i with
  | nil => exact ⟨i, h⟩
  | cons f around ih =>
    have hlaid' := hlaid.note [⟨i, .noClosingBrace⟩]
    exact ih (anchored_close _ (h.note _) (stop_lt_of_laid hlaid'))
      (laid_close hlaid' (within_scopeOf hframes.2)) hframes.2

/-- **Reading to the end leads to cursors with anchors**, and nothing is due any more. -/
theorem anchored_readFrom {frames : List Frame} (h : o.Anchored s (Frame.dues frames) i i)
    (hlaid : o.Laid s (Frame.edges frames) i) (hframes : Frame.Nested frames) :
    ∃ next, (readFrom s o frames i).Anchored s [] next next := by
  fun_induction readFrom s o frames i with
  | case1 o frames i hi r ih =>
    obtain ⟨hlaid', hframes'⟩ := laid_step hlaid hframes hi
    exact ih (anchored_step h hlaid hi) hlaid' hframes'
  | case2 o frames i hi => exact anchored_closeAll h hlaid hframes

/-- The outline of a text, whatever the text. -/
theorem anchored_ofSource (fileName : String) (macros : Macros) (s : Source) :
    ∃ next, (ofSource fileName macros s).Anchored s [] next next := by
  have hstart : (start fileName s.size macros).Anchored s (Frame.dues []) 0 0 := by
    refine ⟨Array.size_replicate, ⟨_, rfl, rfl⟩, fun k id hk => ?_, fun w hw => (by cases hw),
      List.Pairwise.nil, fun id d hd hkind => ?_⟩
    · simp [start, Array.getElem?_replicate] at hk
    · obtain rfl := eq_zero_of_start hd
      cases hd
      cases hkind
  exact anchored_readFrom hstart (laid_start s fileName macros) trivial

end Outline

end DocIndex
