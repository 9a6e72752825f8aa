import DocIndex.Proofs.Printed.Steps

/-!
# The outline of a printed tree

Reading goes row by row. What has been recognised is only ever added to: a cursor stays as it was
declared but for its end, and a lexeme stays with its owner. So what holds of the cursor of a row
where the row has been read still holds at the end of the text.

* `Outline.Ready` — the text has been read up to some lexeme, without trouble.
* `Outline.Extends` — nothing is lost from one outline to another.
* `Outline.Path` — the names of the scopes around, from the parents.
* `Outline.Declares` — the cursor of a row is as its line says.
* `reads_items` — **printed items are read as what they declare.**
-/

namespace DocIndex

namespace Outline

/-! ## Outlines that grow -/

/-- The lexemes in front of `i` have been read without trouble, and those from `i` on have no owner
yet. -/
structure Ready (s : Source) (o : Outline) (i : Nat) : Prop where
  le : i ≤ s.size
  notes : o.notes = []
  macros : o.macros = []
  moduleName : o.moduleName = none
  pos : 0 < o.drafts.size
  size : o.owners.size = s.size
  free : ∀ k, i ≤ k → k < s.size → o.owners[k]? = some none
  within : ∀ (id : CursorId) (d : Draft), 0 < id → o.drafts[id]? = some d → d.last < i

/-- Cursors stay but for their ends, which move on, and so do owners. -/
structure Extends (o o' : Outline) : Prop where
  drafts : ∀ (id : CursorId) (d : Draft), o.drafts[id]? = some d →
    ∃ last, d.last ≤ last ∧ o'.drafts[id]? = some { d with last }
  owners : ∀ (k : Nat) (id : CursorId), o.owners[k]? = some (some id) →
    o'.owners[k]? = some (some id)

/-- The names of the scopes from the top of the file down to a cursor. -/
inductive Path (o : Outline) : CursorId → List String → Prop
  | file : Path o 0 []
  | inside {id p : CursorId} {d : Draft} {path : List String} (draft : o.drafts[id]? = some d)
      (parent : d.parent = some p) (lt : p < id) (outer : Path o p path) :
      Path o id (path ++ [d.spelling].filter (!·.isEmpty))

variable {s : Source} {o o' o'' : Outline} {i n : Nat}

theorem Extends.refl (o : Outline) : o.Extends o :=
  ⟨fun _ d h => ⟨d.last, Nat.le_refl _, h⟩, fun _ _ h => h⟩

theorem Extends.trans (h : o.Extends o') (h' : o'.Extends o'') : o.Extends o'' := by
  refine ⟨fun id d hd => ?_, fun k id hk => h'.owners k id (h.owners k id hk)⟩
  obtain ⟨last, hle, hd'⟩ := h.drafts id d hd
  obtain ⟨last', hle', hd''⟩ := h'.drafts id _ hd'
  exact ⟨last', Nat.le_trans hle hle', hd''⟩

/-- Where cursors end does not matter to the scopes around. -/
theorem Path.of_drafts
    (h : ∀ (id : CursorId) (d : Draft), o.drafts[id]? = some d →
      ∃ last, o'.drafts[id]? = some { d with last })
    {id : CursorId} {path : List String} (hp : o.Path id path) : o'.Path id path := by
  induction hp with
  | file => exact .file
  | @inside id p d path hd hparent hlt _ ih =>
    obtain ⟨last, hd'⟩ := h _ _ hd
    have hp : o'.Path id (path ++ [{ d with last }.spelling].filter (!·.isEmpty)) :=
      .inside hd' hparent hlt ih
    exact hp

theorem Path.extends (h : o.Extends o') {id : CursorId} {path : List String} (hp : o.Path id path) :
    o'.Path id path :=
  hp.of_drafts fun id d hd => (h.drafts id d hd).imp fun _ hlast => hlast.2

theorem Path.lt_size (hpos : 0 < o.drafts.size) {id : CursorId} {path : List String}
    (hp : o.Path id path) : id < o.drafts.size := by
  cases hp with
  | file => exact hpos
  | inside hd _ _ _ => exact (Array.getElem?_eq_some_iff.1 hd).1

/-! ## Claims -/

theorem getElem?_claim (o : Outline) (id : CursorId) (i n k : Nat) :
    (o.claim i (i + n) id).owners[k]? =
      if i ≤ k ∧ k ≤ i + n then o.owners[k]?.map (· <|> some id) else o.owners[k]? := by
  have hcount : i + n + 1 - i = n + 1 := by omega
  rw [claim, hcount, getElem?_claimFrom]
  by_cases hk : i ≤ k ∧ k ≤ i + n
  · rw [if_pos hk, if_pos (by omega)]
  · rw [if_neg hk, if_neg (by omega)]

theorem extends_claim (o : Outline) (id : CursorId) (i n : Nat) :
    o.Extends (o.claim i (i + n) id) := by
  refine ⟨fun _ d h => ⟨d.last, Nat.le_refl _, h⟩, fun k owner hk => ?_⟩
  -- the first claim stands
  rw [getElem?_claim, hk]
  split <;> rfl

theorem Ready.claim (h : o.Ready s i) (hn : i + n < s.size) (id : CursorId) :
    (o.claim i (i + n) id).Ready s (i + n + 1) where
  le := hn
  notes := h.notes
  macros := h.macros
  moduleName := h.moduleName
  pos := h.pos
  size := (size_claimFrom ..).trans h.size
  free k hk hlt := by
    rw [getElem?_claim, if_neg (by omega)]
    exact h.free k (by omega) hlt
  within id d hid hd := by
    have : d.last < i := h.within id d hid hd
    omega

/-! ## New cursors -/

section

variable {kind : CursorKind} {spelling : String} {parent : CursorId}

theorem drafts_add (o : Outline) :
    (o.add kind spelling i (i + n) parent).drafts =
      o.drafts.push ⟨kind, spelling, i, i + n, some parent⟩ := by
  have hmax : max (i + n) i = i + n := Nat.max_eq_left (Nat.le_add_right i n)
  show o.drafts.push ⟨kind, spelling, i, max (i + n) i, some parent⟩ = _
  rw [hmax]

theorem owners_add (o : Outline) :
    (o.add kind spelling i (i + n) parent).owners = (o.claim i (i + n) o.drafts.size).owners := rfl

theorem extends_add (o : Outline) : o.Extends (o.add kind spelling i (i + n) parent) := by
  refine ⟨fun id d hd => ⟨d.last, Nat.le_refl _, ?_⟩, fun k id hk => ?_⟩
  · have hlt : id < o.drafts.size := (Array.getElem?_eq_some_iff.1 hd).1
    rw [drafts_add, Array.getElem?_push_lt hlt, ← Array.getElem?_eq_getElem hlt, hd]
  · rw [owners_add]
    exact (extends_claim o o.drafts.size i n).owners k id hk

theorem Ready.add (h : o.Ready s i) (hn : i + n < s.size) :
    (o.add kind spelling i (i + n) parent).Ready s (i + n + 1) where
  le := hn
  notes := h.notes
  macros := h.macros
  moduleName := h.moduleName
  pos := by rw [drafts_add, Array.size_push]; omega
  size := (h.claim hn o.drafts.size).size
  free := (h.claim hn o.drafts.size).free
  within id d hid hd := by
    rw [drafts_add, Array.getElem?_push] at hd
    split at hd
    · cases hd; exact Nat.lt_succ_self _
    · have : d.last < i := h.within id d hid hd
      omega

/-- The new cursor. -/
theorem getElem?_add (o : Outline) :
    (o.add kind spelling i (i + n) parent).drafts[o.drafts.size]? =
      some ⟨kind, spelling, i, i + n, some parent⟩ := by
  rw [drafts_add, Array.getElem?_push_size]

theorem owner_add (h : o.Ready s i) (hn : i + n < s.size) :
    (o.add kind spelling i (i + n) parent).owners[i]? = some (some o.drafts.size) := by
  rw [owners_add, getElem?_claim, if_pos (by omega), h.free i (Nat.le_refl i) (by omega)]
  rfl

end

/-! ## Ends and scopes -/

theorem extends_reachTo (o : Outline) {id : CursorId} {last : Nat}
    (h : ∀ d, o.drafts[id]? = some d → d.last ≤ last) : o.Extends (o.reachTo id last) := by
  refine ⟨fun k d hd => ?_, fun _ _ hk => hk⟩
  simp only [reachTo, Array.getElem?_modify]
  by_cases hk : id = k
  · subst hk
    rw [if_pos rfl, hd]
    exact ⟨last, h d hd, rfl⟩
  · rw [if_neg hk, hd]
    exact ⟨d.last, Nat.le_refl _, rfl⟩

theorem Ready.reachTo (h : o.Ready s i) {id : CursorId} {last : Nat} (hlast : last < i) :
    (o.reachTo id last).Ready s i where
  le := h.le
  notes := h.notes
  macros := h.macros
  moduleName := h.moduleName
  pos := by rw [Outline.reachTo, Array.size_modify]; exact h.pos
  size := h.size
  free := h.free
  within k d hk hd := by
    simp only [Outline.reachTo, Array.getElem?_modify] at hd
    split at hd
    · obtain ⟨d', -, rfl⟩ := Option.map_eq_some_iff.1 hd
      exact hlast
    · exact h.within k d hk hd

/-- Opening a scope only adds its name. -/
theorem openScope_eq (o : Outline) (path : List String) (name : String) (id : CursorId) :
    ∃ scopes, o.openScope path name id = { o with scopes } := by
  unfold openScope
  simp only
  split
  · exact ⟨o.scopes, rfl⟩
  · exact ⟨_, rfl⟩

theorem Ready.withScopes (h : o.Ready s i) (scopes : List (String × CursorId)) :
    { o with scopes }.Ready s i :=
  ⟨h.le, h.notes, h.macros, h.moduleName, h.pos, h.size, h.free, h.within⟩

theorem Extends.withScopes (h : o.Extends o') (scopes : List (String × CursorId)) :
    o.Extends { o' with scopes } :=
  ⟨h.drafts, h.owners⟩

end Outline

namespace Printed

open Outline

/-! ## The cursors of rows -/

/-- The cursor `id` is that of a row whose line begins at lexeme `i`. -/
structure Declares (o : Outline) (i : Nat) (r : Row) (id : CursorId) (d : Draft) : Prop where
  sound : r.Sound
  owner : o.owners[i]? = some (some id)
  draft : o.drafts[id]? = some d
  kind : d.kind = r.kind
  first : d.first = i
  last : i + r.code.words.length ≤ d.last + 1
  path : ∃ p, d.parent = some p ∧ p < id ∧ o.Path p r.path

/-- All rows that are documented have their cursors, the first row beginning at lexeme `i`. -/
def Found (o : Outline) : Nat → List Row → Prop
  | _, [] => True
  | i, r :: rs =>
    (r.docs ≠ [] → ∃ id d, Declares o (i + r.docs.length) r id d) ∧
      Found o (i + r.words.length) rs

variable {s : Source} {o o' : Outline} {i : Nat} {r : Row} {rs qs : List Row}

theorem Declares.extends (h : o.Extends o') {id : CursorId} {d : Draft}
    (hd : Declares o i r id d) : ∃ d, Declares o' i r id d := by
  obtain ⟨last, hle, hdraft⟩ := h.drafts _ _ hd.draft
  have hlast := hd.last
  obtain ⟨p, hparent, hlt, hpath⟩ := hd.path
  exact ⟨{ d with last }, hd.sound, h.owners _ _ hd.owner, hdraft, hd.kind, hd.first,
    Nat.le_trans hlast (by simp only; omega), p, hparent, hlt, hpath.extends h⟩

/-- A new cursor is that of the row that it was declared for. -/
theorem declares_add (hr : r.Sound) (spelling : String) {n : Nat} {parent : CursorId}
    (ho : o.Ready s i) (hn : i + n < s.size) (hpath : o.Path parent r.path)
    (hwords : r.code.words.length = n + 1) :
    Declares (o.add r.kind spelling i (i + n) parent) i r o.drafts.size
      ⟨r.kind, spelling, i, i + n, some parent⟩ where
  sound := hr
  owner := owner_add ho hn
  draft := getElem?_add o
  kind := rfl
  first := rfl
  last := by rw [hwords]; exact Nat.le_refl _
  path := ⟨parent, rfl, hpath.lt_size ho.pos, hpath.extends (extends_add o)⟩

theorem Found.extends (h : o.Extends o') (hf : Found o i rs) : Found o' i rs := by
  induction rs generalizing i with
  | nil => trivial
  | cons r rs ih =>
    refine ⟨fun hdocs => ?_, ih hf.2⟩
    obtain ⟨id, d, hd⟩ := hf.1 hdocs
    exact ⟨id, hd.extends h⟩

theorem found_append :
    Found o i (rs ++ qs) ↔ Found o i rs ∧ Found o (i + (wordsOf rs).length) qs := by
  induction rs generalizing i with
  | nil => simp [Found]
  | cons r rs ih =>
    rw [List.cons_append, Found, Found, ih, wordsOf_cons, List.length_append, and_assoc,
      Nat.add_assoc]

/-- Whatever stands in front and behind, rows that stand within the scopes of a path, directly in
the class `record` or in none, are read through to their end. -/
def Reads (s : Source) (path : List String) (record : Option String) (rows : List Row) : Prop :=
  ∀ (o : Outline) (frames : List Frame) (i : Nat), o.Ready s i →
    o.Path (scopeOf frames).parent path → (scopeOf frames).record = record →
      s.Shows i (wordsOf rows) →
        ∃ o', readFrom s o frames i = readFrom s o' frames (i + (wordsOf rows).length) ∧
          o'.Ready s (i + (wordsOf rows).length) ∧ o.Extends o' ∧ Found o' i rows

section

variable {path : List String} {record : Option String}

theorem reads_nil : Reads s path record [] := fun o _ _ ho _ _ _ =>
  ⟨o, rfl, ho, .refl o, trivial⟩

theorem Reads.append (hrs : Reads s path record rs) (hqs : Reads s path record qs) :
    Reads s path record (rs ++ qs) := by
  intro o frames i ho hpath hrecord hs
  rw [wordsOf_append, Source.shows_append] at hs
  obtain ⟨o₁, he₁, ho₁, hx₁, hf₁⟩ := hrs o frames i ho hpath hrecord hs.1
  obtain ⟨o₂, he₂, ho₂, hx₂, hf₂⟩ :=
    hqs o₁ frames _ ho₁ (hpath.extends hx₁) hrecord hs.2
  rw [wordsOf_append, List.length_append, ← Nat.add_assoc]
  exact ⟨o₂, he₁.trans he₂, ho₂, hx₁.trans hx₂, found_append.2 ⟨hf₁.extends hx₂, hf₂⟩⟩

/-- Documentation is passed over. -/
theorem read_docs (docs : List DocText) (frames : List Frame) (ho : o.Ready s i)
    (hs : s.Shows i (docs.map DocText.word)) :
    ∃ o', readFrom s o frames i = readFrom s o' frames (i + docs.length) ∧
      o'.Ready s (i + docs.length) ∧ o.Extends o' := by
  induction docs generalizing o i with
  | nil => exact ⟨o, rfl, ho, .refl o⟩
  | cons t docs ih =>
    have hlt : i < s.size := hs.1.lt
    have hlast : i + 0 < s.size := hlt
    -- the comment goes to the scope around it
    have ho₁ : (o.claim i i (scopeOf frames).owner).Ready s (i + 1) := ho.claim hlast _
    obtain ⟨o', he, ho', hx⟩ := ih ho₁ hs.2
    have hlen : i + (t :: docs).length = i + 1 + docs.length := by rw [List.length_cons]; omega
    rw [hlen, readFrom_step frames hlt, step_comment hs.1]
    exact ⟨o', he, ho', (extends_claim o _ i 0).trans hx⟩

/-- A declaration with its documentation. -/
theorem reads_leaf (docs : List DocText) (l : Leaf) :
    Reads s path record [{ docs, code := .leaf l, kind := l.kind record, path }] := by
  intro o frames i ho hpath hrecord hs
  rw [wordsOf_cons, wordsOf_nil, List.append_nil, Row.words] at hs ⊢
  rw [Source.shows_append, List.length_map] at hs
  obtain ⟨o₁, he₁, ho₁, hx₁⟩ := read_docs docs frames ho hs.1
  have hpath₁ := hpath.extends hx₁
  have hpos : 0 < l.words.length := by cases l <;> exact Nat.succ_pos _
  have hfit := Source.le_size_of_shows hs.2 ho₁.le
  simp only [CodeLine.words] at hs hfit
  have hlast : i + docs.length + (l.words.length - 1) < s.size := by omega
  have hnext : i + docs.length + (l.words.length - 1) + 1 = i + docs.length + l.words.length := by
    omega
  rw [List.length_append, List.length_map, CodeLine.words, ← Nat.add_assoc, he₁,
    readFrom_step frames (by omega), step_leaf ho₁.macros hs.2, hrecord]
  let r : Row := { docs, code := .leaf l, kind := l.kind record, path }
  have hwords : r.code.words.length = l.words.length - 1 + 1 := by
    simp only [r, CodeLine.words]; omega
  have hrow := declares_add (sound_leaf docs l record path) l.name.text ho₁ hlast hpath₁ hwords
  refine ⟨_, rfl, ?_, hx₁.trans (extends_add o₁), fun _ => ⟨_, _, hrow⟩, trivial⟩
  simp only
  rw [← hnext]
  exact ho₁.add hlast

/-! ## Scopes -/

/-- The line closes what a line at or in front of lexeme `i` opened. -/
inductive Closes (i : Nat) : Closing → CodeLine → Prop
  | namespaces {id : CursorId} {start : Nat} (pos : 0 < id) (le : start ≤ i) :
      Closes i (.namespaces [id] start) .closeBrace
  | linkage {id : CursorId} {start : Nat} (pos : 0 < id) (le : start ≤ i) :
      Closes i (.linkage id start) .closeBrace
  | record {id : CursorId} {start : Nat} (pos : 0 < id) (le : start ≤ i) :
      Closes i (.record id start) .closeRecord

/-- A cursor that was declared in front reaches up to the closing line. -/
theorem ready_reachTo {id : CursorId} (ho : o.Ready s (i + 1)) (hid : 0 < id) :
    (o.reachTo id i).Ready s (i + 1) ∧ o.Extends (o.reachTo id i) :=
  ⟨ho.reachTo (Nat.lt_succ_self i),
    extends_reachTo o fun d hd => Nat.le_of_lt_succ (ho.within id d hid hd)⟩

theorem read_close {f : Frame} (frames : List Frame) {code : CodeLine}
    (hc : Closes i f.closing code) (ho : o.Ready s i) (hs : s.Shows i code.words) :
    ∃ o', readFrom s o (f :: frames) i = readFrom s o' frames (i + code.words.length) ∧
      o'.Ready s (i + code.words.length) ∧ o.Extends o' := by
  obtain ⟨scope, closing⟩ := f
  have hlast : ∀ {c g}, s.At i (mark c g) → i + 0 < s.size := fun h => h.lt
  have hclaim : o.Extends (o.claim i i scope.owner) := extends_claim o scope.owner i 0
  cases hc with
  | @namespaces id start hid hle =>
    have ho₁ : (o.claim i i scope.owner).Ready s (i + 1) := ho.claim (hlast hs.1) _
    obtain ⟨ho₂, hx₂⟩ := ready_reachTo ho₁ hid
    rw [readFrom_step _ hs.1.lt, step_closeBrace hs.1]
    refine ⟨(o.claim i i scope.owner).reachTo id i, ?_, ho₂, hclaim.trans hx₂⟩
    simp only [close, Nat.add_sub_cancel, List.foldl_cons, List.foldl_nil, Nat.max_eq_left hle]
    rfl
  | @linkage id start hid hle =>
    have ho₁ : (o.claim i i scope.owner).Ready s (i + 1) := ho.claim (hlast hs.1) _
    obtain ⟨ho₂, hx₂⟩ := ready_reachTo ho₁ hid
    rw [readFrom_step _ hs.1.lt, step_closeBrace hs.1]
    refine ⟨(o.claim i i scope.owner).reachTo id i, ?_, ho₂, hclaim.trans hx₂⟩
    simp only [close, Nat.add_sub_cancel, Nat.max_eq_left hle]
    rfl
  | @record id start hid hle =>
    obtain ⟨h₀, h₁, -⟩ := hs
    have hlast₁ : i + 1 + 0 < s.size := h₁.lt
    have ho₁ : (o.claim i i scope.owner).Ready s (i + 1) := ho.claim (hlast h₀) _
    have ho₂ : ((o.claim i i scope.owner).claim (i + 1) (i + 1) id).Ready s (i + 2) :=
      ho₁.claim hlast₁ _
    obtain ⟨ho₃, hx₃⟩ := ready_reachTo ho₂ hid
    have hx₂ : (o.claim i i scope.owner).Extends _ := extends_claim _ id (i + 1) 0
    have hsemicolon : s.is (i + 1) ";" = true := h₁.is_eq _
    rw [readFrom_step _ h₀.lt, step_closeBrace h₀]
    refine ⟨_, ?_, ho₃, hclaim.trans (hx₂.trans hx₃)⟩
    simp only [close, declaratorsEnd, hsemicolon, if_true, note_nil, Nat.min_self,
      Nat.max_eq_left (Nat.le_succ_of_le hle)]
    rfl

/-- A line that opens a scope is read, its documentation in front, and the scope is entered. -/
def Opens (s : Source) (path : List String) (record : Option String) (opening : Row)
    (path' : List String) (record' : Option String) (closing : CodeLine) : Prop :=
  ∀ (o : Outline) (frames : List Frame) (i : Nat), o.Ready s i →
    o.Path (scopeOf frames).parent path → (scopeOf frames).record = record →
      s.Shows i opening.words →
        ∃ o' f, readFrom s o frames i = readFrom s o' (f :: frames) (i + opening.words.length) ∧
          o'.Ready s (i + opening.words.length) ∧ o.Extends o' ∧
            (o'.Path f.scope.parent path' ∧ f.scope.record = record') ∧
              (∀ k, i + opening.words.length ≤ k → Closes k f.closing closing) ∧
                Found o' i [opening]

theorem Opens.reads {path' : List String} {record' : Option String} {opening : Row}
    {closing : CodeLine} (hopen : Opens s path record opening path' record' closing)
    (hbody : Reads s path' record' rs) :
    Reads s path record (opening :: (rs ++ [.plain closing])) := by
  intro o frames i ho hpath hrecord hs
  have hwords : wordsOf (opening :: (rs ++ [.plain closing])) =
      opening.words ++ (wordsOf rs ++ closing.words) := by
    simp [Row.plain, Row.words]
  rw [hwords] at hs ⊢
  rw [Source.shows_append, Source.shows_append] at hs
  -- the opening line, the body, the closing line
  obtain ⟨o₁, f, he₁, ho₁, hx₁, ⟨hpath₁, hrecord₁⟩, hcloses, hf₁⟩ :=
    hopen o frames i ho hpath hrecord hs.1
  obtain ⟨o₂, he₂, ho₂, hx₂, hf₂⟩ := hbody o₁ (f :: frames) _ ho₁ hpath₁ hrecord₁ hs.2.1
  obtain ⟨o₃, he₃, ho₃, hx₃⟩ :=
    read_close frames (hcloses _ (by omega)) ho₂ hs.2.2
  rw [List.length_append, List.length_append, ← Nat.add_assoc, ← Nat.add_assoc]
  refine ⟨o₃, he₁.trans (he₂.trans he₃), ho₃, hx₁.trans (hx₂.trans hx₃), ?_⟩
  exact ⟨(hf₁.extends (hx₂.trans hx₃)).1,
    found_append.2 ⟨hf₂.extends hx₃, fun h => absurd rfl h, trivial⟩⟩

/-- One step declares a cursor over the words of a line, the last one being `n` words behind the
first, and enters a scope: its own, with its name, or the one around. -/
def Enters (s : Source) (path : List String) (record : Option String) (code : CodeLine) (n : Nat)
    (kind : CursorKind) (spelling : String) (path' : List String) (record' : Option String)
    (closing : CodeLine) : Prop :=
  ∀ (o : Outline) (frames : List Frame) (i : Nat), o.macros = [] → 0 < o.drafts.size →
    (scopeOf frames).record = record → s.Shows i code.words → ∃ f scopes,
      step s o frames i =
        ⟨{ o.add kind spelling i (i + n) (scopeOf frames).parent with scopes }, f :: frames,
          i + (n + 1)⟩ ∧
        ((f.scope.parent = o.drafts.size ∧ path' = path ++ [spelling].filter (!·.isEmpty)) ∨
          (f.scope.parent = (scopeOf frames).parent ∧ path' = path)) ∧
          f.scope.record = record' ∧ ∀ k, i ≤ k → Closes k f.closing closing

/-- A line that enters a scope opens it, with its documentation in front. -/
theorem Enters.opens {path' : List String} {record' : Option String} {closing : CodeLine} {n : Nat}
    {kind : CursorKind} {spelling : String}
    (hstep : Enters s path record r.code n kind spelling path' record' closing)
    (hwords : r.code.words.length = n + 1)
    (hdocs : r.docs ≠ [] → r.Sound ∧ r.kind = kind ∧ r.path = path) :
    Opens s path record r path' record' closing := by
  intro o frames i ho hpath hrecord hs
  rw [Row.words, Source.shows_append, List.length_map] at hs
  obtain ⟨o₁, he₁, ho₁, hx₁⟩ := read_docs r.docs frames ho hs.1
  have hpath₁ := hpath.extends hx₁
  have hfit := Source.le_size_of_shows hs.2 ho₁.le
  have hlast : i + r.docs.length + n < s.size := by omega
  obtain ⟨f, scopes, hs', hparent, hrecord', hcloses⟩ :=
    hstep o₁ frames _ ho₁.macros ho₁.pos hrecord hs.2
  -- the names of scopes play no part in what follows
  obtain ⟨o₂, he₂⟩ : ∃ o₂ : Outline, o₂ =
    { o₁.add kind spelling (i + r.docs.length) (i + r.docs.length + n) (scopeOf frames).parent with
      scopes } := ⟨_, rfl⟩
  have ho₂ : o₂.Ready s (i + r.docs.length + n + 1) := by
    rw [he₂]
    exact (ho₁.add hlast).withScopes scopes
  have hx₂ : o₁.Extends o₂ := by
    rw [he₂]
    exact (extends_add o₁).withScopes scopes
  have hdraft : o₂.drafts[o₁.drafts.size]? = some
      ⟨kind, spelling, i + r.docs.length, i + r.docs.length + n, some (scopeOf frames).parent⟩ := by
    rw [he₂]
    exact getElem?_add o₁
  have howner : o₂.owners[i + r.docs.length]? = some (some o₁.drafts.size) := by
    rw [he₂]
    exact owner_add ho₁ hlast
  have hlt := hpath₁.lt_size ho₁.pos
  have hlen : i + r.words.length = i + r.docs.length + (n + 1) := by
    rw [Row.words, List.length_append, List.length_map, hwords]; omega
  rw [hlen, he₁, readFrom_step frames (by omega), hs', ← he₂]
  refine ⟨o₂, f, rfl, ho₂, hx₁.trans hx₂, ⟨?_, hrecord'⟩, fun k hk => hcloses k (by omega), ?_,
    trivial⟩
  · rcases hparent with ⟨hp, rfl⟩ | ⟨hp, rfl⟩
    · rw [hp]
      exact .inside hdraft rfl hlt (hpath₁.extends hx₂)
    · rw [hp]
      exact hpath₁.extends hx₂
  · intro h
    obtain ⟨hsound, rfl, rfl⟩ := hdocs h
    exact ⟨_, _, hsound, howner, hdraft, rfl, rfl, by simp only; omega, _, rfl, hlt,
      hpath₁.extends hx₂⟩

theorem Name.filter_text (n : Name) : [n.text].filter (!·.isEmpty) = [n.text] := by
  simp [n.text_ne_empty]

theorem enters_record (key : RecordKey) (n : Name) :
    Enters s path record (.openRecord key n) 2 key.kind n.text (path ++ [n.text]) (some n.text)
      .closeRecord := by
  intro o frames i hm hpos _ hs
  obtain ⟨scopes, he⟩ := openScope_eq (o.add key.kind n.text i (i + 2) (scopeOf frames).parent)
    (scopeOf frames).path n.text o.drafts.size
  rw [step_openRecord hm hs, he]
  exact ⟨_, scopes, rfl, .inl ⟨rfl, by rw [n.filter_text]⟩, rfl, fun k hk => .record hpos hk⟩

theorem enters_namespace_named (n : Name) :
    Enters s path record (.openNamespace (some n)) 2 .namespaceDecl n.text (path ++ [n.text]) none
      .closeBrace := by
  intro o frames i _ hpos _ hs
  obtain ⟨scopes, he⟩ := openScope_eq
    (o.add .namespaceDecl n.text i (i + 2) (scopeOf frames).parent) (scopeOf frames).path n.text
    o.drafts.size
  rw [step_openNamespace_named hs, he]
  exact ⟨_, scopes, rfl, .inl ⟨rfl, by rw [n.filter_text]⟩, rfl, fun k hk => .namespaces hpos hk⟩

theorem enters_namespace_unnamed :
    Enters s path record (.openNamespace none) 1 .namespaceDecl "" path none .closeBrace := by
  intro o frames i _ hpos _ hs
  rw [step_openNamespace_unnamed hs]
  exact ⟨_, o.scopes, rfl, .inl ⟨rfl, by simp⟩, rfl, fun k hk => .namespaces hpos hk⟩

theorem enters_linkage :
    Enters s path record .openLinkage 2 .unexposedDecl "" path record .closeBrace := by
  intro o frames i _ hpos hrecord hs
  rw [step_openLinkage hs]
  exact ⟨_, o.scopes, rfl, .inr ⟨rfl, rfl⟩, hrecord, fun k hk => .linkage hpos hk⟩

theorem opens_record (docs : List DocText) (key : RecordKey) (n : Name) :
    Opens s path record { docs, code := .openRecord key n, kind := key.kind, path }
      (path ++ [n.text]) (some n.text) .closeRecord :=
  (enters_record key n).opens rfl fun _ => ⟨sound_record docs key n path, rfl, rfl⟩

/-- A scope that is not documented. -/
theorem Enters.opens_plain {path' : List String} {record' : Option String} {code closing : CodeLine}
    {n : Nat} {kind : CursorKind} {spelling : String}
    (h : Enters s path record code n kind spelling path' record' closing)
    (hwords : code.words.length = n + 1) :
    Opens s path record (.plain code) path' record' closing :=
  Enters.opens (r := .plain code) h hwords fun hdocs => absurd rfl hdocs

/-! ## Whole trees -/

mutual

theorem reads_member (path : List String) (record : Option String) :
    ∀ m : Member, Reads s path record (m.rows path record)
  | .record docs key name body =>
    (opens_record docs key name).reads (reads_members (path ++ [name.text]) (some name.text) body)
  | .leaf first more l => reads_leaf (first :: more) l

theorem reads_members (path : List String) (record : Option String) :
    ∀ ms : List Member, Reads s path record (Member.rowsOf path record ms)
  | [] => reads_nil
  | m :: ms => (reads_member path record m).append (reads_members path record ms)

end

mutual

theorem reads_item (path : List String) : ∀ item : Item, Reads s path none (item.rows path)
  | .namespace (some name) body =>
    ((enters_namespace_named name).opens_plain rfl).reads (reads_items (path ++ [name.text]) body)
  | .namespace none body => (enters_namespace_unnamed.opens_plain rfl).reads (reads_items path body)
  | .linkage body => (enters_linkage.opens_plain rfl).reads (reads_items path body)
  | .member m => reads_member path none m

/-- **Printed items are read as what they declare.** -/
theorem reads_items (path : List String) :
    ∀ items : List Item, Reads s path none (Item.rowsOf path items)
  | [] => reads_nil
  | item :: items => (reads_item path item).append (reads_items path items)

end

theorem ready_start (fileName : String) (s : Source) : (start fileName s.size []).Ready s 0 where
  le := Nat.zero_le _
  notes := rfl
  macros := rfl
  moduleName := rfl
  pos := Nat.one_pos
  size := Array.size_replicate
  free k _ hk := by
    show (Array.replicate s.size none)[k]? = _
    rw [Array.getElem?_replicate, if_pos hk]
  within id d hid hd := by
    have hlt : id < (start fileName s.size []).drafts.size := (Array.getElem?_eq_some_iff.1 hd).1
    exact absurd hlt (Nat.not_lt.2 hid)

/-- A text that rows can be read from to its end, and nothing else, is read without trouble. -/
theorem Reads.ofSource (h : Reads s [] none rs) (hs : s.Shows 0 (wordsOf rs))
    (hsize : s.size = (wordsOf rs).length) (fileName : String) :
    (Outline.ofSource fileName [] s).Ready s s.size ∧
      Found (Outline.ofSource fileName [] s) 0 rs := by
  obtain ⟨o, he, ho, -, hf⟩ := h _ [] 0 (ready_start fileName s) .file rfl hs
  rw [Nat.zero_add, ← hsize] at he ho
  have hend : Outline.ofSource fileName [] s = o := by
    rw [Outline.ofSource, he, readFrom, if_neg (Nat.lt_irrefl _), closeAll]
  rw [hend]
  exact ⟨ho, hf⟩

end

end Printed

end DocIndex
