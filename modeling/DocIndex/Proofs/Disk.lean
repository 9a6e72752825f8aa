import DocIndex.Disk
import DocIndex.Proofs.Fallible
import Mathlib.Data.List.DropRight

/-!
# Files that were written can be read

A trail is read against a tree by the names on it, the innermost in front (`Node.at?`). Writing a file
changes the nodes on the way to it, but every directory stays a directory, so that a path leads to
the same place before and behind.

* `Trail.Grows` — the trail is a way through a tree.
* `Keeps` — every directory of one tree is a directory of another one.
* `write_eq_ok` — when a file can be written; its bytes do not matter (`Writable.write`).
* `read_of_write` — **what was written is read back.**
-/

namespace DocIndex

namespace Node

/-- The node that is reached from a node by some names, the last one in front. -/
def at? (root : Node) : List String → Option Node
  | [] => some root
  | name :: up => (root.at? up).bind (child? name)

theorem at?_append (root : Node) (names up : List String) :
    root.at? (names ++ up) = (root.at? up).bind (·.at? names) := by
  induction names with
  | nil => exact (Option.bind_fun_some _).symm
  | cons name names ih =>
    rw [List.cons_append, at?, ih, Option.bind_assoc]
    rfl

/-- There is a directory at the end of some names. -/
def DirectoryAt (root : Node) (names : List String) : Prop :=
  ∃ n, root.at? names = some n ∧ n.isDirectory = true

/-- Every directory of `n` is one of `n'`, too. -/
def Keeps (n n' : Node) : Prop :=
  ∀ names, n.DirectoryAt names → n'.DirectoryAt names

variable {name : String} {n n' : Node}

theorem isDirectory_of_child? {c : Node} (h : n.child? name = some c) : n.isDirectory = true := by
  cases n with
  | file => cases h
  | directory => rfl

theorem find?_putEntry (entries : List (String × Node)) (other : String) :
    (putEntry name n entries).find? (fun e => e.1 == other) =
      if name = other then some (name, n) else entries.find? fun e => e.1 == other := by
  induction entries with
  | nil =>
    rw [putEntry, List.find?_cons]
    by_cases ho : name = other
    · rw [if_pos ho, beq_iff_eq.2 ho]
    · rw [if_neg ho, beq_eq_false_iff_ne.2 ho]
  | cons e entries ih =>
    rw [putEntry]
    by_cases he : e.1 = name
    · subst he
      rw [if_pos BEq.rfl, List.find?_cons, List.find?_cons]
      by_cases ho : e.1 = other
      · rw [if_pos ho, beq_iff_eq.2 ho]
      · rw [if_neg ho, beq_eq_false_iff_ne.2 ho]
    · rw [if_neg (by simpa using he), List.find?_cons, List.find?_cons, ih]
      by_cases ho : name = other
      · subst ho
        rw [beq_eq_false_iff_ne.2 he, if_pos rfl]
      · rw [if_neg ho, if_neg ho]

/-- What stands for a name behind a change. -/
theorem child?_put (hd : n.isDirectory = true) (other : String) :
    (n.put name n').child? other = if name = other then some n' else n.child? other := by
  cases n with
  | file => cases hd
  | directory entries =>
    rw [put, child?, find?_putEntry, child?]
    split <;> rfl

theorem isDirectory_put : (n.put name n').isDirectory = n.isDirectory := by
  cases n <;> rfl

/-- A change to one name keeps all directories, if what stood for it had none or they are kept. -/
theorem keeps_put (hd : n.isDirectory = true) (h : ∀ c, n.child? name = some c → Keeps c n') :
    Keeps n (n.put name n') := by
  intro names hnames
  obtain ⟨m, hm, hdir⟩ := hnames
  rcases List.eq_nil_or_concat names with rfl | ⟨rest, other, rfl⟩
  · exact ⟨_, rfl, isDirectory_put.trans hd⟩
  · have hsingle (n : Node) : n.at? [other] = n.child? other := rfl
    rw [List.concat_eq_append, at?_append, hsingle] at hm
    obtain ⟨c, hc, hrest⟩ := Option.bind_eq_some_iff.1 hm
    rw [List.concat_eq_append, DirectoryAt, at?_append, hsingle, child?_put hd]
    by_cases ho : name = other
    · subst ho
      rw [if_pos rfl, Option.bind_some]
      exact h c hc rest ⟨m, hrest, hdir⟩
    · rw [if_neg ho, hc, Option.bind_some]
      exact ⟨m, hrest, hdir⟩

/-- Nothing lies below a file. -/
theorem at?_file {bytes : List UInt8} {now : Timestamp} {names : List String} {m : Node}
    (h : (file bytes now).at? names = some m) : m = file bytes now := by
  induction names generalizing m with
  | nil => exact (Option.some.inj h).symm
  | cons name names ih =>
    obtain ⟨c, hc, hm⟩ := Option.bind_eq_some_iff.1 h
    rw [ih hc] at hm
    cases hm

/-- A file that is put where there is no directory keeps all directories. -/
theorem keeps_put_file (bytes : List UInt8) (now : Timestamp) (hd : n.isDirectory = true)
    (h : ∀ entries, n.child? name ≠ some (directory entries)) :
    Keeps n (n.put name (file bytes now)) := by
  refine keeps_put hd fun c hc names hnames => ?_
  cases c with
  | directory entries => exact absurd hc (h entries)
  | file b m =>
    obtain ⟨m, hm, hdir⟩ := hnames
    rw [at?_file hm] at hdir
    cases hdir

end Node

namespace Trail

open Node

/-- The trail is a way through the tree, from its root on. -/
inductive Grows (root : Node) : Trail → Prop
  | top (name : String) : Grows root [(name, root)]
  | step {e : String × Node} {t : Trail} {name : String} {n : Node} (h : Grows root (e :: t))
    (hc : e.2.child? name = some n) : Grows root ((name, n) :: e :: t)

/-- The names on the way from the root, the last one in front. -/
def way (t : Trail) : List String :=
  (t.map Prod.fst).dropLast

variable {root : Node} {t : Trail}

theorem Grows.at?_way (h : Grows root t) : root.at? t.way = some t.node := by
  induction h with
  | top name => rfl
  | @step e t name n h hc ih =>
    rw [way, List.map_cons, List.map_cons, List.dropLast_cons_cons, at?]
    rw [way, List.map_cons] at ih
    rw [ih, Option.bind_some]
    exact hc

/-- What is found in the tree with another node at the end of a trail, from there on. -/
theorem Grows.at?_rebuild (h : Grows root t) (n : Node) (names : List String) :
    (t.rebuild n).at? (names ++ t.way) = n.at? names := by
  induction h generalizing n names with
  | top name =>
    rw [rebuild, way, List.map_singleton, List.dropLast_singleton, List.append_nil]
  | @step e t name c h hc ih =>
    have hput := ih (e.2.put name n) (names ++ [name])
    rw [List.append_assoc, List.singleton_append] at hput
    rw [rebuild, way, List.map_cons, List.map_cons, List.dropLast_cons_cons]
    rw [way, List.map_cons] at hput
    have hsingle : (e.2.put name n).at? [name] = (e.2.put name n).child? name := rfl
    rw [hput, at?_append, hsingle, child?_put (isDirectory_of_child? hc), if_pos rfl,
      Option.bind_some]

/-- All directories are kept if those at the end of the trail are. -/
theorem Grows.keeps_rebuild (h : Grows root t) {n : Node} (hn : Keeps t.node n) :
    Keeps root (t.rebuild n) := by
  induction h generalizing n with
  | top name => exact hn
  | @step e t name c h hc ih =>
    refine ih (keeps_put (isDirectory_of_child? hc) fun c' hc' => ?_)
    have he : some c = some c' := hc.symm.trans hc'
    cases he
    exact hn

/-! ## Walking through both trees -/

variable {root' : Node} {t' s : Trail}

theorem isDirectory_of_step {piece : String} (h : t.step piece = .ok s) :
    t.node.isDirectory = true := by
  unfold step at h
  split at h
  · cases h
  · rename_i hd
    simpa using hd

/-- The same way through both trees. -/
structure Alike (root root' : Node) (t t' : Trail) : Prop where
  grows : Grows root t
  grows' : Grows root' t'
  way_eq : t'.way = t.way

theorem Grows.way_cons (h : Grows root t) {name : String} {n : Node} :
    way ((name, n) :: t) = name :: way t := by
  cases h <;> rfl

theorem Grows.child (h : Grows root t) {name : String} {n : Node}
    (hc : t.node.child? name = some n) : Grows root ((name, n) :: t) := by
  cases h with
  | top name => exact .step (.top name) hc
  | step h hc' => exact .step (.step h hc') hc

theorem Alike.length_eq (h : Alike root root' t t') : t'.length = t.length := by
  have hlen := congrArg List.length h.way_eq
  have pos {root : Node} {t : Trail} (h : Grows root t) : 0 < t.length := by
    cases h <;> exact Nat.succ_pos _
  have h₁ := pos h.grows
  have h₂ := pos h.grows'
  rw [way, way, List.length_dropLast, List.length_dropLast, List.length_map,
    List.length_map] at hlen
  omega

theorem Alike.drop_one (h : Alike root root' t t') (hl : ¬t.length ≤ 1) :
    Alike root root' (t.drop 1) (t'.drop 1) := by
  have hl' : ¬t'.length ≤ 1 := h.length_eq ▸ hl
  have hway := h.way_eq
  cases h.grows with
  | top name => exact absurd (Nat.le_refl 1) hl
  | step hg hc =>
    cases h.grows' with
    | top name => exact absurd (Nat.le_refl 1) hl'
    | step hg' hc' =>
      rw [hg.way_cons, hg'.way_cons] at hway
      exact ⟨hg, hg', (List.cons.inj hway).2⟩

/-- A step to a directory leads to the same place in a tree that keeps all directories. -/
theorem Alike.step (h : Alike root root' t t') (hk : Keeps root root') {piece : String}
    (hs : t.step piece = .ok s) (hd : s.node.isDirectory = true) :
    ∃ s', t'.step piece = .ok s' ∧ Alike root root' s s' := by
  have kept {t t' : Trail} (h : Alike root root' t t') (hd : t.node.isDirectory = true) :
      t'.node.isDirectory = true := by
    obtain ⟨n, hn, hdir⟩ := hk _ ⟨_, h.grows.at?_way, hd⟩
    rw [← h.way_eq, h.grows'.at?_way] at hn
    cases hn
    exact hdir
  have hdir := isDirectory_of_step hs
  unfold Trail.step at hs ⊢
  rw [hdir] at hs
  rw [kept h hdir]
  simp only [Bool.not_true, Bool.false_eq_true, if_false] at hs ⊢
  by_cases hdot : (piece.isEmpty || piece == ".") = true
  · rw [if_pos hdot] at hs ⊢
    cases hs
    exact ⟨t', rfl, h⟩
  rw [if_neg hdot] at hs ⊢
  by_cases hup : (piece == "..") = true
  · rw [if_pos hup] at hs ⊢
    cases hs
    refine ⟨_, rfl, ?_⟩
    rw [h.length_eq]
    split
    · exact h
    · exact h.drop_one ‹_›
  rw [if_neg hup] at hs ⊢
  cases hc : t.node.child? piece with
  | none =>
    rw [hc] at hs
    cases hs
  | some n =>
    rw [hc] at hs
    cases hs
    have hs : Grows root ((piece, n) :: t) := h.grows.child hc
    obtain ⟨n', hn', -⟩ := hk _ ⟨_, hs.at?_way, hd⟩
    rw [h.grows.way_cons, at?, ← h.way_eq, h.grows'.at?_way, Option.bind_some] at hn'
    rw [hn']
    refine ⟨_, rfl, hs, h.grows'.child hn', ?_⟩
    rw [h.grows.way_cons, h.grows'.way_cons, h.way_eq]

/-- A walk that ends at a directory passes directories alone. -/
theorem isDirectory_of_walk {pieces : List String} (h : Disk.walk t pieces = .ok s)
    (hd : s.node.isDirectory = true) : t.node.isDirectory = true := by
  cases pieces with
  | nil =>
    cases h
    exact hd
  | cons piece pieces =>
    obtain ⟨u, hu, -⟩ := Fallible.foldlM_cons_eq_ok.1 h
    exact isDirectory_of_step hu

/-- So does a walk. -/
theorem Alike.walk (h : Alike root root' t t') (hk : Keeps root root') {pieces : List String}
    (hs : Disk.walk t pieces = .ok s) (hd : s.node.isDirectory = true) :
    ∃ s', Disk.walk t' pieces = .ok s' ∧ Alike root root' s s' := by
  unfold Disk.walk at hs ⊢
  induction pieces generalizing t t' with
  | nil =>
    cases hs
    exact ⟨t', rfl, h⟩
  | cons piece pieces ih =>
    obtain ⟨u, hu, hs⟩ := Fallible.foldlM_cons_eq_ok.1 hs
    obtain ⟨u', hu', h'⟩ := h.step hk hu (isDirectory_of_walk hs hd)
    obtain ⟨s', hs', h''⟩ := ih h' hs
    exact ⟨s', Fallible.foldlM_cons_eq_ok.2 ⟨u', hu', hs'⟩, h''⟩

end Trail

namespace Disk

open Node Trail

/-- A path that starts from a directory starts from the same place in a tree that keeps all
directories. -/
theorem alike_start {d : Disk} (d' : Disk) (hk : Keeps d.root d'.root)
    (hc : d'.current = d.current) {p : Path} {t : Trail} (h : d.start p = .ok t)
    (hd : t.node.isDirectory = true) :
    ∃ t', d'.start p = .ok t' ∧ Alike d.root d'.root t t' := by
  have htop : Alike d.root d'.root d.top d'.top := ⟨.top _, .top _, rfl⟩
  unfold start at h ⊢
  by_cases hempty : p.text.isEmpty = true
  · rw [if_pos hempty] at h
    cases h
  rw [if_neg hempty] at h ⊢
  by_cases habs : p.isAbsolute = true
  · rw [if_pos habs] at h ⊢
    cases h
    exact ⟨_, rfl, htop⟩
  rw [if_neg habs] at h ⊢
  rw [hc]
  exact htop.walk hk h hd

/-- When a file can be written, and the tree behind that. -/
theorem write_eq_ok {d d' : Disk} {p : Path} {bytes : List UInt8} {now : Timestamp} :
    d.write p bytes now = .ok d' ↔
      ∃ name start above, (bareStretches p).getLast? = some name ∧ d.start p = .ok start ∧
        walk start (bareStretches p).dropLast = .ok above ∧ above.node.isDirectory = true ∧
          ((name ≠ "." ∧ name ≠ "..") ∧ p.stretches.length ≤ (bareStretches p).length) ∧
            (∀ entries, above.node.child? name ≠ some (directory entries)) ∧
              { d with root := Trail.rebuild (above.node.put name (.file bytes now)) above } =
                d' := by
  have hguard (name : String) : (name == "." || name == ".." ||
      decide ((bareStretches p).length < p.stretches.length)) = true ↔
        ¬((name ≠ "." ∧ name ≠ "..") ∧ p.stretches.length ≤ (bareStretches p).length) := by
    simp only [Bool.or_eq_true, beq_iff_eq, decide_eq_true_eq]
    by_cases h₁ : name = "." <;> by_cases h₂ : name = ".." <;> simp [h₁, h₂]
  unfold write
  dsimp only
  constructor
  · intro h
    split at h
    · cases h
    rename_i name hname
    obtain ⟨start, hstart, h⟩ := Fallible.bind_eq_ok.1 h
    obtain ⟨above, habove, h⟩ := Fallible.bind_eq_ok.1 h
    split at h
    · cases h
    rename_i hdir
    split at h
    · cases h
    rename_i hplain
    split at h
    · cases h
    rename_i hfile
    cases h
    rw [hguard, not_not] at hplain
    exact ⟨name, start, above, hname, hstart, habove, by simpa using hdir, hplain, hfile, rfl⟩
  · rintro ⟨name, start, above, hname, hstart, habove, hdir, hplain, hfile, rfl⟩
    rw [hname]
    refine Fallible.bind_eq_ok.2 ⟨start, hstart, Fallible.bind_eq_ok.2 ⟨above, habove, ?_⟩⟩
    rw [if_neg (by simp [hdir]), if_neg (by rw [hguard, not_not]; exact hplain)]
    split
    · exact absurd ‹_› (hfile _)
    · rfl

/-- A file can be written at the path. -/
def Writable (d : Disk) (p : Path) : Prop :=
  ∃ bytes now d', d.write p bytes now = .ok d'

/-- Where one file can be written, any can. -/
theorem Writable.write {d : Disk} {p : Path} (h : d.Writable p) (bytes : List UInt8)
    (now : Timestamp) : ∃ d', d.write p bytes now = .ok d' := by
  obtain ⟨bytes', now', d', h⟩ := h
  obtain ⟨name, start, above, hname, hstart, habove, hdir, hplain, hfile, -⟩ := write_eq_ok.1 h
  exact ⟨_, write_eq_ok.2
    ⟨name, start, above, hname, hstart, habove, hdir, hplain, hfile, rfl⟩⟩

/-- **What was written is read back.** -/
theorem read_of_write {d d' : Disk} {p : Path} {bytes : List UInt8} {now : Timestamp}
    (h : d.write p bytes now = .ok d') : d'.read p = .ok bytes := by
  obtain ⟨name, start, above, hname, hstart, habove, hdir, ⟨⟨hdot, hup⟩, hlength⟩, hfile, rfl⟩ :=
    write_eq_ok.1 h
  -- nothing is left out of the path, and its last piece is a name
  have hfront : bareStretches p <+: p.stretches := List.rdropWhile_prefix _ _
  have hstretches : bareStretches p = p.stretches := hfront.eq_of_length_le hlength
  have hpieces : p.stretches = (bareStretches p).dropLast ++ [name] := by
    rw [← hstretches, List.dropLast_append_getLast?]
    exact hname
  have hnonempty : ¬name.isEmpty = true := by
    obtain ⟨hne, rfl⟩ := List.mem_getLast?_eq_getLast hname
    exact List.rdropWhile_last_not _ _ hne
  have hkeeps := keeps_put_file bytes now hdir hfile
  have hstarts := isDirectory_of_walk habove hdir
  have hgrows : Grows d.root above := by
    obtain ⟨_, -, halike⟩ := alike_start d (fun _ h => h) rfl hstart hstarts
    obtain ⟨_, -, halike⟩ := halike.walk (fun _ h => h) habove hdir
    exact halike.grows
  have hroot := hgrows.keeps_rebuild hkeeps
  obtain ⟨start', hs', halike⟩ := alike_start
    ({ d with root := Trail.rebuild (above.node.put name (.file bytes now)) above })
    hroot rfl hstart hstarts
  obtain ⟨above', ha', halike'⟩ := halike.walk hroot habove hdir
  have hnode : above'.node = above.node.put name (.file bytes now) := by
    have hat := hgrows.at?_rebuild (above.node.put name (.file bytes now)) []
    have hat' := halike'.grows'.at?_way
    rw [halike'.way_eq] at hat'
    rw [List.nil_append] at hat
    exact Option.some.inj (hat'.symm.trans hat)
  have hchild : above'.node.child? name = some (.file bytes now) := by
    rw [hnode, child?_put hdir, if_pos rfl]
  have hstep : above'.step name = .ok ((name, .file bytes now) :: above') := by
    have hdot' : ¬(name.isEmpty || name == ".") = true := by
      simpa using ⟨by simpa using hnonempty, hdot⟩
    rw [Trail.step, isDirectory_of_child? hchild]
    simp only [Bool.not_true, Bool.false_eq_true, if_false, if_neg hdot', beq_iff_eq, if_neg hup,
      hchild]
  have hlocate :
      locate { d with root := Trail.rebuild (above.node.put name (.file bytes now)) above } p =
        .ok ((name, .file bytes now) :: above') := by
    rw [locate, hs', hpieces]
    refine Fallible.bind_eq_ok.2 ⟨start', rfl, ?_⟩
    unfold walk
    rw [List.foldlM_append]
    refine Fallible.bind_eq_ok.2 ⟨above', ha', ?_⟩
    exact Fallible.foldlM_cons_eq_ok.2 ⟨_, hstep, rfl⟩
  rw [read, hlocate]
  rfl

end Disk

end DocIndex
