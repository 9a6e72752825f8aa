import DocIndex.Proofs.Body.Replaced
import DocIndex.Proofs.Commented.Text

/-!
# Bodies of functions

What a text declares does not tell of what the body of a function holds, as long as no declaration
around the body looks into it (`SourceUnit.faces_body`). Two do: the head of a class in front of the
body is looked through to the end of its template arguments, wherever that is, and what qualifies a
name behind the body is looked for backwards, past the beginning of its declaration
(`SourceUnit.faces_qualifiedBehind`).

* `Reading.OpensBody` — a function is read next whose body is known, and ends with its body
  (`Reading.OpensBody.declares`).
* `Reading.Unseen` — nothing around the body looks into it.
* `Outline.ofSource_body` — the same is recognised.
-/

namespace DocIndex

/-- Nothing has been read of a text. -/
def Reading.first (name : String) (macros : Macros) (s : Source) : Reading :=
  ⟨.start name s.size macros, [], 0⟩

/-- A function is read next, and the brace at `k` opens its body. -/
structure Reading.OpensBody (s : Source) (r : Reading) (k : Nat) : Prop where
  starts : Outline.startsDeclaration s r.next = true
  body : ∃ j, (r.lead s).plainAt? s r.next = some j ∧
    s.body? (r.lead s).outline.macros j = some k

/-- No declaration that is read from `r` on looks at what is between the braces. -/
structure Reading.Unseen (s : Source) (r : Reading) (opening closing : Nat) : Prop where
  /-- The heads of classes in front of the body end there. -/
  heads : ∀ r₁, Outline.Comes s r r₁ → r₁.next < opening →
    Outline.startsDeclaration s r₁.next = true →
      (r₁.lead s).announced? s r₁.next = some .record → (r₁.lead s).headEnd s r₁.next < opening
  /-- The names of functions and variables behind the body are qualified there. -/
  names : ∀ r₁, Outline.Comes s r r₁ → closing < r₁.next →
    Outline.startsDeclaration s r₁.next = true → ∀ j ∈ (r₁.lead s).plainAt? s r₁.next,
      ∀ n ∈ (s.shape (r₁.lead s).outline.macros j).name, closing ≤ s.qualifierReach (s.nameStart n)

theorem Reading.OpensBody.lt {s : Source} {r : Reading} {k : Nat} (hr : r.OpensBody s k) :
    r.next < k := by
  obtain ⟨j, hplain, hbody⟩ := hr.body
  obtain ⟨-, -, hjk, -⟩ := Source.bodyFrom_of_body? hbody
  have hle := r.le_lead s
  have hj := Lead.le_of_plainAt? hplain
  omega

/-- **The function that is recognised ends with its body**: it is the last cursor so far, begins
where it is read, and reaches to the brace that closes the body. -/
theorem Reading.OpensBody.declares {s : Source} {r : Reading} {k : Nat} (hr : r.OpensBody s k) :
    ∃ d, (Outline.step s r.outline r.frames r.next).outline.drafts.back? = some d ∧
      Category.ofKind d.kind = .function ∧ d.first = r.next ∧ d.last = s.groupEnd k := by
  obtain ⟨j, hplain, hbody⟩ := hr.body
  obtain ⟨st, hfrom, -, -⟩ := Source.bodyFrom_of_body? hbody
  obtain ⟨hshape, -, hk, hopens⟩ := Source.shapeFrom_bodyFrom hfrom
  obtain ⟨-, -, -, -, hfunction, -⟩ := Source.opensBody_iff.1 hopens
  obtain ⟨n, hname⟩ := Option.isSome_iff_exists.1
    (Source.isNamed_bodyFrom (fun hempty => Bool.noConfusion hempty) hfrom hfunction)
  have hlast : max (s.groupEnd k) r.next = s.groupEnd k :=
    Nat.max_eq_left (Nat.le_trans (Nat.le_of_lt hr.lt) (Source.le_groupEnd hk))
  have hkind (d : Shape) (record : Option String) (templated : Bool) (name : String) :
      Category.ofKind (Outline.functionKind d record templated name) = .function := by
    unfold Outline.functionKind
    (repeat' split) <;> rfl
  obtain ⟨notes, hplainRead⟩ := Lead.read_plainAt (Outline.scopeOf r.frames) hplain
  have hshape : s.shape (r.lead s).outline.macros j =
      (st.note (s.groupNotes k)).finishBody (s.groupEnd k) := hshape
  rw [Outline.step_lead hr.starts, hplainRead, Outline.readPlain_eq]
  simp only [Outline.done, Outline.note, hshape]
  simp only [Outline.declarePlain, ShapeState.finishBody, ShapeState.note, Shape.note, hname,
    hfunction, if_true, Outline.add, Outline.claim, Outline.declare, Array.back?_push, hlast]
  exact ⟨_, rfl, hkind .., rfl, rfl⟩

namespace Outline

open HasBody

variable {s : Source} {r r' r₁ r₂ : Reading} {name : String} {macros : Macros}

theorem Comes.trans (h : Comes s r r₁) (h' : Comes s r₁ r₂) : Comes s r r₂ := by
  induction h with
  | refl => exact h'
  | step hlt _ ih => exact .step hlt (ih h')

/-- Nothing has been recognised yet, whatever the size of the text. -/
theorem start_resized {w : Window} (hw : w.relaid = false) (name : String) (macros : Macros)
    (size size' : Nat) : (start name size macros).Matches w (start name size' macros) := by
  have hrelaid {p : Prop} (h : w.relaid = true) : p := by
    rw [hw] at h
    cases h
  refine ⟨rfl, fun {id d d'} hd hd' => ?_, hrelaid, rfl, rfl, rfl, hrelaid⟩
  obtain rfl : id = 0 := Nat.lt_one_iff.1 (Array.getElem?_eq_some_iff.1 hd).1
  cases (hd : some _ = some d)
  cases (hd' : some _ = some d')
  exact ⟨rfl, fun _ => rfl, rfl, hrelaid, hrelaid⟩

/-- Outlines that match declare the same. -/
theorem Matches.faces {w : Window} {o o' : Outline} (h : o.Matches w o') (hw : w.relaid = false) :
    o'.drafts.map Draft.face = o.drafts.map Draft.face := by
  refine Array.ext_getElem? fun id => ?_
  rw [Array.getElem?_map, Array.getElem?_map]
  cases hd : o.drafts[id]? with
  | none => rw [(h.draft_none id).2 hd]
  | some d =>
    cases hd' : o'.drafts[id]? with
    | none =>
      rw [(h.draft_none id).1 hd'] at hd
      cases hd
    | some d' =>
      have hdraft := h.draft hd hd'
      simp only [Option.map_some, Draft.face, hdraft.kind, hdraft.spelling (.inl hw), hdraft.parent]

/-- What holds of a reading and of all that the next step comes to holds of all it comes to. -/
theorem comes_all {p : Reading → Prop} (hr : p r)
    (hstep : r.next < s.size → ∀ r₁, Comes s (step s r.outline r.frames r.next) r₁ → p r₁) :
    ∀ r₁, Comes s r r₁ → p r₁ := by
  intro r₁ hcomes
  cases hcomes with
  | refl => exact hr
  | step hlt hcomes => exact hstep hlt r₁ hcomes

variable {cs cs' : List Char} {front body body' back : List Stretch}
  (h : HasBody cs front body back) (h' : HasBody cs' front body' back)

include h h'

/-- Reading comes to the function in front of the other body as well. -/
theorem comes_body (hcomes : Comes (.ofText cs) (.first name macros (.ofText cs)) r)
    (hr : r.OpensBody (.ofText cs) (opening front))
    (hunseen : Reading.Unseen (.ofText cs) (.first name macros (.ofText cs)) (opening front)
      (closing front body)) :
    ∃ r', r.Matches (.upTo (opening front)) r' ∧
      Comes (.ofText cs') (.first name macros (.ofText cs')) r' := by
  have hstart : (Reading.first name macros (.ofText cs)).Matches (.upTo (opening front))
      (Reading.first name macros (.ofText cs')) :=
    ⟨start_resized rfl .., .nil, rfl⟩
  apply comes_moved (h.agrees_upTo h') hcomes hstart (.inr rfl) hr.lt
  intro r₁ hto hfrom hlt
  refine ⟨fun hstarts => ?_, fun _ _ _ _ _ => Nat.zero_le _⟩
  -- what is read in front of the function ends in front of it
  have hnext : (step (.ofText cs) r₁.outline r₁.frames r₁.next).next < opening front := by
    cases hfrom with
    | refl => exact absurd hlt (Nat.lt_irrefl _)
    | step _ hfrom => exact Nat.lt_of_le_of_lt (le_of_comes hfrom) hr.lt
  exact headEnd_lt (Source.wellSpelled_ofText cs) hstarts h.is_opening hnext
    (hunseen.heads r₁ hto (Nat.lt_trans hlt hr.lt) hstarts)

/-- The function is recognised with the other body as well, and reading goes on behind it. -/
theorem step_replaced (hr : r.OpensBody (.ofText cs) (opening front))
    (hrecord : (r.lead (.ofText cs)).announced? (.ofText cs) r.next = some .record →
      (r.lead (.ofText cs)).headEnd (.ofText cs) r.next < opening front)
    (hr' : r.Matches (.upTo (opening front)) r') :
    (step (.ofText cs) r.outline r.frames r.next).Matches
        (.startingAt (closing front body) (closing front body') (closing_pos ..) (closing_pos ..))
        (step (.ofText cs') r'.outline r'.frames r'.next) ∧
      (step (.ofText cs) r.outline r.frames r.next).next = closing front body + 1 := by
  obtain ⟨j, hplain, hbody⟩ := hr.body
  have hhead := headEnd_lt_body (Source.wellSpelled_ofText cs) hplain hbody hrecord
  obtain ⟨t, ht, hkind, -⟩ := h.getElem?_opening
  have hkind : (Source.ofText cs).kind? (opening front) = some .punctuation := by
    rw [Source.kind?, ht, Option.map_some, hkind]
  -- in both texts reading goes on behind the closing brace
  have hend : (Source.ofText cs').groupEnd ((Window.upTo (opening front)).moved (opening front)) +
      1 = (Window.startingAt (closing front body) (closing front body') (closing_pos ..)
        (closing_pos ..)).moved ((Source.ofText cs).groupEnd (opening front) + 1) := by
    rw [Window.moved_upTo, h.groupEnd_opening, h'.groupEnd_opening, Window.moved_startingAt]
  have hstep := step_body (h.agrees_upTo h') rfl rfl hr' (.inr rfl) hr.starts hplain hbody hkind
    (Nat.le_refl _) hhead (fun _ _ => Nat.zero_le _) hend
  rwa [h.groupEnd_opening] at hstep

/-- **The same is recognised whatever the body holds**, if nothing around it looks into it. -/
theorem ofSource_body (hcomes : Comes (.ofText cs) (.first name macros (.ofText cs)) r)
    (hr : r.OpensBody (.ofText cs) (opening front))
    (hunseen : Reading.Unseen (.ofText cs) (.first name macros (.ofText cs)) (opening front)
      (closing front body)) :
    (ofSource name macros (.ofText cs)).Matches
      (.startingAt (closing front body) (closing front body') (closing_pos ..) (closing_pos ..))
      (ofSource name macros (.ofText cs')) := by
  obtain ⟨r', hr', hcomes'⟩ := comes_body h h' hcomes hr hunseen
  obtain ⟨hstep, hnext⟩ := step_replaced h h' hr (hunseen.heads r hcomes hr.lt hr.starts) hr'
  have hsize : r.next < (Source.ofText cs).size :=
    Nat.lt_trans hr.lt (Source.lt_size_of_is h.is_opening)
  have hsize' : r'.next < (Source.ofText cs').size := by
    rw [hr'.next]
    exact Nat.lt_trans hr.lt (Source.lt_size_of_is h'.is_opening)
  have hafter : closing front body < (step (.ofText cs) r.outline r.frames r.next).next := by
    rw [hnext]
    exact Nat.lt_succ_self _
  have hread : ofSource name macros (.ofText cs) = _ :=
    (readFrom_comes hcomes).trans (readFrom_step _ hsize)
  have hread' : ofSource name macros (.ofText cs') = _ :=
    (readFrom_comes hcomes').trans (readFrom_step _ hsize')
  rw [hread, hread']
  -- behind the body no name is qualified by what stands in front of the closing brace
  apply readFrom_moved (h.agrees_startingAt h') hstep (.inl hafter) fun _ => trivial
  intro r₁ hto _
  exact ⟨fun _ => trivial, hunseen.names r₁ (hcomes.trans (.step hsize hto))
    (Nat.lt_of_lt_of_le hafter (le_of_comes hto))⟩

end Outline

namespace SourceUnit

open Outline HasBody

/-- **What a text declares does not tell of what the body of a function holds**, if nothing around
the body looks into it. -/
theorem faces_body (path : Path) (args : List String) {cs cs' : List Char}
    {front body body' back : List Stretch} (h : HasBody cs front body back)
    (h' : HasBody cs' front body' back) {r : Reading}
    (hcomes : Comes (.ofText cs)
      (.first path.text (Macros.ofArguments args) (.ofText cs)) r)
    (hr : r.OpensBody (.ofText cs) (opening front))
    (hunseen : Reading.Unseen (.ofText cs)
      (.first path.text (Macros.ofArguments args) (.ofText cs)) (opening front)
      (closing front body)) :
    (parseText path cs' args).faces = (parseText path cs args).faces ∧
      (parseText path cs' args).moduleName = (parseText path cs args).moduleName := by
  have hmatches := ofSource_body h h' hcomes hr hunseen
  refine ⟨?_, hmatches.moduleName⟩
  rw [parseText, parseText, faces_unitOf, faces_unitOf]
  exact congrArg Array.toList (hmatches.faces rfl)

/-- A function with a body, and a variable behind it. -/
def functionText (body : String) : List Char :=
  ("int f() \x7b" ++ body ++ "\x7d\nint y;\n").toList

/-- The body may be replaced by one that declares a class, defines a macro and leaves parentheses
open. -/
theorem faces_openParens :
    (parseText ⟨"t.hxx"⟩ (functionText "\n#define y z\nstruct T \x7b\x7d; (( //\n") []).faces =
        (parseText ⟨"t.hxx"⟩ (functionText "\nreturn 1;\n") []).faces ∧
      (parseText ⟨"t.hxx"⟩ (functionText "\n#define y z\nstruct T \x7b\x7d; (( //\n")
          []).moduleName =
        (parseText ⟨"t.hxx"⟩ (functionText "\nreturn 1;\n") []).moduleName := by
  have h : HasBody (functionText "\nreturn 1;\n") (Lexer.stretches "int f() ".toList)
      (Lexer.stretches "\nreturn 1;\n".toList) (Lexer.stretches "\nint y;\n".toList) :=
    ⟨by decide +kernel, by decide +kernel⟩
  have h' : HasBody (functionText "\n#define y z\nstruct T \x7b\x7d; (( //\n")
      (Lexer.stretches "int f() ".toList)
      (Lexer.stretches "\n#define y z\nstruct T \x7b\x7d; (( //\n".toList)
      (Lexer.stretches "\nint y;\n".toList) :=
    ⟨by decide +kernel, by decide +kernel⟩
  refine faces_body ⟨"t.hxx"⟩ [] h h' (.refl _)
    ⟨by decide +kernel, 0, by decide +kernel, by decide +kernel⟩ ⟨?_, ?_⟩
  -- the function is read first, and the variable behind it; then the text ends
  · refine comes_all ?_ fun _ => comes_all ?_ fun _ => comes_all ?_ fun hlt => ?_
    · decide +kernel
    · decide +kernel
    · decide +kernel
    · exact absurd hlt (by decide +kernel)
  · refine comes_all ?_ fun _ => comes_all ?_ fun _ => comes_all ?_ fun hlt => ?_
    · decide +kernel
    · decide +kernel
    · decide +kernel
    · exact absurd hlt (by decide +kernel)

/-- A function with a body, and behind it a variable of a specialisation. -/
def specialisedText (body : String) : List Char :=
  ("struct S \x7b\x7d;\nint f(int S) \x7b" ++ body ++
    "\x7d\ntemplate <> int A<(1 > 0)>::x;\n").toList

/-- **A variable behind a function may be qualified by what the function returns**: the template
arguments in front of the `::` are looked for backwards, past the beginning of the declaration. -/
theorem faces_qualifiedBehind : ∃ (front body body' back : List Stretch) (r : Reading),
    HasBody (specialisedText "\nreturn 0;\n") front body back ∧
      HasBody (specialisedText "\nreturn S < 3;\n") front body' back ∧
      Comes (.ofText (specialisedText "\nreturn 0;\n"))
        (.first "t.hxx" [] (.ofText (specialisedText "\nreturn 0;\n"))) r ∧
      r.OpensBody (.ofText (specialisedText "\nreturn 0;\n")) (opening front) ∧
      (parseText ⟨"t.hxx"⟩ (specialisedText "\nreturn 0;\n") []).faces =
        [⟨.wholeFile, "t.hxx", none⟩, ⟨.structDecl, "S", some 0⟩, ⟨.functionDecl, "f", some 0⟩,
          ⟨.varDecl, "x", some 0⟩] ∧
      (parseText ⟨"t.hxx"⟩ (specialisedText "\nreturn S < 3;\n") []).faces =
        [⟨.wholeFile, "t.hxx", none⟩, ⟨.structDecl, "S", some 0⟩, ⟨.functionDecl, "f", some 0⟩,
          ⟨.varDecl, "x", some 1⟩] := by
  -- reading comes to the function behind the two braces of the class
  refine ⟨Lexer.stretches "struct S \x7b\x7d;\nint f(int S) ".toList,
    Lexer.stretches "\nreturn 0;\n".toList, Lexer.stretches "\nreturn S < 3;\n".toList,
    Lexer.stretches "\ntemplate <> int A<(1 > 0)>::x;\n".toList, _, ?_, ?_,
    .step (by decide +kernel) (.step (by decide +kernel) (.refl _)), ?_, ?_, ?_⟩
  · exact ⟨by decide +kernel, by decide +kernel⟩
  · exact ⟨by decide +kernel, by decide +kernel⟩
  · exact ⟨by decide +kernel, 5, by decide +kernel, by decide +kernel⟩
  · decide +kernel
  · decide +kernel

end SourceUnit

end DocIndex
