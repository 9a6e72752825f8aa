import DocIndex.Error
import DocIndex.Total
import Std.Data.TreeSet.Basic

/-!
# The index

An `Index` knows the comments of all files of a project, by file, by what they document, and by the
scope that they belong to. It also remembers which documents rest on which files.

* `Index.add` — takes a file in, all of it or nothing.
* `Index.remove` — drops a file, and tells which documents rested on it.
* `Index.find?` — the comment that documents something.
* `Index.record`, `Index.forget`, `Index.adoptReferences` — which documents rest on which files.
* `Index.defer`, `Index.releasePending` — documents still to be told.

Every comment that documents something stands once in `buckets` and once in `scopes`; a bucket or a
scope without comments is not kept.
-/

namespace DocIndex

open Std (TreeMap TreeSet)

/-- A scope: the namespaces and classes around a declaration, and the module. -/
structure DocScope where
  namespacePath : String
  moduleName : String
  deriving DecidableEq, Repr, Inhabited

namespace DocScope

/-- Scopes are ordered by namespace, then by module. -/
instance : Ord DocScope :=
  ⟨compareLex (compareOn namespacePath) (compareOn moduleName)⟩

instance : Std.TransOrd DocScope :=
  inferInstanceAs (Std.TransCmp (compareLex (compareOn namespacePath) (compareOn moduleName)))

instance : Std.LawfulEqOrd DocScope where
  eq_of_compare {a b} h := by
    obtain ⟨hn, hm⟩ := Ordering.then_eq_eq.1 h
    have hn : a.namespacePath = b.namespacePath := Std.LawfulEqOrd.eq_of_compare hn
    have hm : a.moduleName = b.moduleName := Std.LawfulEqOrd.eq_of_compare hm
    cases a; cases b
    simp_all

end DocScope

/-- What is documented within a scope. -/
structure Member where
  directive : Directive
  signature : String
  deriving DecidableEq, Repr, Inhabited

namespace Member

/-- Members are ordered by directive, then by signature. -/
instance : Ord Member :=
  ⟨compareLex (compareOn directive) (compareOn signature)⟩

instance : Std.TransOrd Member :=
  inferInstanceAs (Std.TransCmp (compareLex (compareOn directive) (compareOn signature)))

instance : Std.LawfulEqOrd Member where
  eq_of_compare {a b} h := by
    obtain ⟨hd, hs⟩ := Ordering.then_eq_eq.1 h
    have hd : a.directive = b.directive := Std.LawfulEqOrd.eq_of_compare hd
    have hs : a.signature = b.signature := Std.LawfulEqOrd.eq_of_compare hs
    cases a; cases b
    simp_all

end Member

/-- The scope of a context. -/
def DocContext.scope (c : DocContext) : DocScope :=
  { namespacePath := c.namespacePath, moduleName := c.moduleName }

/-- What a comment documents, within its scope. -/
def DirectiveComment.member (d : DirectiveComment) : Member :=
  { directive := d.context.directive, signature := d.signature }

/-- Documents, by name. -/
abbrev Documents := TreeSet String

/-- The comments of one scope. -/
abbrev Members := TreeMap Member Comment

/-- Everything known of a project's comments. -/
structure Index where
  /-- What each file holds. -/
  files : TreeMap Path FileComments := ∅
  /-- The comments by what they document. -/
  buckets : TreeMap DocContext (TreeMap String Comment) := ∅
  /-- The comments by the scope that they belong to. -/
  scopes : TreeMap DocScope Members := ∅
  /-- The files that each document rests on. -/
  references : TreeMap String (TreeSet Path) := ∅
  /-- The documents still to be told that a file of theirs has changed. -/
  pending : Documents := ∅

namespace Index

/-- The index of no files. -/
def empty : Index :=
  {}

instance : Inhabited Index :=
  ⟨empty⟩

variable (x : Index)

/-- What the file at a path holds. -/
def file? (path : Path) : Option FileComments :=
  x.files[path]?

/-- The comment that documents `signature`. -/
def find? (context : DocContext) (signature : String) : Option Comment :=
  x.buckets[context]?.bind fun bucket => bucket[signature]?

/-- The comments of a scope, if it has any. -/
def members? (scope : DocScope) : Option Members :=
  x.scopes[scope]?

/-- The number of things that are documented. -/
def size : Nat :=
  total (x.buckets.values.map TreeMap.size)

/-- Nothing is indexed. -/
def isEmpty : Bool :=
  x.files.isEmpty && x.buckets.isEmpty && x.scopes.isEmpty

/-! ## Files -/

/-- A map with one more entry in the part `outer`. -/
def insertAt {α β γ : Type} [Ord α] [Ord β] (m : TreeMap α (TreeMap β γ)) (outer : α) (inner : β)
    (c : γ) : TreeMap α (TreeMap β γ) :=
  m.alter outer fun part => some ((part.getD ∅).insert inner c)

/-- A map without the entry `c` of the part `outer`. Where something else stands, it stays; a part
without entries is not kept. -/
def eraseAt {α β γ : Type} [Ord α] [Ord β] [DecidableEq γ] (m : TreeMap α (TreeMap β γ)) (outer : α)
    (inner : β) (c : γ) : TreeMap α (TreeMap β γ) :=
  m.alter outer fun part =>
    part.bind fun part =>
      let rest := if part[inner]? = some c then part.erase inner else part
      if rest.isEmpty then none else some rest

/-- The index with one more comment. What it documents must not be documented yet. -/
def insert (d : DirectiveComment) : Except Error Index :=
  match x.find? d.context d.signature with
  | some existing =>
    .error (.duplicate d.context d.signature existing.location d.comment.location)
  | none =>
    .ok
      { x with
        buckets := insertAt x.buckets d.context d.signature d.comment
        scopes := insertAt x.scopes d.context.scope d.member d.comment }

/-- The index without a comment. -/
def erase (d : DirectiveComment) : Index :=
  { x with
    buckets := eraseAt x.buckets d.context d.signature d.comment
    scopes := eraseAt x.scopes d.context.scope d.member d.comment }

/-- The index with one more file. It fails where the file is in the index, or where one of its
comments documents what another comment documents, be it of the same file. -/
def add (path : Path) (content : FileComments) : Except Error Index :=
  if x.files.contains path then .error (.alreadyIndexed path)
  else do
    let y ← content.directiveComments.foldlM insert x
    return { y with files := y.files.insert path content }

/-- The documents that rest on the file at a path. -/
def documentsOn (path : Path) : Documents :=
  x.references.foldl
    (fun found document paths => if paths.contains path then found.insert document else found) ∅

/-- The index without a file, and the documents that rested on it. -/
def remove (path : Path) : Index × Documents :=
  match x.file? path with
  | none => (x, ∅)
  | some content =>
    (content.directiveComments.foldl erase { x with files := x.files.erase path },
      x.documentsOn path)

/-! ## Documents -/

/-- The documents of both sets. -/
def joinSets {α : Type} [Ord α] (s t : TreeSet α) : TreeSet α :=
  t.foldl TreeSet.insert s

/-- The index that holds back more documents. -/
def defer (documents : Documents) : Index :=
  { x with pending := joinSets x.pending documents }

/-- The index that holds nothing back, and the documents it held back. -/
def releasePending : Index × Documents :=
  ({ x with pending := ∅ }, x.pending)

/-- The index in which `document` rests on more files. -/
def refer (document : String) (paths : TreeSet Path) : Index :=
  { x with
    references := x.references.alter document fun old => some (joinSets (old.getD ∅) paths) }

/-- The index in which `document` rests on the file at `path`, too. -/
def record (document : String) (path : Path) : Index :=
  x.refer document (TreeSet.empty.insert path)

/-- The index in which `document` rests on nothing. -/
def forget (document : String) : Index :=
  { x with references := x.references.erase document }

/-- The index in which each document of a list rests on what it rests on in `other`, too. -/
def adoptReferences (documents : List String) (other : Index) : Index :=
  documents.foldl
    (fun x document =>
      match other.references[document]? with
      | none => x
      | some paths => x.refer document paths)
    x

end Index

end DocIndex
