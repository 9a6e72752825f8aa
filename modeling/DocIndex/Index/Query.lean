import DocIndex.Index.Basic
import DocIndex.Text.EditDistance

/-!
# Looking things up

* `Index.query` — the comment that documents something or, if there is none, the most similar
  signatures that are documented in the same context.
* `Index.lookup` — the same on behalf of a document, which then rests on the comment's file.
-/

namespace DocIndex

open Std (TreeMap)

/-- What can be chosen about suggestions. -/
structure QueryOptions where
  /-- The largest number of suggestions. -/
  maxSuggestions : Nat
  /-- The least similarity of a suggestion. -/
  cutoff : Float
  deriving Repr, Inhabited

/-- A signature that is documented, and how similar it is to the one that was looked for. -/
structure Suggestion where
  signature : String
  similarity : Float
  comment : Comment
  deriving Repr, Inhabited

namespace Suggestion

/-- The rank of a similarity. Similarities are not negative, so that their bits are in order. -/
def rank (s : Suggestion) : Nat :=
  s.similarity.toBits.toNat

/-- The suggestion `a` may stand before `b`: it is more similar, or as similar and its signature
does not come later. -/
def le (a b : Suggestion) : Bool :=
  b.rank < a.rank || (a.rank == b.rank && (compare a.signature b.signature).isLE)

end Suggestion

/-- What a look-up leads to. -/
inductive Answer
  | found (comment : Comment)
  | missed (suggestions : List Suggestion)
  deriving Repr, Inhabited

namespace Answer

/-- The comment, if there is one. -/
def comment? : Answer → Option Comment
  | found c => some c
  | missed _ => none

/-- The suggestions; a comment goes without. -/
def suggestions : Answer → List Suggestion
  | found _ => []
  | missed ss => ss

end Answer

/-- The signatures of a bucket that are similar enough to `signature`. -/
def similarEntries (options : QueryOptions) (signature : String) (bucket : TreeMap String Comment) :
    List Suggestion :=
  (bucket.toList.map fun (candidate, comment) =>
      { signature := candidate
        similarity := Text.similarity signature candidate
        comment := comment : Suggestion }).filter
    -- no similarity reaches a cutoff that is not a number
    fun s => options.cutoff ≤ s.similarity

/-- The suggestions for `signature`, the most similar ones first. -/
def suggest (options : QueryOptions) (signature : String) (bucket : TreeMap String Comment) :
    List Suggestion :=
  ((similarEntries options signature bucket).mergeSort Suggestion.le).take options.maxSuggestions

namespace Index

variable (x : Index)

/-- Looks up the comment that documents `signature`. -/
def query (options : QueryOptions) (context : DocContext) (signature : String) : Answer :=
  match x.find? context signature with
  | some c => .found c
  | none => .missed (suggest options signature (x.buckets.getD context ∅))

/-- Looks up a comment on behalf of a document. -/
def lookup (options : QueryOptions) (document : String) (context : DocContext)
    (signature : String) : Index × Answer :=
  let answer := x.query options context signature
  match answer.comment? with
  | some c => (x.record document c.file, answer)
  | none => (x, answer)

end Index

end DocIndex
