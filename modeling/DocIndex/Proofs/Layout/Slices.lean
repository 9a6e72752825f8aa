import DocIndex.Proofs.Comment.Reworded
import DocIndex.Proofs.Layout.Standing

/-!
# The tokens of a cursor

The own tokens of a cursor are cut out between two offsets, each found by halving. That leaves the
tokens that start within its extent, whatever that is, if the tokens are in order. Those of a text
that was read always are; and what is cut out for a cursor is then what its draft reaches over, from
the first lexeme up to and with the last, since no lexeme starts before another one ends.

* `SourceUnit.tokenRange_le` — the range is one of the unit, in order or not.
* `SourceUnit.ordered_parseText` — the tokens of a text are in order.
* `SourceUnit.tokensOf_draft` — **a cursor has the tokens that its draft reaches over.**
-/

namespace DocIndex

namespace SourceUnit

/-- The tokens of a cursor are a stretch of those of the unit, even where they are not in order. -/
theorem tokenRange_le (u : SourceUnit) (id : CursorId) :
    (u.tokenRange id).1 ≤ (u.tokenRange id).2 ∧ (u.tokenRange id).2 ≤ u.tokens.size :=
  ⟨Nat.le_max_left _ _, Nat.max_le.2 ⟨boundary_le _ _, boundary_le _ _⟩⟩

/-- The tokens of a text are in order of where they start. -/
theorem ordered_parseText (path : Path) (cs : List Char) (args : List String) :
    (parseText path cs args).Ordered := by
  have hapart : Apart (parseText path cs args).tokens.toList :=
    Source.apart_tokens (Source.ordered_ofText cs)
  refine hapart.2.imp_of_mem fun {t v} ht _ hbehind => ?_
  exact Nat.le_trans (Nat.le_of_lt (hapart.1 t ht)) hbehind

/-- The file reaches over the whole text. -/
theorem extent_file {s : Source} {path : Path} {faults : List (Nat × LexFault)} {o : Outline}
    (h : 0 < o.drafts.size) : ((s.unitOf path faults o).cursor 0).extent = s.extent := by
  have hsize : 0 < (s.unitOf path faults o).cursors.size := by rwa [Printed.size_cursors]
  have hget := Array.getElem?_eq_getElem hsize
  rw [cursor, Array.getD_eq_getD_getElem?, hget, Option.getD_some]
  exact Source.extent_of_zero hget

variable {path : Path} {cs : List Char} {args : List String} {id : CursorId} {d : Draft}

/-- The range of a cursor that is drafted within the text. -/
theorem tokenRange_draft
    (hd : (Outline.ofSource path.text (Macros.ofArguments args) (.ofText cs)).drafts[id]? = some d)
    (hfirst : d.first < (parseText path cs args).tokens.size)
    (hlast : d.last < (parseText path cs args).tokens.size) :
    (parseText path cs args).tokenRange id = (d.first, max d.first (d.last + 1)) := by
  have hs := Source.ordered_ofText cs
  have hsize : (parseText path cs args).tokens.size = (Source.ofText cs).size := Array.size_mapIdx
  rw [hsize] at hfirst hlast
  rcases Nat.eq_zero_or_pos id with rfl | hpos
  · -- the file reaches over the whole text, and so does its draft
    have hextent : ((parseText path cs args).cursor 0).extent = (Source.ofText cs).extent :=
      extent_file (Array.getElem?_eq_some_iff.1 hd).1
    obtain rfl := Option.some.inj ((Outline.file_ofSource ..).symm.trans hd)
    refine (Source.tokenRange_of_extent hs hextent).trans ?_
    rw [Nat.zero_max, Nat.sub_add_cancel hfirst]
  · have hextent : ((parseText path cs args).cursor id).extent =
        (Source.ofText cs).extentOf d.first d.last :=
      congrArg Cursor.extent (Printed.cursor_eq hd hpos)
    exact (Source.tokenRange_unitOf hs hextent).trans (if_pos ⟨hfirst, hlast⟩)

/-- **A cursor has the tokens that its draft reaches over.** -/
theorem tokensOf_draft
    (hd : (Outline.ofSource path.text (Macros.ofArguments args) (.ofText cs)).drafts[id]? = some d)
    (hfirst : d.first < (parseText path cs args).tokens.size)
    (hlast : d.last < (parseText path cs args).tokens.size) :
    (parseText path cs args).tokensOf id =
      ((parseText path cs args).tokens.toList.take (d.last + 1)).drop d.first := by
  rw [tokensOf, tokenRange_draft hd hfirst hlast, Array.toList_extract, List.extract_eq_take_drop,
    List.drop_take]
  congr 1
  omega

/-- **What is cut out for a cursor is what starts within its extent.** If the tokens of a unit are
in order, these are the ones from the start of the extent up to its end, be it empty, the wrong way
round or beyond all tokens. The tokens of every text that is read are in order; and whatever is
drafted within the text gets its lexemes from the first up to and with the last. -/
theorem tokensOf_sliced :
    (∀ (u : SourceUnit) (id : CursorId),
      (u.tokenRange id).1 ≤ (u.tokenRange id).2 ∧ (u.tokenRange id).2 ≤ u.tokens.size ∧
        (u.Ordered → u.tokensOf id = u.tokens.toList.filter fun t =>
          (u.cursor id).extent.start.offset ≤ t.extent.start.offset ∧
            t.extent.start.offset < (u.cursor id).extent.stop.offset)) ∧
    ∀ (path : Path) (cs : List Char) (args : List String),
      (parseText path cs args).Ordered ∧
        ∀ (id : CursorId) (d : Draft),
          (Outline.ofSource path.text (Macros.ofArguments args) (.ofText cs)).drafts[id]? = some d →
          d.first < (parseText path cs args).tokens.size →
          d.last < (parseText path cs args).tokens.size →
            (parseText path cs args).tokensOf id =
              ((parseText path cs args).tokens.toList.take (d.last + 1)).drop d.first := by
  refine ⟨fun u id => ⟨(u.tokenRange_le id).1, (u.tokenRange_le id).2, fun h => ?_⟩,
    fun path cs args => ⟨ordered_parseText path cs args, fun id d => tokensOf_draft⟩⟩
  rw [tokensOf_eq_filter h]
  congr 1
  funext t
  exact (Bool.decide_and ..).symm

/-- The tokens of `int a; int b;`, in a file that reaches from the second `int` back to `a`. -/
def backwards : SourceUnit :=
  { parseText ⟨"n.h"⟩ "int a; int b;".toList [] with
    cursors := #[⟨.wholeFile, "n.h", ⟨⟨1, 8, 7⟩, ⟨1, 5, 4⟩⟩, none⟩] }

/-- In `int a; int b;` the second declaration gets the last three lexemes; and nothing is cut out
from the second `int` back to `a`. -/
theorem tokensOf_sliced_second :
    ((parseText ⟨"n.h"⟩ "int a; int b;".toList []).tokensOf 2).map Token.spelling =
      ["int", "b", ";"] ∧
    backwards.Ordered ∧ backwards.tokensOf 0 = [] := by
  have hordered : backwards.Ordered := ordered_parseText ..
  have hslice := (tokensOf_sliced.2 ⟨"n.h"⟩ "int a; int b;".toList []).2 2
    ⟨.varDecl, "b", 3, 5, some 0⟩ (by decide +kernel) (by decide +kernel) (by decide +kernel)
  refine ⟨?_, hordered, ?_⟩
  · rw [hslice]
    decide +kernel
  · rw [(tokensOf_sliced.1 backwards 0).2.2 hordered]
    decide +kernel

end SourceUnit

end DocIndex
