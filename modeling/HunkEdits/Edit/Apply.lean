import HunkEdits.Document
import HunkEdits.Edit
import HunkEdits.Error

/-!
# Applying edits

Edits are applied in one pass.  All positions are resolved against the text before any edit, an edit
must not begin before the previous one ends, and a range that ends before it begins is empty.
-/

namespace HunkEdits.Edit

/-- The bytes between which an edit takes out text. -/
def byteRange (d : Document) (e : Encoding) (edit : Edit) : Nat × Nat :=
  let start := d.offsetAt e edit.start
  (start, max (d.offsetAt e edit.finish) start)

/-- Applies edits to what is left of the text after its first `done` bytes. -/
def applyFrom (d : Document) (e : Encoding) (done : Nat) (rest : Text) :
    List Edit → Except PatchError Text
  | [] => .ok rest
  | edit :: edits =>
    let (start, stop) := edit.byteRange d e
    if start < done then
      .error (.overlap edit.start)
    else
      let (kept, rest) := Text.splitBytes (start - done) rest
      let (_, rest) := Text.splitBytes (stop - start) rest
      (applyFrom d e stop rest edits).map fun t => kept ++ edit.text ++ t

def apply (t : Text) (edits : List Edit) (e : Encoding) : Except PatchError Text :=
  applyFrom (Document.ofText t) e 0 t edits

end HunkEdits.Edit
