import HunkEdits.Edit.Apply
import HunkEdits.Edit.Builder
import HunkEdits.Patch

/-!
# Edits of a patch

`ofHunk` walks through the operations of one hunk with a position in the base text and a builder;
`ofHunks` does so for each hunk, in ascending order of their first lines; `ofPatch` starts from the
text of a patch.  With verification on, each kept or deleted line is compared with the line of the
base text at the position.
-/

namespace HunkEdits.Edit

variable (o : Options) (base : Document)

/-- Checks that a line of the base text is the one that an operation stands for. -/
def checkContext (p : Position) (text : Text) : Except PatchError Unit :=
  let expected := (Text.dropTail? o.lineEnding.text text).getD text
  let found := base.line? p.line
  if !o.verify || (p.character == 0 && found == some expected) then
    .ok ()
  else
    .error (.contextMismatch p.line expected found)

def step (state : Position × Builder) (op : Op) : Except PatchError (Position × Builder) := do
  let (p, b) := state
  match op.kind with
  | .keep =>
    checkContext o base p op.text
    return (p.advance o.encoding op.text, b.close)
  | .delete =>
    checkContext o base p op.text
    let after := p.advance o.encoding op.text
    return (after, ← b.delete p after)
  | .insert => return (p, b.insert p op.text)

def ofHunk (h : Hunk) : Except PatchError (List Edit) := do
  let (_, b) ← h.ops.foldlM (step o base) (Position.anchor h.old.start, {})
  return b.finish

/-- Hunks in ascending order of their first lines; those with the same first line keep their order.
-/
def inOrder (hunks : List Hunk) : List Hunk :=
  hunks.mergeSort fun h k => decide (h.old.start ≤ k.old.start)

/-- The edits of hunks whose texts carry their terminators. -/
def ofHunks (hunks : List Hunk) : Except PatchError (List Edit) := do
  return (← (inOrder hunks).mapM (ofHunk o base)).flatten

/-- The edits that a patch makes to a base text. -/
def ofPatch (text patch : Text) : Except PatchError (List Edit) := do
  let hunks ← Patch.parse patch
  ofHunks o (Document.ofText text) (hunks.map (Hunk.terminate o.lineEnding))

/-- The edits that a patch makes to a base text, and the text after them. -/
def reformat (text patch : Text) : Except PatchError (List Edit × Text) := do
  let edits ← ofPatch o text patch
  return (edits, ← apply text edits o.encoding)

end HunkEdits.Edit
