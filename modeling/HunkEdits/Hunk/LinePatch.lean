import HunkEdits.Hunk
import HunkEdits.Text.Line

/-!
# Patching lines

Hunks can be carried out on the raw lines of a text, with no edits in between: a kept line is copied
as it stands, a deleted one is left out, and an inserted one gets the terminator.  Where the text
has no more lines there is nothing to copy and nothing to leave out.
-/

namespace HunkEdits

/-- Carries operations out on raw lines: the raw lines they leave, and those that they do not reach.
-/
def Op.patchLines (ending : LineEnding) : List Op → List Text → List Text × List Text
  | [], raw => ([], raw)
  | op :: ops, raw =>
    match op.kind with
    | .keep =>
      let (out, rest) := patchLines ending ops (raw.drop 1)
      (raw.take 1 ++ out, rest)
    | .delete => patchLines ending ops (raw.drop 1)
    | .insert =>
      let (out, rest) := patchLines ending ops raw
      ((op.text ++ ending.text) :: out, rest)

namespace Hunk

/-- The number of lines of the old text that the operations stand for. -/
def consumed (h : Hunk) : Nat :=
  h.ops.countP fun op => op.kind.consumes

/-- The first line of the old text after the hunk. -/
def stop (h : Hunk) : Nat :=
  h.old.start + h.consumed

/-- Whether each hunk ends before the next one begins. -/
def Apart (hunks : List Hunk) : Prop :=
  hunks.Pairwise fun h k => h.stop ≤ k.old.start

instance (hunks : List Hunk) : Decidable (Apart hunks) :=
  inferInstanceAs (Decidable (List.Pairwise _ _))

/-- Carries hunks out on the raw lines that are left after the first `done`. -/
def patchFrom (ending : LineEnding) (done : Nat) : List Hunk → List Text → List Text
  | [], raw => raw
  | h :: hunks, raw =>
    let gap := h.old.start - done
    let (out, rest) := Op.patchLines ending h.ops (raw.drop gap)
    raw.take gap ++ out ++ patchFrom ending h.stop hunks rest

/-- Carries hunks, in ascending order of their first lines, out on a text. -/
def patchText (ending : LineEnding) (hunks : List Hunk) (t : Text) : Text :=
  (patchFrom ending 0 hunks (Text.rawLines t)).flatten

end Hunk

end HunkEdits
