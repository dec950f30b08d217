import HunkEdits.Edit
import HunkEdits.Hunk

/-!
# Runs of changes

Kept lines cut the operations of a hunk into runs of deletions and insertions.  A run is one change:
it takes out as many lines as it deletes, from the line it stands at, and puts its inserted texts
there.
-/

namespace HunkEdits

/-- Deletions and insertions with no kept line between them. -/
structure Run where
  /-- The line of the old text that the run stands at. -/
  line : Nat
  deleted : Nat
  inserted : List Text
  deriving DecidableEq, Repr

namespace Run

/-- The run of operations that stand at a line. -/
def ofOps (line : Nat) (ops : List Op) : Run where
  line := line
  deleted := ops.countP fun op => op.kind == .delete
  inserted := (ops.filter fun op => op.kind == .insert).map Op.text

def edit (r : Run) : Edit :=
  if r.inserted.isEmpty then .delete (.ofLine r.line) (.ofLine (r.line + r.deleted))
  else if r.deleted = 0 then .insert (.ofLine r.line) r.inserted.flatten
  else .replace (.ofLine r.line) (.ofLine (r.line + r.deleted)) r.inserted.flatten

/-- The runs among stretches of operations that a kept line parts from each other; the first stretch
stands at `line`. -/
def ofStretches (line : Nat) : List (List Op) → List Run
  | [] => []
  | ops :: stretches =>
    let r := ofOps line ops
    (if ops.isEmpty then [] else [r]) ++ ofStretches (line + r.deleted + 1) stretches

end Run

def Hunk.runs (h : Hunk) : List Run :=
  Run.ofStretches h.old.start (h.ops.splitOnP fun op => op.kind == .keep)

end HunkEdits
