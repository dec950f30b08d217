import HunkEdits.Position

/-!
# Edits

An edit replaces a range of a document by a text.  Ranges are given in the positions of the document
before any edit is made.  Insertions have an empty range at their start, whatever end they carry.
-/

namespace HunkEdits

inductive Action where
  | delete
  | insert
  | replace
  deriving DecidableEq, Repr

/-- A change of one range of a document. -/
structure Edit where
  action : Action
  start : Position
  stop : Option Position
  text : Text
  deriving DecidableEq, Repr

namespace Edit

def delete (start stop : Position) : Edit :=
  ⟨.delete, start, some stop, []⟩

/-- The edit that puts a text in at a position. -/
def insert (start : Position) (text : Text) : Edit :=
  ⟨.insert, start, none, text⟩

/-- The edit that puts a text in the place of a range. -/
def replace (start stop : Position) (text : Text) : Edit :=
  ⟨.replace, start, some stop, text⟩

/-- The end of the range that the edit takes out: its start where nothing else is said. -/
def finish (e : Edit) : Position :=
  match e.action with
  | .insert => e.start
  | .delete | .replace => e.stop.getD e.start

def range (e : Edit) : Position × Position :=
  (e.start, e.finish)

end Edit

end HunkEdits
