import HunkEdits.Edit.Apply

/-!
# Splicing edits

Edits that do not overlap can be made one at a time, from the last one to the first: no edit moves
the text before it, so the bytes of the earlier ones are still where they were.
-/

namespace HunkEdits

/-- A text with what lies between two bytes replaced. -/
def Text.splice (start stop : Nat) (new t : Text) : Text :=
  (Text.splitBytes start t).1 ++ new ++ (Text.splitBytes stop t).2

namespace Edit

/-- Makes an edit in a text whose bytes up to the end of the edit are those of the document. -/
def splice (d : Document) (e : Encoding) (edit : Edit) (t : Text) : Text :=
  let (start, stop) := edit.byteRange d e
  Text.splice start stop edit.text t

/-- Makes edits from the last one to the first. -/
def spliceAll (d : Document) (e : Encoding) (edits : List Edit) (t : Text) : Text :=
  edits.foldr (splice d e) t

end Edit

end HunkEdits
