import HunkEdits.Edit

/-!
# Edits for editors

The Language Server Protocol knows one kind of edit, a range and the text to put there, and has
32-bit coordinates.  Larger coordinates become the largest one.  A workspace edit gathers the edits
of documents by their URI; with no edits it is empty.
-/

namespace HunkEdits.Lsp

def coordinateLimit : Nat := 4294967295

/-- A position with both coordinates brought into 32 bits. -/
def saturate (p : Position) : Position :=
  ⟨min p.line coordinateLimit, min p.character coordinateLimit⟩

/-- A range of a document and the text to put there. -/
structure TextEdit where
  start : Position
  stop : Position
  newText : Text
  deriving DecidableEq, Repr

structure WorkspaceEdit where
  changes : List (Text × List TextEdit)
  deriving DecidableEq, Repr

namespace TextEdit

/-- An edit as editors take it: deletions put nothing in. -/
def ofEdit (e : Edit) : TextEdit :=
  { start := saturate e.start
    stop := saturate e.finish
    newText := if e.action = .delete then [] else e.text }

def toEdit (e : TextEdit) : Edit :=
  .replace e.start e.stop e.newText

end TextEdit

def textEdits (edits : List Edit) : List TextEdit :=
  edits.map TextEdit.ofEdit

def workspaceEdit (edits : List Edit) (uri : Text) : WorkspaceEdit :=
  ⟨if edits.isEmpty then [] else [(uri, textEdits edits)]⟩

end HunkEdits.Lsp
