import HunkEdits.Edit.Json
import HunkEdits.Lsp

/-!
# Editor edits as JSON

The objects that the Language Server Protocol names TextEdit and WorkspaceEdit.
-/

namespace HunkEdits.Lsp

def TextEdit.toJson (e : TextEdit) : Json :=
  .obj
    [("range".toList, .obj [("start".toList, e.start.toJson), ("end".toList, e.stop.toJson)]),
      ("newText".toList, .str e.newText)]

def listToJson (edits : List TextEdit) : Json :=
  .arr (edits.map TextEdit.toJson)

/-- A workspace edit as an object, which is empty where nothing changes. -/
def WorkspaceEdit.toJson (w : WorkspaceEdit) : Json :=
  .obj <|
    if w.changes.isEmpty then []
    else [("changes".toList, .obj (w.changes.map fun (uri, edits) => (uri, listToJson edits)))]

end HunkEdits.Lsp
