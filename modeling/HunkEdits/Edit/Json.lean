import HunkEdits.Edit
import HunkEdits.Json.Reader

/-!
# Edits as JSON

An edit is an object with its action, its start, its end if it has one, and its text.
-/

namespace HunkEdits

open Json

def Position.toJson (p : Position) : Json :=
  .obj [("line".toList, .nat p.line), ("character".toList, .nat p.character)]

def Position.ofJson? (v : Json) : Option Position := do
  match ← fields? ["line".toList, "character".toList] v with
  | [some line, some character] => return ⟨← line.nat?, ← character.nat?⟩
  | _ => none

def Action.name : Action → Text
  | delete => "delete".toList
  | insert => "insert".toList
  | replace => "replace".toList

def Action.ofName? (t : Text) : Option Action :=
  [delete, insert, replace].find? fun a => a.name == t

namespace Edit

def toJson (e : Edit) : Json :=
  .obj <|
    [("action".toList, .str e.action.name), ("start".toList, e.start.toJson)] ++
      (e.stop.map fun p => ("end".toList, p.toJson)).toList ++
      [("text".toList, .str e.text)]

/-- Reads the end of an edit, which may be missing or null. -/
def stopOfJson? : Option Json → Option (Option Position)
  | none | some .null => some none
  | some v => (Position.ofJson? v).map some

def ofJson? (v : Json) : Option Edit := do
  match ← fields? ["action".toList, "start".toList, "end".toList, "text".toList] v with
  | [some action, some start, stop, some text] =>
    return {
      action := ← Action.ofName? (← action.choice?)
      start := ← Position.ofJson? start
      stop := ← stopOfJson? stop
      text := ← text.str? }
  | _ => none

def listToJson (edits : List Edit) : Json :=
  .arr (edits.map toJson)

def parseList? (t : Text) : Option (List Edit) := do
  (← (← Json.parse? t).items?).mapM ofJson?

end Edit

end HunkEdits
