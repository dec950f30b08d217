import HunkEdits.Position

/-!
# Options

How a patch is turned into edits: the terminator given back to its lines, the unit of columns, and
whether its lines are compared with the text they claim to come from.
-/

namespace HunkEdits

inductive LineEnding where
  | lf
  | crlf
  | native
  deriving DecidableEq, Repr

def LineEnding.text : LineEnding → Text
  | .lf => ['\n']
  | .crlf => ['\r', '\n']
  | .native => ['\n']

/-- How a patch is turned into edits. -/
structure Options where
  lineEnding : LineEnding := .native
  encoding : Encoding := .utf16
  /-- Whether kept and deleted lines must be those of the base text. -/
  verify : Bool := false
  deriving DecidableEq, Repr

end HunkEdits
