import HunkEdits.Patch

/-!
# Printing patches

A hunk is printed as its header and a line for each operation, which begins with the mark of its
kind; a patch is printed as its file headers, if it has any, and its hunks.
-/

namespace HunkEdits

def OpKind.mark : OpKind → Char
  | keep => ' '
  | delete => '-'
  | insert => '+'

def Op.line (op : Op) : Text :=
  op.kind.mark :: op.text

namespace Hunk

def lines (h : Hunk) : List Text :=
  h.header.write :: h.ops.map Op.line

end Hunk

namespace Patch

def fileHeader (names : Text × Text) : List Text :=
  [oldFileMark ++ [' '] ++ names.1, newFileMark ++ [' '] ++ names.2]

def joinLines (ending : LineEnding) (ls : List Text) : Text :=
  ls.flatMap fun l => l ++ ending.text

/-- Hunks as a patch, with the names of the files if they are known. -/
def write (ending : LineEnding) (names : Option (Text × Text)) (hunks : List Hunk) : Text :=
  joinLines ending ((names.map fileHeader).getD [] ++ hunks.flatMap Hunk.lines)

end Patch

end HunkEdits
