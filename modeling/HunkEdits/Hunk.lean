import HunkEdits.Options

/-!
# Hunks

A hunk says, for one stretch of lines, which lines stay, which go and which come.  Lines are counted
from zero here, so a span starts at the line that the first operation stands at.
-/

namespace HunkEdits

/-- A stretch of lines: its first line, counted from zero, and how many lines it claims to have. -/
structure LineSpan where
  start : Nat
  count : Nat
  deriving DecidableEq, Repr

inductive OpKind where
  | keep
  | delete
  | insert
  deriving DecidableEq, Repr

structure Op where
  kind : OpKind
  text : Text
  deriving DecidableEq, Repr

/-- A change of one stretch of lines. -/
structure Hunk where
  old : LineSpan
  new : LineSpan
  ops : List Op
  deriving DecidableEq, Repr

/-- Whether an operation stands for a line of the old text. -/
def OpKind.consumes : OpKind → Bool
  | keep | delete => true
  | insert => false

/-- Whether an operation stands for a line of the new text. -/
def OpKind.produces : OpKind → Bool
  | keep | insert => true
  | delete => false

namespace Hunk

/-- Whether the hunk claims to take no lines from the old text. -/
def isPureInsertion (h : Hunk) : Bool :=
  h.old.count == 0

/-- The hunk with a line terminator given back to each of its texts. -/
def terminate (ending : LineEnding) (h : Hunk) : Hunk :=
  { h with ops := h.ops.map fun op => { op with text := op.text ++ ending.text } }

end Hunk

end HunkEdits
