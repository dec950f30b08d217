import HunkEdits.Error
import HunkEdits.Hunk.Header
import HunkEdits.Text.Line

/-!
# Patches

A patch is a text in the unified format.  It may open with the two file headers; then come hunks,
each a header and the lines of its body.  Lines that start with a backslash are remarks and empty
body lines are ignored.

`parse` reads a patch into its hunks.  Every line is read on its own by `classify`, so the error of
a patch is that of its first line that cannot be read.
-/

namespace HunkEdits.Patch

open Text

/-- A line of a patch with its number, counted from one. -/
structure Line where
  number : Nat
  text : Text
  deriving DecidableEq, Repr

/-- What a line stands for once the first hunk has begun. -/
inductive BodyLine where
  | blank
  | header (h : Header)
  | op (op : Op)
  deriving DecidableEq, Repr

/-- How the name of the old file is introduced. -/
def oldFileMark : Text := ['-', '-', '-']

/-- How the name of the new file is introduced. -/
def newFileMark : Text := ['+', '+', '+']

def remarkMark : Text := ['\\']

def hunkMark : Text := ['@', '@']

def numberedLines (patch : Text) : List Line :=
  ((lines patch).zipIdx 1).map fun (text, number) => ⟨number, text⟩

/-! ### Which lines take part -/

/-- Whether a line may stand in a patch that has no hunk. -/
def isPreamble (l : Line) : Bool :=
  l.text.all isBlank || startsWith oldFileMark l.text || startsWith newFileMark l.text ||
    startsWith remarkMark l.text

/-- Whether a line starts as a hunk header does. -/
def opensHunk (l : Line) : Bool :=
  startsWith hunkMark l.text

/-- The lines that belong to hunks.  What stands before the first hunk is passed over after a file
header; if no hunk follows the file header, nothing but preamble is allowed. -/
def hunkLines (patch : Text) : Except PatchError (List Line) :=
  let all := numberedLines patch
  let significant := List.filter fun l => !startsWith remarkMark l.text
  if startsWith oldFileMark patch then
    if all.any opensHunk then
      .ok (significant (all.dropWhile fun l => !opensHunk l))
    else
      match all.find? fun l => !isPreamble l with
      | some stray => .error (.expectedHeader stray.number stray.text)
      | none => .ok []
  else
    .ok (significant all)

/-! ### Reading lines -/

/-- Reads a line that has to be a hunk header. -/
def readHeader (l : Line) : Except PatchError Header :=
  match Header.parse? l.text with
  | some h => .ok h
  | none => .error (.expectedHeader l.number l.text)

/-- Reads a line that comes after the first hunk header. -/
def classify (l : Line) : Except PatchError BodyLine :=
  match l.text with
  | [] => .ok .blank
  | '@' :: _ => (readHeader l).map .header
  | '-' :: t => .ok (.op ⟨.delete, t⟩)
  | '+' :: t => .ok (.op ⟨.insert, t⟩)
  | ' ' :: t => .ok (.op ⟨.keep, t⟩)
  | c :: _ => .error (.unknownMode l.number c l.text)

/-- Puts a line before what follows it: the operations up to the next header, and the hunks from
there on. -/
def BodyLine.add : BodyLine → List Op × List Hunk → List Op × List Hunk
  | blank, rest => rest
  | header h, (ops, hunks) => ([], ⟨h.old, h.new, ops⟩ :: hunks)
  | op o, (ops, hunks) => (o :: ops, hunks)

/-- The hunks that a first header and the lines after it make up. -/
def hunksOf (h : Header) (body : List BodyLine) : List Hunk :=
  ((BodyLine.header h).add (body.foldr BodyLine.add ([], []))).2

/-- Reads lines of which the first has to be a hunk header. -/
def readHunks : List Line → Except PatchError (List Hunk)
  | [] => .ok []
  | l :: ls => do
    let h ← readHeader l
    let body ← ls.mapM classify
    return hunksOf h body

def parse (patch : Text) : Except PatchError (List Hunk) := do
  readHunks (← hunkLines patch)

end HunkEdits.Patch
