import HunkEdits.Position
import HunkEdits.Text.Decimal
import HunkEdits.Text.Quoted

/-!
# Errors

What can be wrong with a patch, with the order of its operations, or with the edits made from it.
Each cause is a constructor; `PatchError.message` words it.
-/

namespace HunkEdits

open Text

/-- Why a patch cannot be turned into edits, or edits cannot be applied. -/
inductive PatchError where
  /-- The line with this number, counted from one, should be a hunk header. -/
  | expectedHeader (line : Nat) (found : Text)
  /-- The line with this number, counted from one, begins with no known mark. -/
  | unknownMode (line : Nat) (mode : Char) (found : Text)
  /-- A deletion comes after an insertion with no kept line between them. -/
  | deletionAfterInsertion (deletion opened : Position)
  /-- The edit that starts here begins before the previous one ends. -/
  | overlap (start : Position)
  /-- The base text has another line, or none, where the patch expects this one. -/
  | contextMismatch (line : Nat) (expected : Text) (found : Option Text)
  deriving DecidableEq, Repr

def Position.shown (p : Position) : Text :=
  Decimal.ofNat p.line ++ [':'] ++ Decimal.ofNat p.character

namespace PatchError

private def malformed (line : Nat) : Text :=
  "invalid patch string at line ".toList ++ Decimal.ofNat line ++ [':', ' ']

private def internal : Text :=
  "cannot format due to an internal error: ".toList

def message : PatchError → Text
  | expectedHeader line found =>
    malformed line ++ "expected hunk header, found ".toList ++ quoted found
  | unknownMode line mode found =>
    malformed line ++ "invalid patch mode '".toList ++ [mode] ++ "' in: ".toList ++ found
  | deletionAfterInsertion deletion opened =>
    internal ++ "deletion at ".toList ++ deletion.shown ++
      " follows an insertion opened at ".toList ++ opened.shown
  | overlap start =>
    internal ++ "edit at ".toList ++ start.shown ++ " overlaps the previous edit".toList
  | contextMismatch line expected found =>
    "patch does not match the original text at line ".toList ++ Decimal.ofNat line ++
      ": expected ".toList ++ quoted expected ++ ", found ".toList ++
      match found with
      | none => "None".toList
      | some t => "Some(".toList ++ quoted t ++ [')']

/-- Whether the message of an error names a line of the patch and says this of it. -/
def Blames (err : PatchError) (line : Nat) (what : Text) : Prop :=
  err.message = "invalid patch string at line ".toList ++ Decimal.ofNat line ++ [':', ' '] ++ what

theorem blames_expectedHeader (line : Nat) (found : Text) :
    (expectedHeader line found).Blames line
      ("expected hunk header, found ".toList ++ quoted found) :=
  List.append_assoc (malformed line) _ _

theorem blames_unknownMode (line : Nat) (mode : Char) (found : Text) :
    (unknownMode line mode found).Blames line
      ("invalid patch mode '".toList ++ [mode] ++ "' in: ".toList ++ found) := by
  have happend (a b c d : Text) : malformed line ++ a ++ b ++ c ++ d =
      malformed line ++ (a ++ b ++ c ++ d) := by
    simp only [List.append_assoc]
  exact happend _ _ _ _

end PatchError

end HunkEdits
