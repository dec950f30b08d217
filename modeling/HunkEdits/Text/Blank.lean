import HunkEdits.Text

/-!
# Blank characters

The characters with the Unicode property White_Space.  They are the ones that may follow the closing
mark of a hunk header, and a line that holds nothing else is blank.
-/

namespace HunkEdits.Text

/-- The property White_Space. -/
def isBlank (c : Char) : Bool :=
  let n := c.toNat
  (0x09 ≤ n && n ≤ 0x0d) || n == 0x20 || n == 0x85 || n == 0xa0 || n == 0x1680 ||
    (0x2000 ≤ n && n ≤ 0x200a) || n == 0x2028 || n == 0x2029 || n == 0x202f || n == 0x205f ||
    n == 0x3000

end HunkEdits.Text
