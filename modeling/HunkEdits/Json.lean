import HunkEdits.Text.Decimal

/-!
# JSON values

The values that JSON texts stand for, and how they are printed.  Natural numbers are values; any
other number is kept as it is written.  There are two layouts: compact, without any blank, and
pretty, with one item on each line and an indent of two spaces for each level.  What is no text has
no form of its own and is printed as null.
-/

namespace HunkEdits

/-- A JSON value.  Members of objects keep their order, and names may repeat. -/
inductive Json where
  | null
  | bool (b : Bool)
  | nat (n : Nat)
  /-- A number that has a sign, a fraction or an exponent. -/
  | numeral (written : Text)
  | str (t : Text)
  /-- A string in which half of a surrogate pair stands alone, or an object with such a name. -/
  | unpaired
  | arr (items : List Json)
  | obj (members : List (Text × Json))

namespace Json

open Text

/-! ### Strings -/

def hexPair (n : Nat) : Text :=
  [Nat.digitChar (n / 16), Nat.digitChar (n % 16)]

/-- A character as it is written in a string: quotes, backslashes and controls are escaped. -/
def writeChar (c : Char) : Text :=
  if c = '"' then ['\\', '"']
  else if c = '\\' then ['\\', '\\']
  else if c = '\x08' then ['\\', 'b']
  else if c = '\x0c' then ['\\', 'f']
  else if c = '\n' then ['\\', 'n']
  else if c = '\r' then ['\\', 'r']
  else if c = '\t' then ['\\', 't']
  else if c.toNat < 0x20 then ['\\', 'u', '0', '0'] ++ hexPair c.toNat
  else [c]

def writeString (t : Text) : Text :=
  ['"'] ++ t.flatMap writeChar ++ ['"']

/-! ### Layout -/

/-- How values are laid out. -/
inductive Layout where
  | compact
  | pretty
  deriving DecidableEq, Repr

/-- What stands before an item, or before the closing bracket, at a level. -/
def Layout.gap : Layout → Nat → Text
  | compact, _ => []
  | pretty, level => '\n' :: List.replicate (2 * level) ' '

def Layout.colon : Layout → Text
  | compact => [':']
  | pretty => [':', ' ']

mutual

/-- A value in a layout, where the value itself stands at a level. -/
def render (l : Layout) (level : Nat) : Json → Text
  | null => "null".toList
  | bool true => "true".toList
  | bool false => "false".toList
  | nat n => Decimal.ofNat n
  | numeral written => written
  | str t => writeString t
  | unpaired => "null".toList
  | arr [] => ['[', ']']
  | arr (v :: vs) =>
    ['['] ++ l.gap (level + 1) ++ render l (level + 1) v ++ renderItems l level vs ++ [']']
  | obj [] => ['\x7b', '\x7d']
  | obj ((k, v) :: ms) =>
    ['\x7b'] ++ l.gap (level + 1) ++ writeString k ++ l.colon ++ render l (level + 1) v ++
      renderMembers l level ms ++ ['\x7d']

/-- The items of an array after its first one, up to the closing bracket. -/
def renderItems (l : Layout) (level : Nat) : List Json → Text
  | [] => l.gap level
  | v :: vs => [','] ++ l.gap (level + 1) ++ render l (level + 1) v ++ renderItems l level vs

/-- The members of an object after its first one, up to the closing bracket. -/
def renderMembers (l : Layout) (level : Nat) : List (Text × Json) → Text
  | [] => l.gap level
  | (k, v) :: ms =>
    [','] ++ l.gap (level + 1) ++ writeString k ++ l.colon ++ render l (level + 1) v ++
      renderMembers l level ms

end

/-- A value as a text. -/
def write (l : Layout) (v : Json) : Text :=
  render l 0 v

end Json

end HunkEdits
