import HunkEdits.Text.Printable

/-!
# Quoted texts

How a text is shown inside a message: between double quotes, with short escapes for the quote, the
backslash, the tab, the line ends and U+0000, and with the code point in braces for what is not
printable.  In paths the apostrophe has an escape too.
-/

namespace HunkEdits.Text

def escape (c : Char) : Text :=
  if c = '\t' then ['\\', 't']
  else if c = '\n' then ['\\', 'n']
  else if c = '\r' then ['\\', 'r']
  else if c = '\x00' then ['\\', '0']
  else if c = '"' then ['\\', '"']
  else if c = '\\' then ['\\', '\\']
  else if isPrintable c then [c]
  else ['\\', 'u', '\x7b'] ++ Nat.toDigits 16 c.toNat ++ ['\x7d']

def quoted (t : Text) : Text :=
  ['"'] ++ t.flatMap escape ++ ['"']

def quotedPath (t : Text) : Text :=
  ['"'] ++ t.flatMap (fun c => if c = '\'' then ['\\', '\''] else escape c) ++ ['"']

end HunkEdits.Text
