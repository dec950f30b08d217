import HunkEdits.Text

/-!
# Document URIs

A document is named by an absolute URI, which is one that begins with a scheme.  It is kept as it is
written.  The URI of a file is its absolute path behind `file://`, with the bytes of all characters
that have no place in a path percent-encoded.
-/

namespace HunkEdits.Uri

/-- Whether a character may stand in a scheme after its first letter. -/
def isSchemeChar (c : Char) : Bool :=
  c.isAlphanum || c == '+' || c == '-' || c == '.'

/-- Whether a text begins with a scheme and a colon. -/
def hasScheme : Text → Bool
  | [] => false
  | c :: t => c.isAlpha && (t.dropWhile isSchemeChar).head? == some ':'

/-- What is told about a text that has no scheme. -/
def noScheme : Text :=
  "relative URL without a base".toList

def parse (t : Text) : Except Text Text :=
  if hasScheme t then .ok t else .error noScheme

def hexDigit (n : Nat) : Char :=
  (Nat.digitChar n).toUpper

/-- A byte as a percent sign and two digits. -/
def encodeByte (b : UInt8) : Text :=
  ['%', hexDigit (b.toNat / 16), hexDigit (b.toNat % 16)]

/-- Whether a character stands for itself in the path of a file URI. -/
def isPathChar (c : Char) : Bool :=
  let reserved := ['"', '<', '>', '\x60', '#', '?', '\x7b', '\x7d', '%', '\\']
  0x20 < c.toNat && c.toNat < 0x7f && !reserved.contains c

/-- A character as it is written in the path of a file URI. -/
def encodeChar (c : Char) : Text :=
  if isPathChar c then [c] else (String.utf8EncodeChar c).flatMap encodeByte

/-- The URI of the file at an absolute path. -/
def ofPath (path : Text) : Text :=
  "file://".toList ++ path.flatMap encodeChar

end HunkEdits.Uri
