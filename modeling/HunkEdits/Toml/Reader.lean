import HunkEdits.Text.Decimal
import HunkEdits.Toml

/-!
# Reading TOML

A file is a row of statements, each on a line of its own: a header that opens a table, or a key with
its value.  Values are strings on one line, integers, truth values and arrays; only arrays go over
several lines.  Comments run from a number sign to the end of the line.  Keys have a limited number
of parts, and arrays can stand in each other to the same limit.
-/

namespace HunkEdits.Toml

open Text

/-- The largest number of parts of a key, and of arrays around a value. -/
def nestingLimit : Nat := 80

/-! ### Blanks, comments and line ends -/

/-- Whether a character may stand raw in a comment or a string. -/
def isPlain (c : Char) : Bool :=
  c == '\t' || (0x20 ≤ c.toNat && c.toNat != 0x7f)

/-- What follows the spaces and tabs at the start of a text. -/
def skipSpace (t : Text) : Text :=
  t.dropWhile fun c => c == ' ' || c == '\t'

/-- What follows the spaces and the comment at the start of a text. -/
def skipComment (t : Text) : Text :=
  match skipSpace t with
  | '#' :: t => t.dropWhile isPlain
  | t => t

def lineEnd? : Text → Option Text
  | '\n' :: t => some t
  | '\r' :: '\n' :: t => some t
  | _ => none

/-- What follows the blanks, comments and line ends at the start of a text. -/
def skipLines : (fuel : Nat) → Text → Text
  | 0, t => t
  | fuel + 1, t =>
    match lineEnd? (skipComment t) with
    | some t => skipLines fuel t
    | none => skipComment t

/-- What follows the rest of a line that may hold nothing but a comment. -/
def endStatement? (t : Text) : Option Text :=
  match skipComment t with
  | [] => some []
  | t => lineEnd? t

/-! ### Strings and keys -/

def hex? (digits : Text) : Option Nat :=
  digits.foldlM (fun n c =>
    if c.isDigit then some (n * 16 + (c.toNat - '0'.toNat))
    else if 'a' ≤ c ∧ c ≤ 'f' then some (n * 16 + (c.toNat - 'a'.toNat + 10))
    else if 'A' ≤ c ∧ c ≤ 'F' then some (n * 16 + (c.toNat - 'A'.toNat + 10))
    else none) 0

/-- The character that `n` hexadecimal digits name. -/
def scalar? (n : Nat) (t : Text) : Option (Char × Text) := do
  if t.length < n then none
  else
    let code ← hex? (t.take n)
    if Nat.isValidChar code then some (Char.ofNat code, t.drop n) else none

def escape? : Text → Option (Char × Text)
  | [] => none
  | c :: t =>
    if c = '"' ∨ c = '\\' then some (c, t)
    else if c = 'b' then some ('\x08', t)
    else if c = 't' then some ('\t', t)
    else if c = 'n' then some ('\n', t)
    else if c = 'f' then some ('\x0c', t)
    else if c = 'r' then some ('\r', t)
    else if c = 'e' then some ('\x1b', t)
    else if c = 'x' then scalar? 2 t
    else if c = 'u' then scalar? 4 t
    else if c = 'U' then scalar? 8 t
    else none

/-- Reads the rest of a string in double quotes, after the (reversed) characters already read. -/
def basicString? : (fuel : Nat) → (read : Text) → Text → Option (Text × Text)
  | 0, _, _ | _, _, [] => none
  | fuel + 1, read, c :: t =>
    if c = '"' then some (read.reverse, t)
    else if c = '\\' then do
      let (c, t) ← escape? t
      basicString? fuel (c :: read) t
    else if isPlain c then basicString? fuel (c :: read) t
    else none

/-- Reads the rest of a string in single quotes. -/
def literalString? (t : Text) : Option (Text × Text) :=
  let isBody (c : Char) : Bool := isPlain c && c != '\''
  match t.dropWhile isBody with
  | '\'' :: rest => some (t.takeWhile isBody, rest)
  | _ => none

/-- Reads a string, if a quote comes next. -/
def string? : Text → Option (Text × Text)
  | '"' :: t => basicString? t.length [] t
  | '\'' :: t => literalString? t
  | _ => none

/-- Whether a character may stand in a key without quotes. -/
def isKeyChar (c : Char) : Bool :=
  c.isAlphanum || c == '_' || c == '-'

def keyPart? (t : Text) : Option (Text × Text) :=
  match t.takeWhile isKeyChar with
  | [] => string? t
  | part => some (part, t.dropWhile isKeyChar)

/-- Reads the rest of a key, which has at most `room` parts, after the parts `path`. -/
def keyFrom? : (room : Nat) → (path : List Text) → Text → Option (List Text × Text × Text)
  | 0, _, _ => none
  | room + 1, path, t => do
    let (part, t) ← keyPart? (skipSpace t)
    match skipSpace t with
    | '.' :: t => keyFrom? room (path ++ [part]) t
    | t => return (path, part, t)

/-- Reads a key: its parts before the last, the last one, and what follows the key and its blanks.
-/
def key? (t : Text) : Option (List Text × Text × Text) :=
  keyFrom? nestingLimit [] t

/-! ### Values -/

/-- The value of a row of digits of a base, where single underscores may stand between two digits.
-/
def digits? (base : Nat) (t : Text) : Option Nat :=
  let digit (c : Char) : Option Nat := do
    let n ← hex? [c]
    if n < base then some n else none
  (t.splitOn '_').foldlM (fun n group =>
    if group.isEmpty then none
    else group.foldlM (fun n c => (digit c).map fun d => n * base + d) n) 0

/-- The digits of a decimal number, which begin with a zero only if there is no other. -/
def decimal? (t : Text) : Option Nat :=
  if t.head? = some '0' ∧ t ≠ ['0'] then none else digits? 10 t

def word? (w : Text) : Option Value :=
  if w = "true".toList then some (.boolean true)
  else if w = "false".toList then some (.boolean false)
  else match w with
    | '0' :: 'x' :: t => (digits? 16 t).map fun n => .integer n
    | '0' :: 'o' :: t => (digits? 8 t).map fun n => .integer n
    | '0' :: 'b' :: t => (digits? 2 t).map fun n => .integer n
    | '+' :: t => (decimal? t).map fun n => .integer n
    | '-' :: t => (decimal? t).map fun n => .integer (-n)
    | t => (decimal? t).map fun n => .integer n

/-- Whether a character goes on with a truth value or an integer. -/
def isWordChar (c : Char) : Bool :=
  isKeyChar c || c == '+'

mutual

/-- Reads a value with at most `room` arrays in each other. -/
def valueWith? : (fuel room : Nat) → Text → Option (Value × Text)
  | 0, _, _ => none
  | fuel + 1, room, t =>
    match t with
    | '[' :: t => if room = 0 then none else itemsWith? fuel (room - 1) [] t
    | t =>
      match string? t with
      | some (s, t) => some (.string s, t)
      | none => (word? (t.takeWhile isWordChar)).map fun v => (v, t.dropWhile isWordChar)

/-- Reads the rest of an array, after the (reversed) items that are already read. -/
def itemsWith? : (fuel room : Nat) → (read : List Value) → Text → Option (Value × Text)
  | 0, _, _, _ => none
  | fuel + 1, room, read, t =>
    match skipLines t.length t with
    | ']' :: t => some (.array read.reverse, t)
    | t => do
      let (v, t) ← valueWith? fuel room t
      match skipLines t.length t with
      | ',' :: t => itemsWith? fuel room (v :: read) t
      | ']' :: t => some (.array (v :: read).reverse, t)
      | _ => none

end

/-- Reads a value.  Each call takes at least one character before the next but one. -/
def value? (t : Text) : Option (Value × Text) :=
  valueWith? (2 * t.length + 1) nestingLimit t

/-! ### Statements -/

/-- What has been read: the tables, and the path of the one that is open. -/
structure Document where
  root : Entries := []
  place : List Text := []

/-- Reads a statement, an empty line or a comment. -/
def statement? (d : Document) (t : Text) : Option (Document × Text) :=
  match skipSpace t with
  | '[' :: t => do
    let (path, key, t) ← key? t
    match t with
    | ']' :: t => return (⟨← openTable path key d.root, path ++ [key]⟩, ← endStatement? t)
    | _ => none
  | t =>
    match endStatement? t with
    | some t => some (d, t)
    | none => do
      let (path, key, t) ← key? t
      match t with
      | '=' :: t =>
        let (v, t) ← value? (skipSpace t)
        return (⟨← insert d.place path key v d.root, d.place⟩, ← endStatement? t)
      | _ => none

def statements? : (fuel : Nat) → Document → Text → Option Document
  | _, d, [] => some d
  | 0, _, _ => none
  | fuel + 1, d, t => do
    let (d, t) ← statement? d t
    statements? fuel d t

/-- Reads a file, which may start with a byte order mark. -/
def parse? (t : Text) : Option Entries := do
  let t := (dropLead? ['\ufeff'] t).getD t
  return (← statements? t.length {} t).root

end HunkEdits.Toml
