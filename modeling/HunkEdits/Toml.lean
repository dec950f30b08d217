import HunkEdits.Text

/-!
# TOML tables

The values of a configuration file.  Each table remembers how it came about, because that decides
whether it may still grow: a table under a header of its own is complete, one that is only implied
by the header of a sub-table may get a header later, and one made by a dotted key grows by dotted
keys alone.

Records are read from tables or from arrays (`fields?`), and choices from their names (`choice?`).
-/

namespace HunkEdits.Toml

/-- How a table came about. -/
inductive Origin where
  | header
  | implied
  | dotted
  deriving DecidableEq, Repr

/-- A value.  Entries of tables have distinct keys, in the order in which they first appear. -/
inductive Value where
  | string (t : Text)
  | integer (n : Int)
  | boolean (b : Bool)
  | array (items : List Value)
  | table (origin : Origin) (entries : List (Text × Value))

abbrev Entries := List (Text × Value)

def lookup (key : Text) (entries : Entries) : Option Value :=
  (entries.find? fun e => e.1 == key).map Prod.snd

def replace (key : Text) (v : Value) (entries : Entries) : Entries :=
  entries.map fun e => if e.1 == key then (key, v) else e

/-- Adds a value under a key that is not there yet. -/
def add? (key : Text) (v : Value) (entries : Entries) : Option Entries :=
  if (lookup key entries).isSome then none else some (entries ++ [(key, v)])

/-- Changes the table at the end of a path.  A table that is missing on the way is made with the
origin `made`, and tables with an origin outside `through` block the way. -/
def descend (made : Origin) (through : Origin → Bool)
    (change : Origin → Entries → Option Entries) : List Text → Origin → Entries → Option Entries
  | [], origin, entries => change origin entries
  | key :: path, _, entries =>
    match lookup key entries with
    | none => do
      return entries ++ [(key, .table made (← descend made through change path made []))]
    | some (.table origin inner) =>
      if through origin then do
        let inner ← descend made through change path origin inner
        return replace key (.table origin inner) entries
      else
        none
    | some _ => none

/-- Opens the table of a header whose last part is `key`: a new one, or one that was only implied.
-/
def openTable (path : List Text) (key : Text) (root : Entries) : Option Entries :=
  descend .implied (fun _ => true) (fun _ entries =>
    match lookup key entries with
    | none => add? key (.table .header []) entries
    | some (.table .implied inner) => some (replace key (.table .header inner) entries)
    | some _ => none) path .header root

/-- Puts a value into the table at `place`, under a key that has the parts `path` before its last
one. -/
def insert (place path : List Text) (key : Text) (v : Value) (root : Entries) : Option Entries :=
  descend .implied (fun _ => true) (fun _ table =>
    descend .dotted (fun origin => origin != .header) (fun origin entries =>
      if path.isEmpty || origin == .dotted then add? key v entries else none) path .header table)
    place .header root

/-! ### Fields -/

/-- Whether an integer is in the range of those that are read, from the least signed to the largest
unsigned one of 128 bits. -/
def isInRange (n : Int) : Bool :=
  -0x80000000000000000000000000000000 ≤ n && n ≤ 0xffffffffffffffffffffffffffffffff

mutual

/-- Whether a value may be passed over, which holds if all of its integers are in range. -/
def Value.isPassable : Value → Bool
  | .string _ | .boolean _ => true
  | .integer n => isInRange n
  | .array items => arePassable items
  | .table _ entries => entriesPassable entries

def arePassable : List Value → Bool
  | [] => true
  | v :: items => v.isPassable && arePassable items

/-- Whether the values of entries may be passed over. -/
def entriesPassable : List (Text × Value) → Bool
  | [] => true
  | (_, v) :: entries => v.isPassable && entriesPassable entries

end

namespace Value

/-- The values of the fields of a record, in their order.  A record is a table, in which other
entries are passed over, or an array that starts with the first field.  The last items of such an
array may be missing, and what comes after the last field is not looked at. -/
def fields? (names : List Text) : Value → Option (List (Option Value))
  | .table _ entries =>
    if entries.all fun e => names.contains e.1 || e.2.isPassable then
      some (names.map fun name => lookup name entries)
    else
      none
  | .array items => some (names.zipIdx.map fun n => items[n.2]?)
  | _ => none

/-- A name that stands for a choice.  It is a string, or the only key of a table that has an empty
array or an empty table there. -/
def choice? : Value → Option Text
  | .string t => some t
  | .table _ [(name, .array [])] | .table _ [(name, .table _ [])] => some name
  | _ => none

def boolean? : Value → Option Bool
  | .boolean b => some b
  | _ => none

end Value

end HunkEdits.Toml
