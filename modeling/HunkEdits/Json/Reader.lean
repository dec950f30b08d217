import HunkEdits.Json.Token

/-!
# Reading JSON

Values are read from tokens by a machine with a stack.  The stack holds the arrays and objects that
are still open, each with the items (newest first) that it has so far; `Expect` says what has to
come next.
-/

namespace HunkEdits.Json

/-- An array or an object that is still open. -/
inductive Frame where
  | arr (items : List Json)
  /-- An object whose member with this name is being read; the name may be no text. -/
  | obj (members : List (Option Text × Json)) (name : Option Text)

/-- What has to come next. -/
inductive Expect where
  | value
  /-- The first item of an array, or its closing bracket. -/
  | firstItem
  /-- The first name of an object, or its closing bracket. -/
  | firstName
  /-- The name of a further member. -/
  | name (members : List (Option Text × Json))
  | colon (members : List (Option Text × Json)) (name : Option Text)
  /-- Whatever may follow a value. -/
  | after (v : Json)

/-- The state of the machine. -/
structure Reading where
  stack : List Frame := []
  expect : Expect := .value

/-- A string, if it is a text. -/
def ofString : Option Text → Json
  | some t => .str t
  | none => .unpaired

/-- The object with some members, if all of their names are texts. -/
def ofMembers (members : List (Option Text × Json)) : Json :=
  match members.mapM fun (name, v) => name.map fun t => (t, v) with
  | some members => .obj members
  | none => .unpaired

namespace Reading

def begin? (stack : List Frame) : Token → Option Reading
  | .scalar v => some ⟨stack, .after v⟩
  | .string t => some ⟨stack, .after (ofString t)⟩
  | .openArr => some ⟨.arr [] :: stack, .firstItem⟩
  | .openObj => some ⟨stack, .firstName⟩
  | _ => none

def step? (s : Reading) (k : Token) : Option Reading :=
  match s.expect, s.stack, k with
  | .value, stack, k => begin? stack k
  | .firstItem, .arr _ :: stack, .closeArr => some ⟨stack, .after (.arr [])⟩
  | .firstItem, stack, k => begin? stack k
  | .firstName, stack, .closeObj => some ⟨stack, .after (.obj [])⟩
  | .firstName, stack, .string name => some ⟨stack, .colon [] name⟩
  | .name members, stack, .string name => some ⟨stack, .colon members name⟩
  | .colon members name, stack, .colon => some ⟨.obj members name :: stack, .value⟩
  | .after v, .arr items :: stack, .comma => some ⟨.arr (v :: items) :: stack, .value⟩
  | .after v, .arr items :: stack, .closeArr => some ⟨stack, .after (.arr (v :: items).reverse)⟩
  | .after v, .obj members name :: stack, .comma => some ⟨stack, .name ((name, v) :: members)⟩
  | .after v, .obj members name :: stack, .closeObj =>
    some ⟨stack, .after (ofMembers ((name, v) :: members).reverse)⟩
  | _, _, _ => none

/-- The value that has been read when nothing is left open. -/
def result? : Reading → Option Json
  | ⟨[], .after v⟩ => some v
  | _ => none

end Reading

/-- The value that a row of tokens stands for. -/
def ofTokens? (tokens : List Token) : Option Json := do
  (← tokens.foldlM Reading.step? {}).result?

def parse? (t : Text) : Option Json := do
  ofTokens? (← scan t)

/-! ### Fields -/

/-- A natural number of at most 64 bits. -/
def nat? : Json → Option Nat
  | .nat n => if n ≤ Text.Decimal.limit then some n else none
  | _ => none

def bool? : Json → Option Bool
  | .bool b => some b
  | _ => none

def str? : Json → Option Text
  | .str t => some t
  | _ => none

/-- A name that stands for a choice.  It is a string, or the only name of an object that has null
there. -/
def choice? : Json → Option Text
  | .str t => some t
  | .obj [(t, .null)] => some t
  | _ => none

/-- The member of an object with a name, if there is one.  Two of one name are refused. -/
def member? (members : List (Text × Json)) (name : Text) : Option (Option Json) :=
  match members.filter fun m => m.1 == name with
  | [] => some none
  | [(_, v)] => some (some v)
  | _ => none

/-- The values of the fields of a record, in their order.  A record is an object, in which other
names are passed over, or an array that starts with the first field; the last ones may be missing.
-/
def fields? (names : List Text) : Json → Option (List (Option Json))
  | .obj members => names.mapM (member? members)
  | .arr items =>
    if items.length ≤ names.length then
      some (items.map some ++ List.replicate (names.length - items.length) none)
    else
      none
  | _ => none

def items? : Json → Option (List Json)
  | .arr items => some items
  | _ => none

end HunkEdits.Json
