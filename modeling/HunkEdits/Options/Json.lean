import HunkEdits.Json.Reader
import HunkEdits.Options

/-!
# Options as JSON

Options are an object in which each one may be left out.
-/

namespace HunkEdits

open Json

def LineEnding.name : LineEnding → Text
  | lf => "lf".toList
  | crlf => "cr_lf".toList
  | native => "native".toList

def LineEnding.ofName? (t : Text) : Option LineEnding :=
  [lf, crlf, native].find? fun e => e.name == t

def Encoding.name : Encoding → Text
  | utf8 => "utf8".toList
  | utf16 => "utf16".toList
  | utf32 => "utf32".toList

def Encoding.ofName? (t : Text) : Option Encoding :=
  [utf8, utf16, utf32].find? fun e => e.name == t

namespace Options

def fieldNames : List Text :=
  ["line_ending".toList, "position_encoding".toList, "verify_context".toList]

def toJson (o : Options) : Json :=
  .obj
    [("line_ending".toList, .str o.lineEnding.name),
      ("position_encoding".toList, .str o.encoding.name),
      ("verify_context".toList, .bool o.verify)]

/-- Reads options; those that are missing have their defaults. -/
def ofJson? (v : Json) : Option Options := do
  match ← fields? fieldNames v with
  | [lineEnding, encoding, verify] =>
    let base : Options := {}
    let lineEnding ← match lineEnding with
      | some v => LineEnding.ofName? (← v.choice?)
      | none => base.lineEnding
    let encoding ← match encoding with
      | some v => Encoding.ofName? (← v.choice?)
      | none => base.encoding
    let verify ← match verify with
      | some v => v.bool?
      | none => base.verify
    return ⟨lineEnding, encoding, verify⟩
  | _ => none

def parse? (t : Text) : Option Options := do
  ofJson? (← Json.parse? t)

end Options

end HunkEdits
