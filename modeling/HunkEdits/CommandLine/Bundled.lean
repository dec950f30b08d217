import HunkEdits.CommandLine.Arguments
import HunkEdits.CommandLine.Run
import HunkEdits.Options.Json
import HunkEdits.Toml.Reader
import HunkEdits.Uri

/-!
# Bundled readers

Readers of command lines, configuration files and URIs that the program can be run with.  They know
as much of the formats as configurations and documents commonly use.
-/

namespace HunkEdits.CommandLine

namespace Configuration

/-- The values of the fields of a record, all of which are missing where it is missing itself. -/
def record? (names : List Text) : Option Toml.Value → Option (List (Option Toml.Value))
  | none => some (names.map fun _ => none)
  | some v => v.fields? names

/-- What a value is read as, with an answer where there is none. -/
def field? {α : Type} (read? : Toml.Value → Option α) (default : α) : Option Toml.Value → Option α
  | none => some default
  | some v => read? v

/-- Reads a configuration from the tables of a file. -/
def ofToml? (root : Toml.Entries) : Option Configuration := do
  let base : Configuration := {}
  let [convert, output] ← record? ["convert".toList, "output".toList] (some (.table .header root))
    | none
  let [lineEnding, encoding, verify] ← record? Options.fieldNames convert | none
  let [pretty] ← record? ["pretty".toList] output | none
  return {
    lineEnding := ← field? (fun v => v.choice?.bind LineEnding.ofName?) base.lineEnding lineEnding
    encoding := ← field? (fun v => v.choice?.bind Encoding.ofName?) base.encoding encoding
    verify := ← field? Toml.Value.boolean? base.verify verify
    pretty := ← field? Toml.Value.boolean? base.pretty pretty }

/-- Reads a configuration from the text of a file. -/
def parse (t : Text) : Except Text Configuration :=
  match (Toml.parse? t).bind ofToml? with
  | some c => .ok c
  | none => .error "this is no configuration".toList

end Configuration

def Libraries.bundled : Libraries where
  arguments := Invocation.parse
  configuration := Configuration.parse
  uri := Uri.parse
  fileUri path := some (Uri.ofPath path)

end HunkEdits.CommandLine
