import HunkEdits.CommandLine.Invocation

/-!
# Arguments

The words of a command line, read from left to right.  The first word that is no option names the
command.  Some options may stand on either side of it, and the side of the command wins; the others
belong to certain commands and follow them.  An option may be given once on each side.

Reading stops at the first word that is wrong, or that asks for help or the version.
-/

namespace HunkEdits.CommandLine

/-- Why reading the words has come to an end before the last one. -/
inductive Halt where
  | usage
  | help
  | version
  deriving DecidableEq, Repr

inductive CommandName where
  | edits
  | textEdits
  | workspaceEdit
  | apply
  deriving DecidableEq, Repr

inductive Flag where
  | ignoreConfig
  | verify
  | noVerify
  | write
  | dryRun
  deriving DecidableEq, Repr

/-- Options that have a value. -/
inductive Setting where
  | config
  | lineEnding
  | encoding
  | base
  | uri
  deriving DecidableEq, Repr

def CommandName.ofWord? (w : Text) : Option CommandName :=
  if w = "edits".toList then some .edits
  else if w = "text-edits".toList then some .textEdits
  else if w = "workspace-edit".toList then some .workspaceEdit
  else if w = "apply".toList then some .apply
  else none

/-- The long name of a flag, behind two dashes. -/
def Flag.ofWord? (w : Text) : Option Flag :=
  if w = "ignore-config".toList then some .ignoreConfig
  else if w = "verify".toList then some .verify
  else if w = "no-verify".toList then some .noVerify
  else if w = "write".toList then some .write
  else if w = "dry-run".toList then some .dryRun
  else none

/-- The long name of an option with a value, behind two dashes. -/
def Setting.ofWord? (w : Text) : Option Setting :=
  if w = "config".toList then some .config
  else if w = "line-ending".toList then some .lineEnding
  else if w = "encoding".toList then some .encoding
  else if w = "original".toList then some .base
  else if w = "uri".toList then some .uri
  else none

/-- Whether a flag may stand in the words of a command, or before any. -/
def Flag.belongsTo : Flag → Option CommandName → Bool
  | ignoreConfig, _ | verify, _ | noVerify, _ => true
  | write, c | dryRun, c => c == some .apply

/-- Whether an option with a value may stand in the words of a command, or before any. -/
def Setting.belongsTo : Setting → Option CommandName → Bool
  | config, _ | lineEnding, _ | encoding, _ => true
  | base, c => c.isSome
  | uri, c => c == some .workspaceEdit

/-! ### What is given -/

/-- What is given on one side of the command. -/
structure Given where
  flags : List Flag := []
  config : Option Text := none
  lineEnding : Option LineEnding := none
  encoding : Option Encoding := none
  base : Option Text := none
  uri : Option Text := none
  patch : Option Text := none
  deriving DecidableEq, Repr

/-- Fills a place that is still free. -/
def fill? {α : Type} (place : Option α) (value : Option α) : Option (Option α) :=
  match place, value with
  | none, some v => some (some v)
  | _, _ => none

/-- The name of a file, which is not empty. -/
def path? (w : Text) : Option Text :=
  if w.isEmpty then none else some w

def lineEnding? (w : Text) : Option LineEnding :=
  if w = "lf".toList then some .lf
  else if w = "crlf".toList then some .crlf
  else if w = "native".toList then some .native
  else none

def encoding? (w : Text) : Option Encoding :=
  if w = "utf8".toList then some .utf8
  else if w = "utf16".toList then some .utf16
  else if w = "utf32".toList then some .utf32
  else none

namespace Given

def addFlag? (g : Given) (f : Flag) : Option Given :=
  if g.flags.contains f then none else some { g with flags := f :: g.flags }

def addSetting? (g : Given) (s : Setting) (value : Text) : Option Given :=
  match s with
  | .config => (fill? g.config (path? value)).map fun v => { g with config := v }
  | .lineEnding => (fill? g.lineEnding (lineEnding? value)).map fun v => { g with lineEnding := v }
  | .encoding => (fill? g.encoding (encoding? value)).map fun v => { g with encoding := v }
  | .base => (fill? g.base (path? value)).map fun v => { g with base := v }
  | .uri => (fill? g.uri (some value)).map fun v => { g with uri := v }

def addPatch? (g : Given) (w : Text) : Option Given :=
  (fill? g.patch (path? w)).map fun v => { g with patch := v }

/-- Whether it is asked both to verify and not to. -/
def contradicts (g : Given) : Bool :=
  g.flags.contains .verify && g.flags.contains .noVerify

end Given

/-! ### Reading words -/

/-- What the words read so far say. -/
structure Reading where
  outer : Given := {}
  command : Option (CommandName × Given) := none
  /-- The option whose value comes next. -/
  awaiting : Option Setting := none
  /-- Whether every further word is a name. -/
  literal : Bool := false
  /-- Whether help is asked for by its command, and whether a topic is named. -/
  help : Option Bool := none
  deriving DecidableEq, Repr

def orUsage {α : Type} : Option α → Except Halt α
  | some a => .ok a
  | none => .error .usage

def isOption (w : Text) : Bool :=
  w.head? == some '-' && w != ['-']

namespace Reading

def name (r : Reading) : Option CommandName :=
  r.command.map Prod.fst

/-- Changes what is given on the side that is being read. -/
def change (r : Reading) (f : Given → Option Given) : Except Halt Reading :=
  match r.command with
  | some (name, g) => return { r with command := some (name, ← orUsage (f g)) }
  | none => return { r with outer := ← orUsage (f r.outer) }

def giveFlag (r : Reading) (f : Flag) : Except Halt Reading :=
  if f.belongsTo r.name then r.change fun g => g.addFlag? f else .error .usage

/-- Reads an option with a value that is attached to it, or that is to come. -/
def giveSetting (r : Reading) (s : Setting) (value : Option Text) : Except Halt Reading :=
  if s.belongsTo r.name then
    match value with
    | some v => r.change fun g => g.addSetting? s v
    | none => .ok { r with awaiting := some s }
  else
    .error .usage

def long (r : Reading) (body : Text) : Except Halt Reading := do
  let label := body.takeWhile fun c => c != '='
  let value := match body.dropWhile fun c => c != '=' with
    | [] => none
    | _ :: v => some v
  if label = "help".toList ∧ value.isNone then .error .help
  else if label = "version".toList ∧ value.isNone ∧ r.command.isNone then .error .version
  else
    match Flag.ofWord? label, Setting.ofWord? label with
    | some f, _ => if value.isSome then .error .usage else r.giveFlag f
    | none, some s => r.giveSetting s value
    | none, none => .error .usage

def short (r : Reading) : Text → Except Halt Reading
  | 'h' :: _ => .error .help
  | 'V' :: _ => .error (if r.command.isNone then .version else .usage)
  | 'c' :: [] => r.giveSetting .config none
  | 'c' :: '=' :: v => r.giveSetting .config (some v)
  | 'c' :: v => r.giveSetting .config (some v)
  | _ => .error .usage

/-- Reads a word that is a name: that of a command, and after it that of a patch. -/
def plain (r : Reading) (w : Text) : Except Halt Reading :=
  match r.command with
  | some _ => r.change fun g => g.addPatch? w
  | none =>
    if w = "help".toList then .ok { r with help := some false }
    else do
      return { r with command := some (← orUsage (CommandName.ofWord? w), {}) }

def topic (r : Reading) (named : Bool) (w : Text) : Except Halt Reading :=
  if !named && ((CommandName.ofWord? w).isSome || w == "help".toList) then
    .ok { r with help := some true }
  else
    .error .usage

def word (r : Reading) (w : Text) : Except Halt Reading :=
  match r.help, r.awaiting with
  | some named, _ => r.topic named w
  | none, some s =>
    if isOption w then .error .usage else { r with awaiting := none }.giveSetting s (some w)
  | none, none =>
    if r.literal then r.plain w
    else if w = ['-', '-'] then
      if r.command.isSome then .ok { r with literal := true } else .error .usage
    else if isOption w then
      match w with
      | '-' :: '-' :: body => r.long body
      | w => r.short (w.drop 1)
    else r.plain w

end Reading

/-! ### Invocations -/

def CommandName.command (g : Given) : CommandName → Command
  | edits => .edits
  | textEdits => .textEdits
  | workspaceEdit => .workspaceEdit g.uri
  | apply => .apply (g.flags.contains .write) (g.flags.contains .dryRun)

def Overrides.ofGiven (outer inner : Given) : Overrides where
  config := inner.config.or outer.config
  ignoreConfig := inner.flags.contains .ignoreConfig || outer.flags.contains .ignoreConfig
  lineEnding := inner.lineEnding.or outer.lineEnding
  encoding := inner.encoding.or outer.encoding
  verify := inner.flags.contains .verify || outer.flags.contains .verify
  noVerify := inner.flags.contains .noVerify || outer.flags.contains .noVerify

def Reading.invocation (r : Reading) : Except Halt Invocation :=
  if r.help.isSome then .error .help
  else
    match r.command with
    | none => .error .usage
    | some (name, g) =>
      match g.base with
      | none => .error .usage
      | some base =>
        if r.awaiting.isSome || g.contradicts || r.outer.contradicts then .error .usage
        else .ok ⟨.ofGiven r.outer g, name.command g, base, g.patch⟩

/-! ### Texts that are asked for -/

def versionText : Text :=
  "diffedit-cli 0.1.0\n".toList

def usageText : Text :=
  ("Usage: diffedit [OPTIONS] <COMMAND> --original <ORIGINAL> [PATCH]\n\n" ++
    "For more information, try '--help'.\n").toList

/-- What the program does and how it is called. -/
def helpText : Text :=
  ("Turns unified diffs into edits\n\n" ++
    "Usage: diffedit [OPTIONS] <COMMAND> --original <ORIGINAL> [PATCH]\n\n" ++
    "Commands:\n" ++
    "  edits           Print the edits as JSON\n" ++
    "  text-edits      Print the edits as LSP TextEdit[] JSON\n" ++
    "  workspace-edit  Print the edits as an LSP WorkspaceEdit JSON [--uri <URI>]\n" ++
    "  apply           Apply the edits and print the resulting text [--write] [--dry-run]\n\n" ++
    "Options:\n" ++
    "  -c, --config <CONFIG>            Path to config file\n" ++
    "      --ignore-config              Use built-in defaults, ignore config file\n" ++
    "      --line-ending <LINE_ENDING>  lf, crlf or native\n" ++
    "      --encoding <ENCODING>        utf8, utf16 or utf32\n" ++
    "      --verify                     Check context lines against the original file\n" ++
    "      --no-verify                  Trust the patch without checking context lines\n" ++
    "  -h, --help                       Print help\n" ++
    "  -V, --version                    Print version\n").toList

def Halt.stop : Halt → Stop
  | usage => .usage usageText
  | help => .display helpText
  | version => .display versionText

def Invocation.parse (words : List Text) : Except Stop Invocation :=
  (do (← words.foldlM Reading.word {}).invocation).mapError Halt.stop

end HunkEdits.CommandLine
