import HunkEdits.CommandLine.Host
import HunkEdits.CommandLine.Invocation

/-!
# Configuration

The configuration comes from a file, and the command line overrides it.  On the command line's side,
unlike in `Options`, lines of a patch are verified unless something turns that off.

How the text of a file is read is left to a reader, which gives the configuration or a report on
what is wrong with the text.
-/

namespace HunkEdits.CommandLine

structure Configuration where
  lineEnding : LineEnding := .native
  encoding : Encoding := .utf16
  verify : Bool := true
  pretty : Bool := true
  deriving DecidableEq, Repr

inductive ConfigurationError where
  | absent (path : Text)
  | unreadable (path : Text) (fault : IoFault)
  | malformed (report : Text)
  deriving DecidableEq, Repr

def ConfigurationError.headline : ConfigurationError → Text
  | absent path => "Config file not found at ".toList ++ Text.quotedPath path
  | unreadable path _ => "Failed to read config file at ".toList ++ Text.quotedPath path
  | malformed _ => "Failed to parse config file".toList

/-- What is told about an error, from the headline to the cause. -/
def ConfigurationError.chain (e : ConfigurationError) : List Text :=
  match e with
  | absent _ => [e.headline]
  | unreadable _ fault => [e.headline, fault.message]
  | malformed report => [e.headline, report]

namespace Configuration

def options (c : Configuration) : Options :=
  ⟨c.lineEnding, c.encoding, c.verify⟩

/-- Where the configuration is looked for: in the directory for configurations if that is an
absolute path, else in the home directory. -/
def defaultPath (configHome home : Option Text) : Text :=
  let file := "diffedit/config.toml".toList
  match configHome, home with
  | some ('/' :: d), _ => '/' :: d ++ ['/'] ++ file
  | _, some d => d ++ "/.config/".toList ++ file
  | _, none => "config.toml".toList

def override (o : Overrides) (c : Configuration) : Configuration where
  lineEnding := o.lineEnding.getD c.lineEnding
  encoding := o.encoding.getD c.encoding
  verify := if o.noVerify then false else o.verify || c.verify
  pretty := c.pretty

/-! ### Loading -/

section

variable {m : Type → Type} [Monad m] [MonadHost m]
  (read : Text → Except Text Configuration)

/-- Reads the configuration at a path. -/
def readAt (path : Text) : ExceptT ConfigurationError m Configuration := do
  match ← (MonadHost.readText path : m _) with
  | .error fault => throw (.unreadable path fault)
  | .ok t =>
    match read t with
    | .ok c => return c
    | .error report => throw (.malformed report)

/-- The configuration before the command line has its say.  A file that is named has to be there. -/
def base (o : Overrides) : ExceptT ConfigurationError m Configuration := do
  if o.ignoreConfig then
    return {}
  else
    match o.config with
    | some path =>
      if ← (MonadHost.isPresent path : m _) then readAt read path else throw (.absent path)
    | none =>
      let path ← (MonadHost.defaultConfig : m _)
      if ← (MonadHost.isPresent path : m _) then readAt read path else return {}

def loadWith (o : Overrides) : ExceptT ConfigurationError m Configuration := do
  return (← base read o).override o

end

end Configuration

end HunkEdits.CommandLine
