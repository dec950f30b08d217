import HunkEdits.CommandLine.Configuration
import HunkEdits.Edit.Json
import HunkEdits.Edit.OfPatch
import HunkEdits.Lsp.Json

/-!
# Running a command

`run` reads a command line, loads the configuration and carries the command out, stage by stage:
what a stage asks of the machine and what it does to it happens in that order, and nothing comes
after a stage that fails but the report on it.

The readers of command lines, configurations and URIs come from elsewhere; they are parameters
(`Libraries`), and nothing is assumed of them here.
-/

namespace HunkEdits.CommandLine

open Text

/-- The readers that a command relies on. -/
structure Libraries where
  /-- Reads the words of a command line. -/
  arguments : List Text → Except Stop Invocation
  /-- Reads a configuration from the text of a file, or says why it cannot. -/
  configuration : Text → Except Text Configuration
  /-- The normal form of a URI, or the reason why a text is none. -/
  uri : Text → Except Text Text
  /-- The URI of the file at an absolute path, if there is one. -/
  fileUri : Text → Option Text

/-- Why a command fails. -/
inductive Failure where
  | uri (written reason : Text)
  | unresolved (path : Text) (fault : IoFault)
  /-- The absolute path of the document makes no URI. -/
  | noFileUri (path : Text)
  | base (path : Text) (fault : IoFault)
  | patch (path : Text) (fault : IoFault)
  | stdin (fault : IoFault)
  /-- Standard input is a terminal and no patch is named. -/
  | noPatch
  | invalidPatch (e : PatchError)
  | unwritten (path : Text) (fault : IoFault)
  deriving DecidableEq, Repr

/-- What stands before the message of an error about a patch. -/
def headline : PatchError → Text
  | .expectedHeader .. | .unknownMode .. => "Invalid patch from formatter".toList
  | .deletionAfterInsertion .. | .overlap .. => "Internal formatting error".toList
  | .contextMismatch .. => "Patch was not computed against the original file".toList

/-- What is told about a failure, from the headline to the cause. -/
def Failure.chain : Failure → List Text
  | uri written reason => ["Invalid URI '".toList ++ written ++ ['\''], reason]
  | unresolved path fault => ["Failed to resolve path: ".toList ++ quotedPath path, fault.message]
  | noFileUri path => ["Cannot build a file URI for ".toList ++ quotedPath path]
  | base path fault => ["Failed to read file: ".toList ++ quotedPath path, fault.message]
  | patch path fault => ["Patch file not found at ".toList ++ quotedPath path, fault.message]
  | stdin fault => [fault.message]
  | noPatch => ["No patch file specified and no data piped from stdin.".toList]
  | invalidPatch e => [headline e, e.message]
  | unwritten path fault => ["Failed to write file: ".toList ++ quotedPath path, fault.message]

/-- The line that tells of a failure. -/
def complaint (context : Text) (chain : List Text) : Text :=
  context ++ [':', ' '] ++ [':', ' '].intercalate chain ++ ['\n']

def Failure.complaint (e : Failure) : Text :=
  CommandLine.complaint "Error".toList e.chain

def ConfigurationError.complaint (e : ConfigurationError) : Text :=
  CommandLine.complaint "Error loading config".toList e.chain

/-- What is told about edits that are not written. -/
def dryRunReport (path : Text) (edits : List Edit) : Text :=
  "[DRY RUN] ".toList ++ Decimal.ofNat edits.length ++ " edit(s) would be applied to ".toList ++
    quotedPath path ++ ['\n']

/-- A value as it is printed. -/
def printed (c : Configuration) (v : Json) : Text :=
  v.write (if c.pretty then .pretty else .compact) ++ ['\n']

section

variable {m : Type → Type} [Monad m] [MonadHost m]

/-! ### Reading -/

def readBase (path : Text) : ExceptT Failure m Text := do
  match ← (MonadHost.readText path : m _) with
  | .ok t => return t
  | .error fault => throw (.base path fault)

/-- The patch, from its file or from standard input. -/
def readPatch : Option Text → ExceptT Failure m Text
  | some path => do
    match ← (MonadHost.readText path : m _) with
    | .ok t => return t
    | .error fault => throw (.patch path fault)
  | none => do
    match ← (MonadHost.readInput : m _) with
    | some (.ok t) => return t
    | some (.error fault) => throw (.stdin fault)
    | none => throw .noPatch

/-- The URI of the document: the one that is given, or that of the file. -/
def documentUri (lib : Libraries) (path : Text) : Option Text → ExceptT Failure m Text
  | some written =>
    match lib.uri written with
    | .ok uri => return uri
    | .error reason => throw (.uri written reason)
  | none => do
    match ← (MonadHost.resolve path : m _) with
    | .ok full =>
      match lib.fileUri full with
      | some uri => return uri
      | none => throw (.noFileUri full)
    | .error fault => throw (.unresolved path fault)

/-- The result of working on a patch, whose errors are failures of the command. -/
def orInvalidPatch {α : Type} : Except PatchError α → ExceptT Failure m α
  | .ok a => return a
  | .error e => throw (.invalidPatch e)

/-- The text of the document, and the patch. -/
def readTexts (i : Invocation) : ExceptT Failure m (Text × Text) := do
  let text ← readBase i.base
  let patch ← readPatch i.patch
  return (text, patch)

def readEdits (i : Invocation) (c : Configuration) : ExceptT Failure m (List Edit) := do
  let (text, patch) ← readTexts i
  orInvalidPatch (Edit.ofPatch c.options text patch)

/-- The edits of an invocation, and the text of the document after them. -/
def readReformatted (i : Invocation) (c : Configuration) :
    ExceptT Failure m (List Edit × Text) := do
  let (text, patch) ← readTexts i
  orInvalidPatch (Edit.reformat c.options text patch)

/-! ### Commands -/

def printJson (c : Configuration) (v : Json) : ExceptT Failure m Unit :=
  (MonadHost.print (printed c v) : m _)

/-- Tells of edits, or writes or prints the text after them. -/
def deliver (path : Text) (write dryRun : Bool) (edits : List Edit) (new : Text) :
    ExceptT Failure m Unit := do
  if edits.isEmpty then
    (MonadHost.report "No changes.\n".toList : m _)
  if dryRun then
    (MonadHost.report (dryRunReport path edits) : m _)
  else if write then
    if !edits.isEmpty then
      match ← (MonadHost.writeText path new : m _) with
      | .ok () => return
      | .error fault => throw (.unwritten path fault)
  else
    (MonadHost.print new : m _)

def execute (lib : Libraries) (i : Invocation) (c : Configuration) : ExceptT Failure m Unit :=
  match i.command with
  | .edits => do
    let edits ← readEdits i c
    printJson c (Edit.listToJson edits)
  | .textEdits => do
    let edits ← readEdits i c
    printJson c (Lsp.listToJson (Lsp.textEdits edits))
  | .workspaceEdit uri => do
    let uri ← documentUri lib i.base uri
    let edits ← readEdits i c
    printJson c (Lsp.workspaceEdit edits uri).toJson
  | .apply write dryRun => do
    let (edits, new) ← readReformatted i c
    deliver i.base write dryRun edits new

/-! ### Command lines -/

/-- Tells why the words of a command line stop the program; gives the exit code. -/
def Stop.tell (stop : Stop) : m Nat := do
  match stop with
  | usage text => MonadHost.report text
  | display text => MonadHost.print text
  return stop.exitCode

def loadConfiguration (lib : Libraries) (i : Invocation) : ExceptT Text m Configuration :=
  (Configuration.loadWith lib.configuration i.overrides).adapt ConfigurationError.complaint

/-- Loads the configuration and carries the command out; fails with what there is to tell. -/
def carryOut (lib : Libraries) (i : Invocation) : ExceptT Text m Unit := do
  let c ← loadConfiguration lib i
  (execute lib i c).adapt Failure.complaint

/-- Runs a command line; gives the exit code. -/
def run (lib : Libraries) (words : List Text) : m Nat := do
  match lib.arguments words with
  | .error stop => stop.tell
  | .ok i =>
    match ← (carryOut lib i).run with
    | .ok () => return 0
    | .error line => do
      MonadHost.report line
      return 1

end

end HunkEdits.CommandLine
