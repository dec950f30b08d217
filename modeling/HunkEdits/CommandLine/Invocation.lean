import HunkEdits.Options

/-!
# Invocations

What a command line asks for, and why it may stop the program before that.
-/

namespace HunkEdits.CommandLine

inductive Command where
  | edits
  | textEdits
  | workspaceEdit (uri : Option Text)
  | apply (write dryRun : Bool)
  deriving DecidableEq, Repr

structure Overrides where
  config : Option Text := none
  ignoreConfig : Bool := false
  lineEnding : Option LineEnding := none
  encoding : Option Encoding := none
  verify : Bool := false
  noVerify : Bool := false
  deriving DecidableEq, Repr

/-- A command line that is right. -/
structure Invocation where
  overrides : Overrides
  command : Command
  base : Text
  /-- The file with the patch, unless it comes through standard input. -/
  patch : Option Text
  deriving DecidableEq, Repr

/-- Why reading the words of a command line has stopped: something is wrong with them, or they ask
for a text, such as the help. -/
inductive Stop where
  | usage (report : Text)
  | display (text : Text)
  deriving DecidableEq, Repr

def Stop.exitCode : Stop → Nat
  | usage _ => 2
  | display _ => 0

end HunkEdits.CommandLine
