import HunkEdits.Error

/-!
# Hosts

What a command can ask of the machine it runs on, and do to it.  A command is written over an
unknown monad with these primitives (`MonadHost`), so that it can do nothing else.
-/

namespace HunkEdits.CommandLine

inductive IoFault where
  | notFound
  | notADirectory
  | isADirectory
  | notText
  | other (message : Text)
  deriving DecidableEq, Repr

def IoFault.message : IoFault → Text
  | notFound => "No such file or directory (os error 2)".toList
  | notADirectory => "Not a directory (os error 20)".toList
  | isADirectory => "Is a directory (os error 21)".toList
  | notText => "stream did not contain valid UTF-8".toList
  | other message => message

def decode (bytes : ByteArray) : Except IoFault Text :=
  match String.fromUTF8? bytes with
  | some s => .ok s.toList
  | none => .error .notText

def encode (t : Text) : ByteArray :=
  (String.ofList t).toUTF8

/-- The machine, as a command sees it. -/
class MonadHost (m : Type → Type) where
  /-- The path of the configuration that is used when none is named. -/
  defaultConfig : m Text
  /-- Whether there is anything at a path. -/
  isPresent : Text → m Bool
  readText : Text → m (Except IoFault Text)
  /-- The absolute path, without links and detours, of what is at a path. -/
  resolve : Text → m (Except IoFault Text)
  /-- What comes through standard input, unless that is a terminal. -/
  readInput : m (Option (Except IoFault Text))
  /-- Puts a text in the place of what a file holds. -/
  writeText : Text → Text → m (Except IoFault Unit)
  /-- Writes to standard output. -/
  print : Text → m Unit
  /-- Writes to standard error. -/
  report : Text → m Unit

end HunkEdits.CommandLine
