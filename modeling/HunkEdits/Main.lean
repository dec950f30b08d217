import HunkEdits.CommandLine.Bundled

/-!
# The program

The primitives of a command on the machine that the program runs on.
-/

namespace HunkEdits.CommandLine

/-- The fault that an error of the system stands for. -/
private def faultOf : IO.Error → IoFault
  | .noFileOrDirectory .. => .notFound
  | .inappropriateType _ code _ => if code = 21 || code = -21 then .isADirectory else .notADirectory
  | .permissionDenied .. => .other "Permission denied (os error 13)".toList
  | e => .other e.toString.toList

/-- The result of an action, with its fault if it fails. -/
private def attempt {α : Type} (action : IO α) : BaseIO (Except IoFault α) := do
  match ← action.toBaseIO with
  | .ok a => return .ok a
  | .error e => return .error (faultOf e)

/-- The bytes of a stream up to its end, after those already read. -/
private partial def readAll (stream : IO.FS.Stream) (read : ByteArray) : IO ByteArray := do
  let chunk ← stream.read 65536
  if chunk.isEmpty then return read else readAll stream (read ++ chunk)

instance : MonadHost IO where
  defaultConfig := do
    let home := (← IO.getEnv "HOME").map String.toList
    let configHome := (← IO.getEnv "XDG_CONFIG_HOME").map String.toList
    return Configuration.defaultPath configHome home
  isPresent path := do
    ((← IO.currentDir) / String.ofList path).pathExists
  readText path := do
    return (← attempt (IO.FS.readBinFile (String.ofList path))).bind decode
  resolve path :=
    attempt do return (← IO.FS.realPath (String.ofList path)).toString.toList
  readInput := do
    let stdin ← IO.getStdin
    if ← stdin.isTty then return none
    return some ((← attempt (readAll stdin .empty)).bind decode)
  writeText path t :=
    attempt (IO.FS.writeFile (String.ofList path) (String.ofList t))
  print t := do
    let stdout ← IO.getStdout
    stdout.putStr (String.ofList t)
    stdout.flush
  report t := do
    (← IO.getStderr).putStr (String.ofList t)

end HunkEdits.CommandLine

open HunkEdits.CommandLine in
def main (args : List String) : IO UInt32 := do
  let exitCode ← (run .bundled (args.map String.toList) : IO Nat)
  return exitCode.toUInt32
