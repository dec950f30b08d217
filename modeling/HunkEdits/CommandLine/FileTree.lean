import HunkEdits.CommandLine.Bundled
import HunkEdits.CommandLine.Machine

/-!
# Running on a tree of files

The program with the bundled readers, on machines made of data.
-/

namespace HunkEdits.CommandLine

/-- The configuration that a command line with these overrides has on a machine. -/
def Configuration.load (host : Host) (o : Overrides) : Except ConfigurationError Configuration :=
  let load : ExceptT ConfigurationError (StateM Host) Configuration :=
    loadWith Libraries.bundled.configuration o
  (load host).1

/-- Runs a command line: its outcome, and the tree afterwards. -/
def FileTree.run (tree : FileTree) (directory : Route) (defaultConfig : Text)
    (stdin : Option ByteArray) (words : List Text) : Outcome × FileTree :=
  tree.runWith .bundled directory defaultConfig stdin words

end HunkEdits.CommandLine
