import HunkEdits.CommandLine.FileTree
import HunkEdits.Edit.Splice
import HunkEdits.Hunk.LinePatch
import HunkEdits.Hunk.Run
import HunkEdits.Main
import HunkEdits.Patch.Printer
import HunkEdits.Proofs.Concatenation
import HunkEdits.Proofs.Context
import HunkEdits.Proofs.EditJson
import HunkEdits.Proofs.EditorEdits
import HunkEdits.Proofs.ExactOffset
import HunkEdits.Proofs.HeaderGrammar
import HunkEdits.Proofs.HunkOrder
import HunkEdits.Proofs.LineEdits
import HunkEdits.Proofs.LineTable
import HunkEdits.Proofs.OneByOne
import HunkEdits.Proofs.OneHunk
import HunkEdits.Proofs.Rendering
import HunkEdits.Proofs.RoundTrip
import HunkEdits.Proofs.Segments
import HunkEdits.Proofs.Splicing
import HunkEdits.Proofs.SubLine
