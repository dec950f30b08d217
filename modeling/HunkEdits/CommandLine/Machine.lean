import HunkEdits.CommandLine.Run

/-!
# Machines made of data

A tree of files and directories without links, a working directory, and the three standard streams.
On it a command line can be run without touching anything else (`FileTree.runWith`).
-/

namespace HunkEdits.CommandLine

/-! ### Trees of files -/

inductive Node where
  | directory
  | file (bytes : ByteArray)

abbrev Route := List Text

/-- Files and directories by their routes.  The root is always there. -/
structure FileTree where
  nodes : List (Route × Node)

namespace FileTree

def node? (tree : FileTree) (route : Route) : Option Node :=
  if route.isEmpty then some .directory
  else (tree.nodes.find? fun n => n.1 == route).map Prod.snd

def enter (tree : FileTree) (route : Route) (name : Text) : Except IoFault Route :=
  match tree.node? route with
  | none => .error .notFound
  | some (.file _) => .error .notADirectory
  | some .directory =>
    if name.isEmpty || name == ['.'] then .ok route
    else if name == ['.', '.'] then .ok route.dropLast
    else if (tree.node? (route ++ [name])).isSome then .ok (route ++ [name])
    else .error .notFound

/-- The route of a path that is seen from a directory. -/
def route (tree : FileTree) (directory : Route) (path : Text) : Except IoFault Route :=
  match path with
  | [] => .error .notFound
  | '/' :: path => (path.splitOn '/').foldlM tree.enter []
  | path => (path.splitOn '/').foldlM tree.enter directory

def readAt (tree : FileTree) (route : Route) : Except IoFault ByteArray :=
  match tree.node? route with
  | none => .error .notFound
  | some .directory => .error .isADirectory
  | some (.file bytes) => .ok bytes

def pathOf (route : Route) : Text :=
  if route.isEmpty then ['/'] else route.flatMap fun name => '/' :: name

def update (tree : FileTree) (route : Route) (bytes : ByteArray) : FileTree :=
  ⟨tree.nodes.map fun n => if n.1 == route then (route, .file bytes) else n⟩

/-- The tree with other bytes in a file.  No file is made where there is none. -/
def writeAt (tree : FileTree) (route : Route) (bytes : ByteArray) : Except IoFault FileTree :=
  match tree.node? route with
  | none => .error .notFound
  | some .directory => .error .isADirectory
  | some (.file _) => .ok (tree.update route bytes)

end FileTree

/-! ### Machines -/

/-- A machine made of data. -/
structure Host where
  tree : FileTree
  /-- The working directory. -/
  directory : Route
  defaultConfig : Text
  /-- What is still to come through standard input, unless that is a terminal. -/
  stdin : Option ByteArray
  stdout : Text := []
  stderr : Text := []

namespace Host

def route (h : Host) (path : Text) : Except IoFault Route :=
  h.tree.route h.directory path

def readText (h : Host) (path : Text) : Except IoFault Text := do
  decode (← h.tree.readAt (← h.route path))

def resolve (h : Host) (path : Text) : Except IoFault Text := do
  return FileTree.pathOf (← h.route path)

/-- The machine after its standard input has been read. -/
def drained (h : Host) : Host :=
  { h with stdin := h.stdin.map fun _ => .empty }

def writeText (h : Host) (path t : Text) : Except IoFault Host := do
  return { h with tree := ← h.tree.writeAt (← h.route path) (encode t) }

end Host

instance : MonadHost (StateM Host) where
  defaultConfig := fun h => (h.defaultConfig, h)
  isPresent path := fun h => ((h.route path).isOk, h)
  readText path := fun h => (h.readText path, h)
  resolve path := fun h => (h.resolve path, h)
  readInput := fun h => (h.stdin.map decode, h.drained)
  writeText path t := fun h =>
    match h.writeText path t with
    | .ok h' => (.ok (), h')
    | .error fault => (.error fault, h)
  print t := fun h => ((), { h with stdout := h.stdout ++ t })
  report t := fun h => ((), { h with stderr := h.stderr ++ t })

/-! ### Runs -/

/-- What can be seen of a run from outside, but for files. -/
structure Outcome where
  exitCode : Nat
  stdout : Text
  stderr : Text
  deriving DecidableEq, Repr

namespace FileTree

/-- The machine with a tree, on which nothing has been printed yet. -/
def host (tree : FileTree) (directory : Route) (defaultConfig : Text) (stdin : Option ByteArray) :
    Host :=
  { tree, directory, defaultConfig, stdin }

/-- Runs a command line: its outcome, and the tree afterwards. -/
def runWith (lib : Libraries) (tree : FileTree) (directory : Route) (defaultConfig : Text)
    (stdin : Option ByteArray) (words : List Text) : Outcome × FileTree :=
  let result := (run lib words : StateM Host Nat) (tree.host directory defaultConfig stdin)
  (⟨result.1, result.2.stdout, result.2.stderr⟩, result.2.tree)

end FileTree

end HunkEdits.CommandLine
