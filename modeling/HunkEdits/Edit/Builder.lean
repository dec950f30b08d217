import HunkEdits.Edit
import HunkEdits.Error

/-!
# Building edits

A builder takes deletions and insertions one by one and merges neighbours into one edit: deletions
run together, insertions run together, and deletions followed by insertions replace.  `close` ends
the edit that is pending; kept lines do that.  A deletion after an insertion that is still pending
fails, and takes the pending edit with it.
-/

namespace HunkEdits

/-- The edit that is being built.  Inserted texts are held newest first. -/
inductive Pending where
  | idle
  | deleting (start stop : Position)
  | inserting (start : Position) (texts : List Text)
  | replacing (start stop : Position) (texts : List Text)
  deriving DecidableEq, Repr

def Pending.joined (texts : List Text) : Text :=
  texts.reverse.flatten

/-- The edit that has been built, if there is one. -/
def Pending.edit? : Pending → Option Edit
  | idle => none
  | deleting start stop => some (.delete start stop)
  | inserting start texts => some (.insert start (joined texts))
  | replacing start stop texts => some (.replace start stop (joined texts))

/-- The edits that are done, and the one that is pending. -/
structure Builder where
  pending : Pending := .idle
  closed : Array Edit := #[]
  deriving DecidableEq, Repr

namespace Builder

def delete (b : Builder) (start stop : Position) : Except PatchError Builder :=
  match b.pending with
  | .idle => .ok { b with pending := .deleting start stop }
  | .deleting first _ => .ok { b with pending := .deleting first stop }
  | .inserting first _ | .replacing first _ _ => .error (.deletionAfterInsertion start first)

def insert (b : Builder) (start : Position) (text : Text) : Builder :=
  match b.pending with
  | .idle => { b with pending := .inserting start [text] }
  | .deleting first stop => { b with pending := .replacing first stop [text] }
  | .inserting first texts => { b with pending := .inserting first (text :: texts) }
  | .replacing first stop texts => { b with pending := .replacing first stop (text :: texts) }

def discard (b : Builder) : Builder :=
  { b with pending := .idle }

/-- Ends the pending edit. -/
def close (b : Builder) : Builder :=
  match b.pending.edit? with
  | some e => ⟨.idle, b.closed.push e⟩
  | none => b.discard

/-- The edits that the builder has made if it ends here. -/
def finish (b : Builder) : List Edit :=
  b.close.closed.toList

/-! ### Runs of steps -/

inductive Step where
  | delete (start stop : Position)
  | insert (start : Position) (text : Text)
  | close
  deriving DecidableEq, Repr

/-- Does one step.  A step that fails leaves the builder without a pending edit. -/
def step (b : Builder) : Step → Builder × Option PatchError
  | .delete start stop =>
    match b.delete start stop with
    | .ok b' => (b', none)
    | .error e => (b.discard, some e)
  | .insert start text => (b.insert start text, none)
  | .close => (b.close, none)

/-- Does steps in order, going on after those that fail. -/
def run (b : Builder) (steps : List Step) : Builder :=
  steps.foldl (fun b s => (b.step s).1) b

/-- What each step comes to: the edits if the builder ended after it, and its error. -/
def trace (b : Builder) : List Step → List (List Edit × Option PatchError)
  | [] => []
  | s :: steps =>
    let (b', e) := b.step s
    (b'.finish, e) :: trace b' steps

end Builder

end HunkEdits
