import HunkEdits.Hunk
import HunkEdits.Text.Blank
import HunkEdits.Text.Decimal

/-!
# Hunk headers

A header is written `@@ -A,B +C,D @@`, where either length may be left out.  After the closing mark
the line ends, or a blank follows and then anything but a line feed.

On each side the written start counts from one, except that a length written `0` names the line
*before* the empty stretch, which is the start counted from zero.  A line that frames two sides is
read if both sides are (`parse?_frame`).
-/

namespace HunkEdits

structure Header where
  old : LineSpan
  new : LineSpan
  deriving DecidableEq, Repr

def Hunk.header (h : Hunk) : Header :=
  ⟨h.old, h.new⟩

namespace Header

open Text

/-! ### Reading -/

/-- The span that a written start and a written length stand for. -/
def resolve? (start : Text) (length : Option Text) : Option LineSpan := do
  let start ← Decimal.toNat? start
  match length with
  | none => if start = 0 then none else some ⟨start - 1, 1⟩
  | some length =>
    if length = ['0'] then some ⟨start, 0⟩
    else if start = 0 then none
    else (Decimal.toNat? length).map fun count => ⟨start - 1, count⟩

/-- Reads a start and, after a comma, a length; gives what follows them. -/
def range? (t : Text) : Option (LineSpan × Text) :=
  let (start, rest) := Decimal.span t
  match rest with
  | ',' :: rest =>
    let (length, rest) := Decimal.span rest
    (resolve? start (some length)).map fun s => (s, rest)
  | rest => (resolve? start none).map fun s => (s, rest)

/-- Whether nothing follows the closing mark but a blank and a section name. -/
def isTail : Text → Bool
  | [] => true
  | c :: t => isBlank c && !t.contains '\n'

def parse? (line : Text) : Option Header := do
  let (old, t) ← range? (← dropLead? ['@', '@', ' ', '-'] line)
  let (new, t) ← range? (← dropLead? [' ', '+'] t)
  let t ← dropLead? [' ', '@', '@'] t
  if isTail t then some ⟨old, new⟩ else none

/-! ### Writing -/

/-- The number by which the start of a span is written. -/
def writtenStart (s : LineSpan) : Nat :=
  if s.count = 0 then s.start else s.start + 1

def writeSpan (s : LineSpan) : Text :=
  Decimal.ofNat (writtenStart s) ++ [','] ++ Decimal.ofNat s.count

/-- One side of a header, where the length is left out if it is one. -/
def writeShortSpan (s : LineSpan) : Text :=
  if s.count = 1 then Decimal.ofNat (writtenStart s) else writeSpan s

/-- A header whose sides are written, with the text that follows its closing mark. -/
def frame (old new tail : Text) : Text :=
  ['@', '@', ' ', '-'] ++ old ++ [' ', '+'] ++ new ++ [' ', '@', '@'] ++ tail

/-- A header with both lengths and nothing after its closing mark. -/
def write (h : Header) : Text :=
  frame (writeSpan h.old) (writeSpan h.new) []

/-- Whether the numbers of a span can be written within the limit of those that are read. -/
def Fits (s : LineSpan) : Prop :=
  writtenStart s ≤ Decimal.limit ∧ s.count ≤ Decimal.limit

/-! ### What is framed can be read -/

theorem dropLead?_append (lead t : Text) : dropLead? lead (lead ++ t) = some t :=
  dropLead?_eq_some_iff.2 rfl

/-- A header is read from its sides, where each of them is read. -/
theorem parse?_frame {old new tail : Text} {h : Header}
    (hold : ∀ t, range? (old ++ ' ' :: t) = some (h.old, ' ' :: t))
    (hnew : ∀ t, range? (new ++ ' ' :: t) = some (h.new, ' ' :: t)) (ht : isTail tail = true) :
    parse? (frame old new tail) = some h := by
  have e : frame old new tail = ['@', '@', ' ', '-'] ++ (old ++ ' ' :: '+' :: (new ++ ' ' :: '@' ::
      '@' :: tail)) := by
    simp [frame]
  have e₁ (t : Text) : dropLead? [' ', '+'] (' ' :: '+' :: t) = some t := dropLead?_append _ t
  have e₂ (t : Text) : dropLead? [' ', '@', '@'] (' ' :: '@' :: '@' :: t) = some t :=
    dropLead?_append _ t
  rw [parse?, e, dropLead?_append]
  simp [hold, hnew, e₁, e₂, ht]

end Header

end HunkEdits
