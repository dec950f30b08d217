import HunkEdits.Position
import HunkEdits.Text.Line

/-!
# Documents

A document is a text held as its raw lines together with the bytes at which they start.  It answers
three questions: at which byte a line starts (`lineStart_ofText`), what a line says
(`line?_ofText`), and at which byte a position lies.  A position past the end of a line means the
end of the line, and a line past the last one means the end of the text.
-/

namespace HunkEdits

/-- A text cut into its raw lines. -/
structure Document where
  rawLines : Array Text
  /-- The byte at which each raw line starts. -/
  starts : Array Nat
  size : Nat

namespace Document

/-- Puts one more raw line behind those whose starts and size are known. -/
def addStart (s : Array Nat × Nat) (raw : Text) : Array Nat × Nat :=
  (s.1.push s.2, s.2 + Text.bytes raw)

def ofText (t : Text) : Document :=
  let raw := Text.rawLines t
  let s := raw.foldl addStart (#[], 0)
  ⟨raw.toArray, s.1, s.2⟩

def text (d : Document) : Text :=
  d.rawLines.toList.flatten

/-- The byte at which line `k` starts, or the size of the text if there is no such line. -/
def lineStart (d : Document) (k : Nat) : Nat :=
  d.starts[k]?.getD d.size

/-- What line `k` says, without its terminator. -/
def line? (d : Document) (k : Nat) : Option Text :=
  d.rawLines[k]?.map Text.lineText

/-- The byte at which a column lies in a line that starts at `start`: after the shortest leading
part of the line that is at least `n` code units wide, or at the end of the line. -/
def columnOffset (e : Encoding) (start n : Nat) : Text → Nat
  | [] => start
  | c :: t => if n = 0 then start else columnOffset e (start + c.utf8Size) (n - e.width c) t

def offsetAt (d : Document) (e : Encoding) (p : Position) : Nat :=
  columnOffset e (d.lineStart p.line) p.character ((d.line? p.line).getD [])

/-! ### The document of a text -/

@[simp] theorem rawLines_ofText (t : Text) : (ofText t).rawLines = (Text.rawLines t).toArray := rfl

@[simp] theorem text_ofText (t : Text) : (ofText t).text = t := by
  simp [text]

theorem line?_ofText (t : Text) (k : Nat) :
    (ofText t).line? k = (Text.rawLines t)[k]?.map Text.lineText := by
  simp [line?]

private theorem getD_foldl_addStart (raw : List Text) (s : Array Nat × Nat) (k : Nat) :
    (raw.foldl addStart s).1[k]?.getD (raw.foldl addStart s).2 =
      s.1[k]?.getD (s.2 + Text.bytes (raw.take (k - s.1.size)).flatten) := by
  induction raw generalizing s with
  | nil => simp
  | cons l raw ih =>
    rw [List.foldl_cons, ih, addStart, Array.getElem?_push]
    split
    · subst k; simp
    · by_cases h : k < s.1.size
      · simp [h]
      · obtain ⟨j, hj⟩ : ∃ j, k - s.1.size = j + 1 := ⟨k - s.1.size - 1, by omega⟩
        rw [Array.size_push, hj, show k - (s.1.size + 1) = j by omega]
        simp [h, Nat.add_assoc]

/-- A line starts where the lines before it end. -/
theorem lineStart_ofText (t : Text) (k : Nat) :
    (ofText t).lineStart k = Text.bytes ((Text.rawLines t).take k).flatten := by
  have := getD_foldl_addStart (Text.rawLines t) (#[], 0) k
  simpa [lineStart, ofText] using this

theorem offsetAt_ofLine (d : Document) (e : Encoding) (k : Nat) :
    d.offsetAt e (.ofLine k) = d.lineStart k := by
  unfold offsetAt
  cases (d.line? (Position.ofLine k).line).getD [] <;> simp [columnOffset, Position.ofLine]

end Document

end HunkEdits
