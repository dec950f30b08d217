import HunkEdits.Text

/-!
# Lines

A *raw line* is a piece of a text that runs up to and including a line feed; only the last one may
lack it.  The raw lines of a text put together again are the text (`flatten_rawLines`).

What counts as the content of a raw line is asked in two ways.  `lineContent` takes the terminator
off, and the terminator is a line feed or a carriage return and a line feed.  `lineText` also takes
off a carriage return that ends an unterminated last line.
-/

namespace HunkEdits.Text

/-- Puts one more character in front of a list of raw lines. -/
def consRaw (c : Char) : List Text → List Text
  | [] => [[c]]
  | l :: ls => if c = '\n' then [c] :: l :: ls else (c :: l) :: ls

/-- The pieces of a text cut after each line feed. -/
def rawLines (t : Text) : List Text :=
  t.foldr consRaw []

def lineContent (raw : Text) : Text :=
  if raw.getLast? = some '\n' then dropFinal '\r' raw.dropLast else raw

/-- A raw line without its terminator and without a carriage return at the very end. -/
def lineText (raw : Text) : Text :=
  dropFinal '\r' (dropFinal '\n' raw)

/-- The contents of the lines of a text, in order. -/
def lines (t : Text) : List Text :=
  (rawLines t).map lineContent

/-! ### Raw lines -/

@[simp] theorem rawLines_nil : rawLines [] = [] := rfl

@[simp] theorem rawLines_cons (c : Char) (t : Text) :
    rawLines (c :: t) = consRaw c (rawLines t) := rfl

theorem consRaw_ne_nil (c : Char) (ls : List Text) : consRaw c ls ≠ [] := by
  cases ls with
  | nil => simp [consRaw]
  | cons l ls => simp only [consRaw]; split <;> simp

theorem rawLines_newline_cons (t : Text) : rawLines ('\n' :: t) = ['\n'] :: rawLines t := by
  rw [rawLines_cons]
  cases rawLines t <;> simp [consRaw]

/-- The raw lines of a text make up the text. -/
@[simp] theorem flatten_rawLines (t : Text) : (rawLines t).flatten = t := by
  induction t with
  | nil => rfl
  | cons c t ih =>
    rw [rawLines_cons]
    cases h : rawLines t with
    | nil => simp_all [consRaw]
    | cons l ls =>
      rw [h] at ih
      simp only [consRaw]
      split <;> simp_all

theorem exists_rawLines_newline_eq_cons (s : Text) :
    ∃ l ls, rawLines (s ++ ['\n']) = l :: ls := by
  cases s with
  | nil => exact ⟨_, _, rfl⟩
  | cons c s => exact List.exists_cons_of_ne_nil (consRaw_ne_nil c _)

/-- After a line feed a new raw line begins. -/
theorem rawLines_append_newline (s t : Text) :
    rawLines (s ++ '\n' :: t) = rawLines (s ++ ['\n']) ++ rawLines t := by
  induction s with
  | nil => rw [List.nil_append, List.nil_append, rawLines_newline_cons, rawLines_newline_cons]; rfl
  | cons c s ih =>
    obtain ⟨l, ls, h⟩ := exists_rawLines_newline_eq_cons s
    rw [List.cons_append, List.cons_append, rawLines_cons, rawLines_cons, ih, h]
    simp only [List.cons_append, consRaw]
    split <;> rfl

end HunkEdits.Text
