import HunkEdits.Text

/-!
# Positions

A position names a line and a column, both counted from zero.  Columns are counted in the code units
of an `Encoding`.  `Position.advance` reads a text from a position on.

Lines are counted in words of 64 bits, and behind the greatest word the count goes on with 0.  As
long as it does not get there, reading on never leads back (`Position.le_advance`); and it never
gets there inside a text that is in memory, but may where a patch names a line behind its end.
-/

namespace HunkEdits

/-- The unit in which columns are counted. -/
inductive Encoding where
  | utf8
  | utf16
  | utf32
  deriving DecidableEq, Repr

def Encoding.width : Encoding → Char → Nat
  | .utf8, c => c.utf8Size
  | .utf16, c => if c.toNat < 0x10000 then 1 else 2
  | .utf32, _ => 1

theorem Encoding.width_pos (e : Encoding) (c : Char) : 0 < e.width c := by
  cases e with
  | utf8 => exact c.utf8Size_pos
  | utf16 => simp only [width]; split <;> decide
  | utf32 => exact Nat.one_pos

/-- A line and a column in it, both counted from zero. -/
structure Position where
  line : Nat
  character : Nat
  deriving DecidableEq, Repr

namespace Position

/-- Positions are ordered by line and, within a line, by column. -/
instance : LE Position where
  le p q := p.line < q.line ∨ p.line = q.line ∧ p.character ≤ q.character

instance (p q : Position) : Decidable (p ≤ q) :=
  inferInstanceAs (Decidable (_ ∨ _))

/-- The start of a line. -/
def ofLine (line : Nat) : Position :=
  ⟨line, 0⟩

/-- The start of the line that a count of lines comes to, which is kept in a word. -/
def anchor (line : Nat) : Position :=
  ofLine (line % wordBound)

def step (e : Encoding) (p : Position) (c : Char) : Position :=
  if c = '\n' then anchor (p.line + 1) else ⟨p.line, p.character + e.width c⟩

/-- The position after a text that begins at `p`. -/
def advance (e : Encoding) (p : Position) (t : Text) : Position :=
  t.foldl (step e) p

def sort (ps : List Position) : List Position :=
  ps.mergeSort fun p q => decide (p ≤ q)

/-! ### The order -/

theorem le_def {p q : Position} :
    p ≤ q ↔ p.line < q.line ∨ p.line = q.line ∧ p.character ≤ q.character := Iff.rfl

theorem le_refl (p : Position) : p ≤ p :=
  .inr ⟨rfl, Nat.le_refl _⟩

theorem le_trans {p q r : Position} (h₁ : p ≤ q) (h₂ : q ≤ r) : p ≤ r := by
  rw [le_def] at *
  omega

theorem le_total (p q : Position) : p ≤ q ∨ q ≤ p := by
  rw [le_def, le_def]
  omega

theorem line_le_of_le {p q : Position} (h : p ≤ q) : p.line ≤ q.line := by
  rw [le_def] at h
  omega

theorem ofLine_le_ofLine {k m : Nat} : ofLine k ≤ ofLine m ↔ k ≤ m := by
  rw [le_def]
  simp only [ofLine]
  omega

/-! ### Counting lines -/

theorem anchor_of_lt {k : Nat} (h : k < wordBound) : anchor k = ofLine k := by
  rw [anchor, Nat.mod_eq_of_lt h]

theorem line_anchor_lt (k : Nat) : (anchor k).line < wordBound :=
  Nat.mod_lt k (by decide)

/-- It does not matter when a count is brought into a word. -/
theorem anchor_line_add (k n : Nat) : anchor ((anchor k).line + n) = anchor (k + n) :=
  congrArg ofLine (Nat.mod_add_mod k wordBound n)

/-! ### Advancing -/

@[simp] theorem advance_nil (e : Encoding) (p : Position) : p.advance e [] = p := rfl

@[simp] theorem advance_cons (e : Encoding) (p : Position) (c : Char) (t : Text) :
    p.advance e (c :: t) = (p.step e c).advance e t := rfl

theorem advance_append (e : Encoding) (p : Position) (s t : Text) :
    p.advance e (s ++ t) = (p.advance e s).advance e t :=
  List.foldl_append

theorem step_newline (e : Encoding) (p : Position) : p.step e '\n' = anchor (p.line + 1) :=
  if_pos rfl

theorem step_of_ne {c : Char} (h : c ≠ '\n') (e : Encoding) (p : Position) :
    p.step e c = ⟨p.line, p.character + e.width c⟩ :=
  if_neg h

theorem anchor_advance (e : Encoding) (p : Position) (t : Text) (n : Nat) :
    anchor ((p.advance e t).line + n) = anchor (p.line + t.count '\n' + n) := by
  induction t generalizing p with
  | nil => rfl
  | cons c t ih =>
    rw [advance_cons, ih]
    by_cases hc : c = '\n'
    · subst hc
      rw [step_newline, List.count_cons_self, Nat.add_assoc, anchor_line_add]
      congr 1
      omega
    · rw [step_of_ne hc, List.count_cons_of_ne hc]

/-- As long as the count stays within a word, each line feed adds one to it. -/
theorem line_advance {e : Encoding} {p : Position} {t : Text}
    (h : p.line + t.count '\n' < wordBound) :
    (p.advance e t).line = p.line + t.count '\n' := by
  induction t generalizing p with
  | nil => rfl
  | cons c t ih =>
    rw [advance_cons]
    by_cases hc : c = '\n'
    · subst hc
      rw [List.count_cons_self, Nat.add_comm _ 1, ← Nat.add_assoc] at h ⊢
      rw [step_newline, anchor_of_lt (Nat.lt_of_le_of_lt (Nat.le_add_right _ _) h)]
      exact ih h
    · rw [List.count_cons_of_ne hc] at h ⊢
      rw [step_of_ne hc]
      exact ih h

/-- Reading on never leads back, as long as the count of lines stays within a word. -/
theorem le_advance {e : Encoding} {p : Position} {t : Text}
    (h : p.line + t.count '\n' < wordBound) : p ≤ p.advance e t := by
  induction t generalizing p with
  | nil => exact le_refl p
  | cons c t ih =>
    rw [advance_cons]
    by_cases hc : c = '\n'
    · subst hc
      rw [List.count_cons_self, Nat.add_comm _ 1, ← Nat.add_assoc] at h
      rw [step_newline, anchor_of_lt (Nat.lt_of_le_of_lt (Nat.le_add_right _ _) h)]
      have hc : p ≤ ofLine (p.line + 1) := .inl (Nat.lt_succ_self _)
      exact le_trans hc (ih h)
    · rw [List.count_cons_of_ne hc] at h
      rw [step_of_ne hc]
      have hc : p ≤ ⟨p.line, p.character + e.width c⟩ := .inr ⟨rfl, Nat.le_add_right _ _⟩
      exact le_trans hc (ih h)

end Position

end HunkEdits
