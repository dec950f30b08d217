import HunkEdits.Text

/-!
# Decimal numbers

Numbers are written as ASCII digits and are bounded by the largest 64-bit word.  What `ofNat`
writes, `toNat?` reads (`toNat?_ofNat`).
-/

namespace HunkEdits.Text.Decimal

/-- The largest number that is read, which is the largest 64-bit word. -/
def limit : Nat := 18446744073709551615

/-- The digits of a number, without leading zeros. -/
def ofNat (n : Nat) : Text :=
  Nat.toDigits 10 n

/-- The number that a non-empty row of digits stands for, if it is not above `limit`. -/
def toNat? (t : Text) : Option Nat :=
  if t ≠ [] ∧ t.all Char.isDigit ∧ Nat.ofDigitChars 10 t 0 ≤ limit then
    some (Nat.ofDigitChars 10 t 0)
  else
    none

/-- The digits that a text starts with, and what follows them. -/
def span (t : Text) : Text × Text :=
  (t.takeWhile Char.isDigit, t.dropWhile Char.isDigit)

theorem toNat?_eq_some_iff {t : Text} {n : Nat} :
    toNat? t = some n ↔
      t ≠ [] ∧ t.all Char.isDigit ∧ Nat.ofDigitChars 10 t 0 = n ∧ n ≤ limit := by
  unfold toNat?
  split <;> rename_i h
  · simp only [Option.some.injEq]
    constructor
    · rintro rfl; exact ⟨h.1, h.2.1, rfl, h.2.2⟩
    · exact fun h' => h'.2.2.1
  · simp only [reduceCtorEq, false_iff]
    rintro ⟨h1, h2, rfl, h3⟩
    exact h ⟨h1, h2, h3⟩

theorem ofNat_ne_nil (n : Nat) : ofNat n ≠ [] := by
  simp [ofNat]

theorem isDigit_of_mem_ofNat {n : Nat} {c : Char} (h : c ∈ ofNat n) : c.isDigit = true :=
  Nat.isDigit_of_mem_toDigits (by decide) (by decide) h

theorem toNat?_ofNat {n : Nat} (h : n ≤ limit) : toNat? (ofNat n) = some n :=
  toNat?_eq_some_iff.2 ⟨ofNat_ne_nil n, List.all_eq_true.2 fun _ => isDigit_of_mem_ofNat,
    Nat.ofDigitChars_toDigits (by decide) (by decide), h⟩

theorem ofNat_eq_zero_iff {n : Nat} : ofNat n = ['0'] ↔ n = 0 := by
  constructor
  · intro h
    have h' : Nat.ofDigitChars 10 (ofNat n) 0 = n :=
      Nat.ofDigitChars_toDigits (by decide) (by decide)
    rw [h] at h'
    exact h'.symm
  · rintro rfl
    rfl

/-- Digits before a text that does not go on with a digit are split off whole. -/
theorem span_append {ds t : Text} (hd : ∀ c ∈ ds, c.isDigit = true)
    (h : ∀ c ∈ t.head?, c.isDigit = false) : span (ds ++ t) = (ds, t) := by
  unfold span
  rw [List.takeWhile_append_of_pos hd, List.dropWhile_append_of_pos hd]
  cases t with
  | nil => simp
  | cons c t => simp [h c (by simp)]

theorem span_ofNat_append {n : Nat} {t : Text} (h : ∀ c ∈ t.head?, c.isDigit = false) :
    span (ofNat n ++ t) = (ofNat n, t) :=
  span_append (fun _ => isDigit_of_mem_ofNat) h

end HunkEdits.Text.Decimal
