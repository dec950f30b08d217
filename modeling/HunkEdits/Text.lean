/-!
# Texts and their bytes

A text is a list of characters.  Offsets into it are counted in UTF-8 bytes and always fall between
two characters: `splitBytes n t` cuts `t` after its longest leading part of at most `n` bytes, and
cuts `p ++ s` after `p` when `n` is the size of `p` (`splitBytes_append`).
-/

namespace HunkEdits

/-- How many words of 64 bits there are.  Bytes and lines are counted in such words, which can count
those of every text that is in memory; they need not reach for the lines that a patch names. -/
def wordBound : Nat := 0x10000000000000000

/-- A text, as its characters. -/
abbrev Text := List Char

namespace Text

/-- The number of bytes of the UTF-8 form of a text. -/
def bytes (t : Text) : Nat :=
  t.foldl (fun n c => n + c.utf8Size) 0

/-- A text cut in two: the longest leading part of at most `n` bytes, and what follows it. -/
def splitBytes (n : Nat) (t : Text) : Text × Text :=
  go n [] t
where
  /-- Moves characters that still fit from the second text to the (reversed) first one. -/
  go (n : Nat) (taken : Text) : Text → Text × Text
    | [] => (taken.reverse, [])
    | c :: t =>
      if c.utf8Size ≤ n then go (n - c.utf8Size) (c :: taken) t else (taken.reverse, c :: t)

/-- What follows `lead` in a text that starts with it. -/
def dropLead? : (lead t : Text) → Option Text
  | [], t => some t
  | _ :: _, [] => none
  | a :: lead, c :: t => if a = c then dropLead? lead t else none

def startsWith (lead t : Text) : Bool :=
  (dropLead? lead t).isSome

/-- What comes before `tail` in a text that ends with it. -/
def dropTail? (tail t : Text) : Option Text :=
  (dropLead? tail.reverse t.reverse).map List.reverse

/-- The text without its last character where that is `c`. -/
def dropFinal (c : Char) (t : Text) : Text :=
  if t.getLast? = some c then t.dropLast else t

/-! ### Bytes -/

private theorem foldl_utf8Size (t : Text) (n : Nat) :
    t.foldl (fun n c => n + c.utf8Size) n = n + bytes t := by
  unfold bytes
  induction t generalizing n with
  | nil => simp
  | cons c t ih => simp only [List.foldl_cons]; rw [ih, ih (0 + c.utf8Size)]; omega

@[simp] theorem bytes_nil : bytes [] = 0 := rfl

@[simp] theorem bytes_cons (c : Char) (t : Text) : bytes (c :: t) = c.utf8Size + bytes t := by
  rw [bytes, List.foldl_cons, foldl_utf8Size]; omega

@[simp] theorem bytes_append (s t : Text) : bytes (s ++ t) = bytes s + bytes t := by
  induction s with
  | nil => simp
  | cons c s ih => simp [ih, Nat.add_assoc]

theorem bytes_eq_zero_iff {t : Text} : bytes t = 0 ↔ t = [] := by
  cases t with
  | nil => simp
  | cons c t =>
    have := c.utf8Size_pos
    simp only [bytes_cons, reduceCtorEq, iff_false]
    omega

/-! ### Cutting at a byte offset -/

private theorem splitBytes_go (p s taken : Text) :
    splitBytes.go (bytes p) taken (p ++ s) = splitBytes.go 0 (p.reverse ++ taken) s := by
  induction p generalizing taken with
  | nil => simp
  | cons c p ih => simp [splitBytes.go, ih]

/-- A cut at the size of a leading part gives that part. -/
@[simp] theorem splitBytes_append (p s : Text) : splitBytes (bytes p) (p ++ s) = (p, s) := by
  rw [splitBytes, splitBytes_go p s []]
  cases s with
  | nil => simp [splitBytes.go]
  | cons c s =>
    have := c.utf8Size_pos
    simp [splitBytes.go, Nat.ne_of_gt this]

/-! ### Leading and trailing parts -/

theorem dropLead?_eq_some_iff {lead t rest : Text} :
    dropLead? lead t = some rest ↔ t = lead ++ rest := by
  induction lead generalizing t with
  | nil => simp [dropLead?, eq_comm]
  | cons a lead ih =>
    cases t with
    | nil => simp [dropLead?]
    | cons c t =>
      by_cases h : a = c
      · simp [dropLead?, h, ih]
      · simp [dropLead?, h, Ne.symm h]

theorem startsWith_iff {lead t : Text} :
    startsWith lead t = true ↔ ∃ rest, t = lead ++ rest := by
  simp [startsWith, Option.isSome_iff_exists, dropLead?_eq_some_iff]

theorem dropTail?_eq_some_iff {tail t front : Text} :
    dropTail? tail t = some front ↔ t = front ++ tail := by
  simp only [dropTail?, Option.map_eq_some_iff, dropLead?_eq_some_iff]
  constructor
  · rintro ⟨r, h, rfl⟩
    simpa using congrArg List.reverse h
  · rintro rfl
    exact ⟨front.reverse, by simp⟩

end Text

end HunkEdits
