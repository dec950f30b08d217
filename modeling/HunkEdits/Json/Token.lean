import HunkEdits.Json

/-!
# JSON tokens

A JSON text is a row of tokens with blanks around them.  `scan` cuts a text into its tokens.
Strings may hold no bare control character.  A string in which half of a surrogate pair stands
alone is a token, but no text.
-/

namespace HunkEdits.Json

open Text

inductive Token where
  | openArr
  | closeArr
  | openObj
  | closeObj
  | comma
  | colon
  /-- A string, and the text that it stands for, if it is one. -/
  | string (t : Option Text)
  /-- A value that is a word or a number. -/
  | scalar (v : Json)

/-- The blanks that may stand between tokens. -/
def isSpace (c : Char) : Bool :=
  c == ' ' || c == '\t' || c == '\n' || c == '\r'

/-! ### Strings -/

/-- The value of a hexadecimal digit of either case. -/
def hexValue? (c : Char) : Option Nat :=
  if c.isDigit then some (c.toNat - '0'.toNat)
  else if 'a' ≤ c ∧ c ≤ 'f' then some (c.toNat - 'a'.toNat + 10)
  else if 'A' ≤ c ∧ c ≤ 'F' then some (c.toNat - 'A'.toNat + 10)
  else none

def unit? : Text → Option (Nat × Text)
  | a :: b :: c :: d :: t => do
    let a ← hexValue? a
    let b ← hexValue? b
    let c ← hexValue? c
    let d ← hexValue? d
    return (((a * 16 + b) * 16 + c) * 16 + d, t)
  | _ => none

/-- Reads an escape that is the trailing half of a surrogate pair. -/
def trailing? (t : Text) : Option (Nat × Text) := do
  let (unit, t) ← unit? (← dropLead? ['\\', 'u'] t)
  if 0xdc00 ≤ unit ∧ unit < 0xe000 then some (unit, t) else none

/-- Reads the digits of an escape, and a second escape if both make up a surrogate pair.  Half of a
pair is no character. -/
def codePoint? (t : Text) : Option (Option Char × Text) := do
  let (unit, t) ← unit? t
  if unit < 0xd800 ∨ 0xe000 ≤ unit then
    return (some (Char.ofNat unit), t)
  else if unit < 0xdc00 then
    match trailing? t with
    | some (low, t) =>
      return (some (Char.ofNat (0x10000 + (unit - 0xd800) * 0x400 + (low - 0xdc00))), t)
    | none => return (none, t)
  else
    return (none, t)

def escape? : Text → Option (Option Char × Text)
  | [] => none
  | c :: t =>
    if c = '"' ∨ c = '\\' ∨ c = '/' then some (c, t)
    else if c = 'b' then some ('\x08', t)
    else if c = 'f' then some ('\x0c', t)
    else if c = 'n' then some ('\n', t)
    else if c = 'r' then some ('\r', t)
    else if c = 't' then some ('\t', t)
    else if c = 'u' then codePoint? t
    else none

theorem length_lt_of_unit? {t r : Text} {n : Nat} (h : unit? t = some (n, r)) :
    r.length < t.length := by
  match t with
  | a :: b :: c :: d :: t =>
    simp only [unit?, Option.bind_eq_bind, Option.bind_eq_some_iff, Option.pure_def,
      Option.some.injEq, Prod.mk.injEq] at h
    obtain ⟨_, _, _, _, _, _, _, _, _, rfl⟩ := h
    simp only [List.length_cons]
    omega
  | [] | [_] | [_, _] | [_, _, _] => simp [unit?] at h

theorem length_lt_of_trailing? {t r : Text} {n : Nat} (h : trailing? t = some (n, r)) :
    r.length < t.length := by
  simp only [trailing?, Option.bind_eq_bind, Option.bind_eq_some_iff, Prod.exists] at h
  obtain ⟨t₁, h₁, unit, t₂, h₂, h⟩ := h
  have hlt := length_lt_of_unit? h₂
  have := congrArg List.length (dropLead?_eq_some_iff.1 h₁)
  simp only [List.length_append, List.length_cons, List.length_nil] at this
  split at h
  · simp only [Option.some.injEq, Prod.mk.injEq] at h
    obtain ⟨_, rfl⟩ := h
    omega
  · simp at h

theorem length_lt_of_codePoint? {t r : Text} {c : Option Char}
    (h : codePoint? t = some (c, r)) : r.length < t.length := by
  simp only [codePoint?, Option.bind_eq_bind, Option.bind_eq_some_iff, Prod.exists,
    Option.pure_def] at h
  obtain ⟨unit, t₁, h₁, h⟩ := h
  have hlt := length_lt_of_unit? h₁
  split at h
  · simp only [Option.some.injEq, Prod.mk.injEq] at h
    obtain ⟨_, rfl⟩ := h
    exact hlt
  · split at h
    · split at h
      · rename_i h₂
        have := length_lt_of_trailing? h₂
        simp only [Option.some.injEq, Prod.mk.injEq] at h
        obtain ⟨_, rfl⟩ := h
        omega
      · simp only [Option.some.injEq, Prod.mk.injEq] at h
        obtain ⟨_, rfl⟩ := h
        exact hlt
    · simp only [Option.some.injEq, Prod.mk.injEq] at h
      obtain ⟨_, rfl⟩ := h
      exact hlt

theorem length_lt_of_escape? {t r : Text} {c : Option Char} (h : escape? t = some (c, r)) :
    r.length < t.length := by
  cases t with
  | nil => simp [escape?] at h
  | cons d t =>
    simp only [escape?] at h
    by_cases hu : d = 'u'
    · subst hu
      simp at h
      have := length_lt_of_codePoint? h
      simp only [List.length_cons]
      omega
    · have h : some (c, r) = some (c, t) := by
        repeat' split at h
        all_goals simp_all
      simp only [Option.some.injEq, Prod.mk.injEq, true_and] at h
      rw [h]
      exact Nat.lt_succ_self _

/-- Reads a string up to its closing quote, after the (reversed) text that is already read, if it is
one. -/
def stringBody? (read : Option Text) (t : Text) : Option (Option Text × Text) :=
  match t with
  | [] => none
  | c :: t =>
    if c = '"' then some (read.map List.reverse, t)
    else if c = '\\' then
      match h : escape? t with
      | none => none
      | some (d, r) =>
        have := length_lt_of_escape? h
        stringBody? (read.bind fun s => d.map fun d => d :: s) r
    else if c.toNat < 0x20 then none
    else stringBody? (read.map fun s => c :: s) t
termination_by t.length

theorem length_lt_of_stringBody? {read s : Option Text} {t r : Text}
    (h : stringBody? read t = some (s, r)) : r.length < t.length := by
  fun_induction stringBody? read t with
  | case1 => simp at h
  | case2 => simp only [Option.some.injEq, Prod.mk.injEq] at h; obtain ⟨_, rfl⟩ := h; simp
  | case3 => simp at h
  | case4 => rename_i ih; have := ih h; simp only [List.length_cons]; omega
  | case5 => simp at h
  | case6 => rename_i ih; have := ih h; simp only [List.length_cons]; omega

/-! ### Words -/

/-- Whether a text is a non-empty row of digits. -/
def isDigits (t : Text) : Bool :=
  !t.isEmpty && t.all Char.isDigit

/-- Whether a text is empty or the exponent of a number. -/
def isExponent : Text → Bool
  | [] => true
  | c :: '+' :: t | c :: '-' :: t | c :: t => (c == 'e' || c == 'E') && isDigits t

/-- Whether a text is what may follow the integer part of a number. -/
def isFraction : Text → Bool
  | '.' :: t => !(Decimal.span t).1.isEmpty && isExponent (Decimal.span t).2
  | t => isExponent t

/-- Whether a text is a number without a sign. -/
def isUnsigned (t : Text) : Bool :=
  let (integer, t) := Decimal.span t
  (integer == ['0'] || (!integer.isEmpty && integer.head? != some '0')) && isFraction t

def word? (w : Text) : Option Json :=
  if w = "null".toList then some .null
  else if w = "true".toList then some (.bool true)
  else if w = "false".toList then some (.bool false)
  else if isUnsigned ((dropLead? ['-'] w).getD w) then
    some (if w.all Char.isDigit then .nat (Nat.ofDigitChars 10 w 0) else .numeral w)
  else none

def isWordChar (c : Char) : Bool :=
  let marks := ['[', ']', '\x7b', '\x7d', ',', ':', '"']
  !isSpace c && !marks.contains c

/-! ### Rows of tokens -/

def mark? (c : Char) : Option Token :=
  if c = '[' then some .openArr
  else if c = ']' then some .closeArr
  else if c = '\x7b' then some .openObj
  else if c = '\x7d' then some .closeObj
  else if c = ',' then some .comma
  else if c = ':' then some .colon
  else none

/-- Reads the token that starts with the character `c`. -/
def token? (c : Char) (t : Text) : Option (Token × Text) :=
  match mark? c with
  | some k => some (k, t)
  | none =>
    if c = '"' then
      (stringBody? (some []) t).map fun (s, r) => (.string s, r)
    else
      (word? (c :: t.takeWhile isWordChar)).map fun v => (.scalar v, t.dropWhile isWordChar)

theorem length_le_of_token? {c : Char} {t r : Text} {k : Token} (h : token? c t = some (k, r)) :
    r.length ≤ t.length := by
  unfold token? at h
  split at h
  · simp only [Option.some.injEq, Prod.mk.injEq] at h
    exact Nat.le_of_eq (congrArg List.length h.2.symm)
  · split at h
    · simp only [Option.map_eq_some_iff, Prod.exists, Prod.mk.injEq] at h
      obtain ⟨s, r', h, _, rfl⟩ := h
      exact Nat.le_of_lt (length_lt_of_stringBody? h)
    · simp only [Option.map_eq_some_iff, Prod.mk.injEq] at h
      obtain ⟨v, _, _, rfl⟩ := h
      exact (List.dropWhile_suffix isWordChar).length_le

/-- Cuts a text into its tokens, after the (reversed) ones that are already read. -/
def scanFrom (read : List Token) (t : Text) : Option (List Token) :=
  match t with
  | [] => some read.reverse
  | c :: t =>
    if isSpace c then scanFrom read t
    else
      match h : token? c t with
      | none => none
      | some (k, r) =>
        have := length_le_of_token? h
        scanFrom (k :: read) r
termination_by t.length

def scan (t : Text) : Option (List Token) :=
  scanFrom [] t

end HunkEdits.Json
