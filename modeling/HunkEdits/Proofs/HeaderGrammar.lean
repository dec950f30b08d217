import HunkEdits.Hunk.Header

/-!
# The grammar of hunk headers

A hunk header is `@@ -A,B +C,D @@`, where either length may be left out, and a blank and a section
name may follow.  All four are rows of digits for numbers of at most 64 bits.  The reader accepts
exactly these lines, and reads from each side what it denotes (`Header.parse?_iff_grammar`).
-/

namespace HunkEdits

/-! ### Numerals -/

namespace Text.Decimal

/-- Whether a text is a row of digits, with leading zeros or without, for a number within the
limit. -/
def IsNumeral (t : Text) (n : Nat) : Prop :=
  t ≠ [] ∧ t.all Char.isDigit ∧ Nat.ofDigitChars 10 t 0 = n ∧ n ≤ limit

instance (t : Text) (n : Nat) : Decidable (IsNumeral t n) :=
  inferInstanceAs (Decidable (_ ∧ _))

theorem toNat?_eq_some_iff_isNumeral {t : Text} {n : Nat} :
    toNat? t = some n ↔ IsNumeral t n :=
  toNat?_eq_some_iff

theorem IsNumeral.isDigit_of_mem {t : Text} {n : Nat} (h : IsNumeral t n) :
    ∀ c ∈ t, c.isDigit = true :=
  List.all_eq_true.1 h.2.1

theorem isNumeral_ofNat {n : Nat} (h : n ≤ limit) : IsNumeral (ofNat n) n :=
  toNat?_eq_some_iff_isNumeral.1 (toNat?_ofNat h)

theorem fst_span_append_snd (t : Text) : (span t).1 ++ (span t).2 = t :=
  List.takeWhile_append_dropWhile

end Text.Decimal

namespace Header

open Text Decimal

variable {t side rest start length : Text} {s : LineSpan} {h : Header}

/-! ### One side -/

/-- What one side of a header stands for.  The start counts from one; only where the length is the
digit `0` does it count from zero. -/
inductive Denotes : Text → LineSpan → Prop
  | one {start : Text} {n : Nat} (hs : IsNumeral start (n + 1)) : Denotes start ⟨n, 1⟩
  | empty {start : Text} {n : Nat} (hs : IsNumeral start n) : Denotes (start ++ [',', '0']) ⟨n, 0⟩
  | counted {start length : Text} {n k : Nat} (hs : IsNumeral start (n + 1))
      (hl : IsNumeral length k) (h0 : length ≠ ['0']) :
      Denotes (start ++ ',' :: length) ⟨n, k⟩

theorem resolve?_none_eq_some_iff :
    resolve? start none = some s ↔ ∃ n, IsNumeral start (n + 1) ∧ s = ⟨n, 1⟩ := by
  constructor
  · intro h
    obtain ⟨n, hn, h⟩ := Option.bind_eq_some_iff.1 h
    by_cases h0 : n = 0
    · simp [h0] at h
    · obtain ⟨m, rfl⟩ := Nat.exists_eq_succ_of_ne_zero h0
      rw [if_neg h0] at h
      exact ⟨m, toNat?_eq_some_iff_isNumeral.1 hn, (Option.some.inj h).symm⟩
  · rintro ⟨n, hn, rfl⟩
    unfold resolve?
    rw [toNat?_eq_some_iff_isNumeral.2 hn]
    simp

theorem resolve?_some_eq_some_iff : resolve? start (some length) = some s ↔
    (length = ['0'] ∧ ∃ n, IsNumeral start n ∧ s = ⟨n, 0⟩) ∨
      (length ≠ ['0'] ∧ ∃ n k, IsNumeral start (n + 1) ∧ IsNumeral length k ∧ s = ⟨n, k⟩) := by
  constructor
  · intro h
    obtain ⟨n, hn, h⟩ := Option.bind_eq_some_iff.1 h
    dsimp only at h
    have hn := toNat?_eq_some_iff_isNumeral.1 hn
    by_cases hl : length = ['0']
    · rw [if_pos hl] at h
      exact .inl ⟨hl, n, hn, (Option.some.inj h).symm⟩
    · rw [if_neg hl] at h
      by_cases h0 : n = 0
      · simp [h0] at h
      · obtain ⟨m, rfl⟩ := Nat.exists_eq_succ_of_ne_zero h0
        rw [if_neg h0] at h
        obtain ⟨k, hk, h⟩ := Option.map_eq_some_iff.1 h
        exact .inr ⟨hl, m, k, hn, toNat?_eq_some_iff_isNumeral.1 hk, h.symm⟩
  · rintro (⟨rfl, n, hn, rfl⟩ | ⟨hl, n, k, hn, hk, rfl⟩)
    · unfold resolve?
      rw [toNat?_eq_some_iff_isNumeral.2 hn]
      rfl
    · unfold resolve?
      rw [toNat?_eq_some_iff_isNumeral.2 hn]
      simp [hl, toNat?_eq_some_iff_isNumeral.2 hk]

/-- A side is read where neither a digit nor a comma follows. -/
theorem range?_of_denotes (hd : Denotes side s)
    (ht : ∀ c ∈ rest.head?, c.isDigit = false ∧ c ≠ ',') :
    range? (side ++ rest) = some (s, rest) := by
  have hrest : ∀ c ∈ rest.head?, c.isDigit = false := fun c hc => (ht c hc).1
  -- a comma ends the digits of the start, and what follows the side those of the length
  have hlength {start length : Text} (hs : ∀ c ∈ start, c.isDigit = true)
      (hl : ∀ c ∈ length, c.isDigit = true) (hr : resolve? start (some length) = some s) :
      range? (start ++ ',' :: length ++ rest) = some (s, rest) := by
    rw [List.append_assoc, List.cons_append, range?, span_append hs (by simp)]
    simp only [span_append hl hrest, hr, Option.map_some]
  cases hd with
  | @one _ n hs =>
    have hr : resolve? side none = some ⟨n, 1⟩ := resolve?_none_eq_some_iff.2 ⟨n, hs, rfl⟩
    rw [range?, span_append hs.isDigit_of_mem hrest]
    cases rest with
    | nil => simp [hr]
    | cons c rest => simp [hr, (ht c rfl).2]
  | @empty start n hs =>
    exact hlength hs.isDigit_of_mem (List.forall_mem_singleton.2 rfl)
      (resolve?_some_eq_some_iff.2 (.inl ⟨rfl, n, hs, rfl⟩))
  | @counted start length n k hs hl h0 =>
    exact hlength hs.isDigit_of_mem hl.isDigit_of_mem
      (resolve?_some_eq_some_iff.2 (.inr ⟨h0, n, k, hs, hl, rfl⟩))

theorem exists_denotes_of_range? (hr : range? t = some (s, rest)) :
    ∃ side, t = side ++ rest ∧ Denotes side s := by
  have ht := fst_span_append_snd t
  unfold range? at hr
  dsimp only at hr
  split at hr
  · rename_i rest' hspan
    have ht' := fst_span_append_snd rest'
    obtain ⟨s', hs', hr⟩ := Option.map_eq_some_iff.1 hr
    obtain ⟨rfl, rfl⟩ := Prod.mk.inj hr
    refine ⟨(span t).1 ++ ',' :: (span rest').1, ?_, ?_⟩
    · rw [List.append_assoc, List.cons_append, ht', ← hspan, ht]
    · rcases resolve?_some_eq_some_iff.1 hs' with ⟨h0, n, hn, rfl⟩ | ⟨h0, n, k, hn, hk, rfl⟩
      · rw [h0]
        exact .empty hn
      · exact .counted hn hk h0
  · obtain ⟨s', hs', hr⟩ := Option.map_eq_some_iff.1 hr
    obtain ⟨rfl, rfl⟩ := Prod.mk.inj hr
    obtain ⟨n, hn, rfl⟩ := resolve?_none_eq_some_iff.1 hs'
    exact ⟨(span t).1, ht.symm, .one hn⟩

/-! ### The line -/

/-- Whether nothing follows the closing mark, or a blank and then no line feed. -/
def IsSection (tail : Text) : Prop :=
  tail = [] ∨ ∃ c name, tail = c :: name ∧ isBlank c = true ∧ '\n' ∉ name

theorem isTail_eq_true_iff {tail : Text} : isTail tail = true ↔ IsSection tail := by
  unfold IsSection
  cases tail with
  | nil => simp [isTail]
  | cons c name =>
    rw [isTail, Bool.and_eq_true]
    constructor
    · rintro ⟨hc, hn⟩
      exact .inr ⟨c, name, rfl, hc, by simpa using hn⟩
    · rintro (h | ⟨_, _, ⟨⟩, hc, hn⟩)
      · cases h
      · exact ⟨hc, by simpa using hn⟩

theorem exists_frame_of_parse? {line : Text} (hp : parse? line = some h) :
    ∃ old new tail, line = frame old new tail ∧ Denotes old h.old ∧ Denotes new h.new ∧
      IsSection tail := by
  obtain ⟨t₁, h₁, hp⟩ := Option.bind_eq_some_iff.1 hp
  obtain ⟨⟨old, t₂⟩, h₂, hp⟩ := Option.bind_eq_some_iff.1 hp
  obtain ⟨t₃, h₃, hp⟩ := Option.bind_eq_some_iff.1 hp
  obtain ⟨⟨new, t₄⟩, h₄, hp⟩ := Option.bind_eq_some_iff.1 hp
  obtain ⟨tail, h₅, hp⟩ := Option.bind_eq_some_iff.1 hp
  split at hp
  · rename_i htail
    obtain rfl := Option.some.inj hp
    obtain ⟨oldSide, rfl, hold⟩ := exists_denotes_of_range? h₂
    obtain ⟨newSide, rfl, hnew⟩ := exists_denotes_of_range? h₄
    refine ⟨oldSide, newSide, tail, ?_, hold, hnew, isTail_eq_true_iff.1 htail⟩
    rw [dropLead?_eq_some_iff.1 h₁, dropLead?_eq_some_iff.1 h₃, dropLead?_eq_some_iff.1 h₅]
    simp [frame]
  · cases hp

theorem parse?_frame_of_denotes {old new tail : Text} (hold : Denotes old h.old)
    (hnew : Denotes new h.new) (htail : IsSection tail) :
    parse? (frame old new tail) = some h :=
  parse?_frame (fun _ => range?_of_denotes hold (by simp))
    (fun _ => range?_of_denotes hnew (by simp)) (isTail_eq_true_iff.2 htail)

/-! ### Written sides -/

theorem fits_iff : Fits s ↔
    s.count = 0 ∧ s.start ≤ limit ∨ 0 < s.count ∧ s.start < limit ∧ s.count ≤ limit := by
  unfold Fits writtenStart
  split <;> omega

theorem denotes_writeSpan (hf : Fits s) : Denotes (writeSpan s) s := by
  obtain ⟨n, k⟩ := s
  obtain ⟨hn, hk⟩ := hf
  have hstart := isNumeral_ofNat hn
  by_cases h0 : k = 0
  · subst h0
    have hzero : ofNat 0 = ['0'] := ofNat_eq_zero_iff.2 rfl
    have he : writeSpan ⟨n, 0⟩ = ofNat n ++ [',', '0'] := by
      simp [writeSpan, writtenStart, hzero]
    rw [he]
    exact .empty hstart
  · have he : writeSpan ⟨n, k⟩ = ofNat (n + 1) ++ ',' :: ofNat k := by
      simp [writeSpan, writtenStart, h0]
    rw [writtenStart, if_neg h0] at hstart
    rw [he]
    exact .counted hstart (isNumeral_ofNat hk) (mt ofNat_eq_zero_iff.1 h0)

theorem denotes_writeShortSpan (hf : Fits s) : Denotes (writeShortSpan s) s := by
  obtain ⟨n, k⟩ := s
  unfold writeShortSpan
  split
  · rename_i h1
    obtain rfl : k = 1 := h1
    exact .one (isNumeral_ofNat hf.1)
  · exact denotes_writeSpan hf

/-- A header that is written can be read. -/
theorem parse?_write (hold : Fits h.old) (hnew : Fits h.new) : parse? h.write = some h :=
  parse?_frame_of_denotes (denotes_writeSpan hold) (denotes_writeSpan hnew) (.inl rfl)

/-- **The grammar of hunk headers.**  A line is read exactly if it is framed by two sides that
denote spans, with a section behind it or none, and then it is read as these spans.  So a header
whose sides are written is read back, whatever its spans, as long as the written numbers are within
the limit. -/
theorem parse?_iff_grammar :
    (∀ (line : Text) (h : Header), parse? line = some h ↔
      ∃ old new tail, line = frame old new tail ∧ Denotes old h.old ∧ Denotes new h.new ∧
        IsSection tail) ∧
    ∀ (h : Header) (old new : Text),
      (∀ s ∈ [h.old, h.new], s.count = 0 ∧ s.start ≤ limit ∨
        0 < s.count ∧ s.start < limit ∧ s.count ≤ limit) →
      (old = writeSpan h.old ∨ old = writeShortSpan h.old) →
      (new = writeSpan h.new ∨ new = writeShortSpan h.new) →
      parse? (frame old new []) = some h := by
  refine ⟨fun line h => ⟨exists_frame_of_parse?, ?_⟩, ?_⟩
  · rintro ⟨old, new, tail, rfl, hold, hnew, htail⟩
    exact parse?_frame_of_denotes hold hnew htail
  · intro h old new hfit hold hnew
    have hside {s : LineSpan} {side : Text} (hs : s ∈ [h.old, h.new])
        (hw : side = writeSpan s ∨ side = writeShortSpan s) : Denotes side s := by
      have hf := fits_iff.2 (hfit s hs)
      rcases hw with rfl | rfl
      · exact denotes_writeSpan hf
      · exact denotes_writeShortSpan hf
    exact parse?_frame_of_denotes (hside (by simp) hold) (hside (by simp) hnew) (.inl rfl)

/-- Leading zeros, an empty side that is counted from one because its length is not the digit `0`,
the largest number, and a section behind a blank that is not ASCII. -/
theorem parse?_iff_grammar_zeros :
    parse? "@@ -007,00 +18446744073709551615 @@\u00a0@@".toList =
        some ⟨⟨6, 0⟩, ⟨18446744073709551614, 1⟩⟩ ∧
      parse? "@@ -18446744073709551615,0 +5 @@".toList =
        some ⟨⟨18446744073709551615, 0⟩, ⟨4, 1⟩⟩ := by
  constructor
  · refine (parse?_iff_grammar.1 _ _).2
      ⟨"007,00".toList, "18446744073709551615".toList, ['\u00a0', '@', '@'], by decide, ?_, ?_, ?_⟩
    · exact @Denotes.counted ['0', '0', '7'] ['0', '0'] 6 0 (by decide) (by decide) (by decide)
    · exact .one (by decide)
    · exact .inr ⟨'\u00a0', ['@', '@'], rfl, rfl, by decide⟩
  · exact parse?_iff_grammar.2 ⟨⟨18446744073709551615, 0⟩, ⟨4, 1⟩⟩
      "18446744073709551615,0".toList "5".toList (by decide) (.inl (by decide)) (.inr (by decide))

end Header

end HunkEdits
