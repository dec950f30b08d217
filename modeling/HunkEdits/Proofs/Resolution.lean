import HunkEdits.Proofs.Offset

/-!
# Where positions lie

Positions mean bytes in every document, whatever document they were made for.  Such a byte is where
a leading part of the document ends (`Document.exists_offsetAt_eq`), and a later position never
means an earlier byte (`Document.offsetAt_mono`), although positions past the end of a line, and
lines past the end of the document, are moved back.
-/

namespace HunkEdits

namespace Text

theorem dropFinal_isPrefix (c : Char) (t : Text) : dropFinal c t <+: t := by
  unfold dropFinal
  split
  · exact List.dropLast_prefix t
  · exact List.prefix_rfl

theorem lineText_isPrefix (raw : Text) : lineText raw <+: raw :=
  (dropFinal_isPrefix _ _).trans (dropFinal_isPrefix _ _)

end Text

namespace Document

variable {e : Encoding} {t : Text} {p q : Position} {k m n start : Nat}

/-! ### Starts of lines -/

/-- The raw lines between two line starts are the bytes between them. -/
theorem lineStart_add (t : Text) (k n : Nat) :
    (ofText t).lineStart (k + n) =
      (ofText t).lineStart k + Text.bytes (((Text.rawLines t).drop k).take n).flatten := by
  rw [lineStart_ofText, lineStart_ofText, List.take_add, List.flatten_append, Text.bytes_append]

theorem lineStart_mono (t : Text) (h : k ≤ m) :
    (ofText t).lineStart k ≤ (ofText t).lineStart m := by
  obtain ⟨n, rfl⟩ := Nat.exists_eq_add_of_le h
  rw [lineStart_add]
  exact Nat.le_add_right _ _

theorem lineStart_succ (t : Text) (k : Nat) : (ofText t).lineStart (k + 1) =
    (ofText t).lineStart k + Text.bytes ((Text.rawLines t)[k]?.getD []) := by
  rw [lineStart_add, List.take_one, List.head?_drop]
  cases (Text.rawLines t)[k]? <;> simp

/-! ### Columns -/

/-- A column lies where a leading part of its line ends. -/
theorem exists_columnOffset_eq (e : Encoding) (start n : Nat) (t : Text) :
    ∃ x, x <+: t ∧ columnOffset e start n t = start + Text.bytes x := by
  obtain ⟨x, ⟨hx, -⟩, ho⟩ := exists_reaches e start n t
  exact ⟨x, hx, ho⟩

theorem le_columnOffset (e : Encoding) (start n : Nat) (t : Text) :
    start ≤ columnOffset e start n t := by
  obtain ⟨x, -, ho⟩ := exists_columnOffset_eq e start n t
  omega

theorem columnOffset_mono (e : Encoding) (start : Nat) (t : Text) (h : n ≤ m) :
    columnOffset e start n t ≤ columnOffset e start m t := by
  induction t generalizing start n m with
  | nil => exact Nat.le_refl _
  | cons c t ih =>
    by_cases hn : n = 0
    · subst hn
      exact le_columnOffset e start m (c :: t)
    · have hm : m ≠ 0 := by omega
      unfold columnOffset
      rw [if_neg hn, if_neg hm]
      exact ih (start + c.utf8Size) (by omega)

/-! ### Positions -/

/-- A position lies where a leading part of its raw line ends. -/
theorem exists_offsetAt_eq_lineStart_add (t : Text) (e : Encoding) (p : Position) :
    ∃ x, x <+: (Text.rawLines t)[p.line]?.getD [] ∧
      (ofText t).offsetAt e p = (ofText t).lineStart p.line + Text.bytes x := by
  have hcontent : ((ofText t).line? p.line).getD [] <+: (Text.rawLines t)[p.line]?.getD [] := by
    rw [line?_ofText]
    cases (Text.rawLines t)[p.line]? with
    | none => exact List.prefix_rfl
    | some raw => exact Text.lineText_isPrefix raw
  obtain ⟨x, hx, ho⟩ := exists_columnOffset_eq e ((ofText t).lineStart p.line) p.character
    (((ofText t).line? p.line).getD [])
  exact ⟨x, hx.trans hcontent, ho⟩

/-- **A position lies between two characters**: where a leading part of the document ends. -/
theorem exists_offsetAt_eq (t : Text) (e : Encoding) (p : Position) :
    ∃ a, a <+: t ∧ (ofText t).offsetAt e p = Text.bytes a := by
  obtain ⟨x, hx, ho⟩ := exists_offsetAt_eq_lineStart_add t e p
  have hcut : ((Text.rawLines t).take p.line).flatten ++ ((Text.rawLines t).drop p.line).flatten =
      t := by
    rw [← List.flatten_append, List.take_append_drop, Text.flatten_rawLines]
  have hrest : (Text.rawLines t)[p.line]?.getD [] <+: ((Text.rawLines t).drop p.line).flatten := by
    rw [← List.head?_drop]
    cases (Text.rawLines t).drop p.line with
    | nil => exact List.prefix_rfl
    | cons raw raws => exact List.prefix_append raw raws.flatten
  refine ⟨((Text.rawLines t).take p.line).flatten ++ x, ?_, ?_⟩
  · have hprefix := (List.prefix_append_right_inj ((Text.rawLines t).take p.line).flatten).2
      (hx.trans hrest)
    rwa [hcut] at hprefix
  · rw [ho, lineStart_ofText, Text.bytes_append]

theorem lineStart_le_offsetAt (t : Text) (e : Encoding) (p : Position) :
    (ofText t).lineStart p.line ≤ (ofText t).offsetAt e p := by
  obtain ⟨x, -, ho⟩ := exists_offsetAt_eq_lineStart_add t e p
  omega

theorem offsetAt_le_lineStart_succ (t : Text) (e : Encoding) (p : Position) :
    (ofText t).offsetAt e p ≤ (ofText t).lineStart (p.line + 1) := by
  obtain ⟨x, ⟨y, hx⟩, ho⟩ := exists_offsetAt_eq_lineStart_add t e p
  rw [ho, lineStart_succ, ← hx, Text.bytes_append]
  omega

/-- **A later position never means an earlier byte**, in whatever text and unit. -/
theorem offsetAt_mono (t : Text) (e : Encoding) (h : p ≤ q) :
    (ofText t).offsetAt e p ≤ (ofText t).offsetAt e q := by
  rcases Position.le_def.1 h with hline | ⟨hline, hchar⟩
  · calc (ofText t).offsetAt e p ≤ (ofText t).lineStart (p.line + 1) :=
          offsetAt_le_lineStart_succ t e p
      _ ≤ (ofText t).lineStart q.line := lineStart_mono t hline
      _ ≤ (ofText t).offsetAt e q := lineStart_le_offsetAt t e q
  · unfold offsetAt
    rw [hline]
    exact columnOffset_mono e _ _ hchar

end Document

end HunkEdits
