import HunkEdits.Edit.Apply
import HunkEdits.Lsp
import HunkEdits.Proofs.Offset
import HunkEdits.Proofs.Result

/-!
# Edits made by an editor

An editor that takes the edits of `Lsp.textEdits` makes the text that applying the edits themselves
gives (`Edit.apply_textEdits`).  The coordinates that it gets are brought into 32 bits one by one,
which can turn the order of two positions round.  In a document of no more bytes than the largest
coordinate this moves nothing: a line or a column that is cut down lies past the end both before and
after (`Document.offsetAt_saturate`).
-/

namespace HunkEdits

/-! ### How wide a text is -/

theorem Encoding.width_le (e : Encoding) (c : Char) : e.width c ≤ c.utf8Size := by
  cases e with
  | utf8 => exact Nat.le_refl _
  | utf16 =>
    rw [width]
    split
    · exact c.utf8Size_pos
    · -- characters of two units have four bytes
      rename_i hc
      have hfour : c.utf8Size = 4 := by
        rw [Char.utf8Size_eq_four_iff, UInt32.lt_iff_toNat_lt]
        exact Nat.not_lt.1 hc
      omega
  | utf32 => exact c.utf8Size_pos

theorem Position.width_le_bytes (e : Encoding) (t : Text) : width e t ≤ Text.bytes t := by
  induction t with
  | nil => exact Nat.le_refl _
  | cons c t ih =>
    rw [width, Text.bytes_cons]
    exact Nat.add_le_add (e.width_le c) ih

namespace Text

variable {s t raw : Text}

theorem bytes_le_of_sublist (h : s.Sublist t) : bytes s ≤ bytes t := by
  induction h with
  | slnil => exact Nat.le_refl _
  | cons c h ih =>
    rw [bytes_cons]
    omega
  | cons_cons c h ih =>
    rw [bytes_cons, bytes_cons]
    omega

theorem bytes_lineText_le (h : raw ∈ rawLines t) : bytes (lineText raw) ≤ bytes t := by
  have hline : (lineText raw).Sublist raw :=
    (dropFinal_sublist _ _).trans (dropFinal_sublist _ _)
  have hraw : raw.Sublist t := by
    have := List.sublist_flatten_of_mem h
    rwa [flatten_rawLines] at this
  exact bytes_le_of_sublist (hline.trans hraw)

/-- No raw line is without bytes. -/
theorem length_rawLines_le (t : Text) : (rawLines t).length ≤ bytes t := by
  induction t with
  | nil => exact Nat.le_refl _
  | cons c t ih =>
    have hpos := c.utf8Size_pos
    have hlen : (consRaw c (rawLines t)).length ≤ (rawLines t).length + 1 := by
      cases rawLines t with
      | nil => simp [consRaw]
      | cons l ls =>
        rw [consRaw]
        split <;> simp
    rw [rawLines_cons, bytes_cons]
    omega

end Text

/-! ### Saturated positions -/

namespace Document

variable {t : Text} {e : Encoding} {n m start : Nat}

/-- Columns that lie past the end of a line mean its end. -/
theorem columnOffset_of_width_le (h : Position.width e t ≤ n) :
    columnOffset e start n t = start + Text.bytes t := by
  induction t generalizing start n with
  | nil => rfl
  | cons c t ih =>
    have hpos := e.width_pos c
    rw [Position.width] at h
    rw [columnOffset, if_neg (by omega), ih (by omega), Text.bytes_cons, Nat.add_assoc]

theorem columnOffset_min (h : Text.bytes t ≤ m) :
    columnOffset e start (min n m) t = columnOffset e start n t := by
  have hwidth := Position.width_le_bytes e t
  by_cases hn : n ≤ m
  · rw [Nat.min_eq_left hn]
  · rw [Nat.min_eq_right (by omega), columnOffset_of_width_le (by omega),
      columnOffset_of_width_le (by omega)]

/-- **Saturation moves no position** in a document whose bytes can be counted by a coordinate. -/
theorem offsetAt_saturate (ht : Text.bytes t ≤ Lsp.coordinateLimit) (e : Encoding) (p : Position) :
    (ofText t).offsetAt e (Lsp.saturate p) = (ofText t).offsetAt e p := by
  have hlines := Text.length_rawLines_le t
  by_cases hin : p.line < (Text.rawLines t).length
  · have hline : (Lsp.saturate p).line = p.line := Nat.min_eq_left (by omega)
    have hbytes : Text.bytes (((ofText t).line? p.line).getD []) ≤ Lsp.coordinateLimit := by
      rw [line?_ofText, List.getElem?_eq_getElem hin]
      exact Nat.le_trans (Text.bytes_lineText_le (List.getElem_mem hin)) ht
    rw [offsetAt, offsetAt, hline]
    exact columnOffset_min hbytes
  · have hpast : (Text.rawLines t).length ≤ p.line := Nat.le_of_not_lt hin
    have hsat : (Text.rawLines t).length ≤ (Lsp.saturate p).line :=
      Nat.le_min.2 ⟨hpast, Nat.le_trans hlines ht⟩
    rw [offsetAt, offsetAt, lineStart_of_length_le hpast, lineStart_of_length_le hsat,
      line?_of_length_le hpast, line?_of_length_le hsat]
    rfl

end Document

/-! ### Applying -/

namespace Edit

variable {t : Text} {edit : Edit} {edits : List Edit}

theorem byteRange_ofEdit (ht : Text.bytes t ≤ Lsp.coordinateLimit) (e : Encoding) (edit : Edit) :
    (Lsp.TextEdit.ofEdit edit).toEdit.byteRange (.ofText t) e = edit.byteRange (.ofText t) e := by
  have hstart := Document.offsetAt_saturate ht e edit.start
  have hstop := Document.offsetAt_saturate ht e edit.finish
  show (_, max _ _) = (_, max _ _)
  rw [← hstart, ← hstop]
  rfl

/-- What editors put in is the text of the edit, where deletions have none. -/
theorem text_ofEdit (h : edit.action = .delete → edit.text = []) :
    (Lsp.TextEdit.ofEdit edit).toEdit.text = edit.text := by
  show (if edit.action = .delete then [] else edit.text) = edit.text
  split
  · rename_i hdel
    exact (h hdel).symm
  · rfl

/-- Applying depends on the bytes and the texts of edits only, but for the start that an error
names. -/
theorem applyFrom_map_eq_ok_iff {d : Document} {e : Encoding} {f : Edit → Edit}
    (hrange : ∀ edit ∈ edits, (f edit).byteRange d e = edit.byteRange d e)
    (htext : ∀ edit ∈ edits, (f edit).text = edit.text) {done : Nat} {rest new : Text} :
    applyFrom d e done rest (edits.map f) = .ok new ↔ applyFrom d e done rest edits = .ok new := by
  induction edits generalizing done rest new with
  | nil => exact Iff.rfl
  | cons edit edits ih =>
    obtain ⟨hrange₁, hrange⟩ := List.forall_mem_cons.1 hrange
    obtain ⟨htext₁, htext⟩ := List.forall_mem_cons.1 htext
    simp only [List.map_cons, applyFrom, hrange₁, htext₁]
    split
    · simp
    · simp only [map_eq_ok_iff, ih hrange htext]

/-- **An editor makes the same text.**  In a document of no more bytes than the largest coordinate,
every position resolves to the byte to which its saturated form does.  Taken as replacements, the
edits for an editor therefore give the text that the edits give, and cannot be applied exactly where
those cannot; deletions must carry no text, since an editor does not get it. -/
theorem apply_textEdits (ht : Text.bytes t ≤ Lsp.coordinateLimit)
    (hdel : ∀ edit ∈ edits, edit.action = .delete → edit.text = []) (e : Encoding) :
    (∀ p, (Document.ofText t).offsetAt e (Lsp.saturate p) = (Document.ofText t).offsetAt e p) ∧
    (∀ new, apply t ((Lsp.textEdits edits).map Lsp.TextEdit.toEdit) e = .ok new ↔
      apply t edits e = .ok new) ∧
    ((∃ err, apply t ((Lsp.textEdits edits).map Lsp.TextEdit.toEdit) e = .error err) ↔
      ∃ err, apply t edits e = .error err) := by
  have hok : ∀ new, apply t ((Lsp.textEdits edits).map Lsp.TextEdit.toEdit) e = .ok new ↔
      apply t edits e = .ok new := by
    intro new
    rw [Lsp.textEdits, List.map_map]
    refine applyFrom_map_eq_ok_iff ?_ ?_
    · intro edit _
      exact byteRange_ofEdit ht e edit
    · intro edit hedit
      exact text_ofEdit (hdel edit hedit)
  exact ⟨Document.offsetAt_saturate ht e, hok, exists_error_congr hok⟩

/-- A deletion up to a column, an insertion with an end, and a replacement between two lines of
which the second one lies behind the first only as long as neither is saturated. -/
theorem apply_textEdits_past_end :
    let edits : List Edit := [.delete ⟨0, 1⟩ ⟨0, 18446744073709551615⟩,
      ⟨.insert, ⟨1, 0⟩, some ⟨9, 9⟩, ['x']⟩, .replace ⟨8589934592, 5⟩ ⟨17179869184, 1⟩ ['y']]
    Lsp.TextEdit.ofEdit edits[2] = ⟨⟨4294967295, 5⟩, ⟨4294967295, 1⟩, ['y']⟩ ∧
      apply "ab\ncd\n".toList edits .utf16 = .ok "a\nxcd\ny".toList ∧
      apply "ab\ncd\n".toList ((Lsp.textEdits edits).map Lsp.TextEdit.toEdit) .utf16 =
        .ok "a\nxcd\ny".toList := by
  intro edits
  have happly : apply "ab\ncd\n".toList edits .utf16 = .ok "a\nxcd\ny".toList := by decide
  have hdel : ∀ edit ∈ edits, edit.action = .delete → edit.text = [] := by decide
  obtain ⟨-, hok, -⟩ := apply_textEdits (t := "ab\ncd\n".toList) (by decide) hdel .utf16
  exact ⟨by decide, happly, (hok _).2 happly⟩

end Edit

end HunkEdits
