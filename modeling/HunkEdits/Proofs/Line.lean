import HunkEdits.Options
import HunkEdits.Patch.Printer
import HunkEdits.Text.Line
import Mathlib.Data.List.Induction

/-!
# Lines and their terminators

A raw line holds a line feed at its end or nowhere, so the contents of lines hold none.  Conversely,
lines that are clean, which is that they hold no line feed and do not end in a carriage return, are
the lines of the text that they make up, whatever their terminator (`rawLines_joinLines`,
`lines_joinLines`).
-/

namespace HunkEdits

/-- Every terminator is a line feed, or some text without one and then a line feed. -/
theorem LineEnding.text_eq (ending : LineEnding) :
    ∃ cr, ending.text = cr ++ ['\n'] ∧ '\n' ∉ cr := by
  cases ending with
  | lf => exact ⟨[], rfl, by simp⟩
  | crlf => exact ⟨['\r'], rfl, by simp⟩
  | native => exact ⟨[], rfl, by simp⟩

namespace Text

variable {t l raw : Text}

/-! ### Taking a final character off -/

@[simp] theorem dropFinal_append_singleton (c : Char) (t : Text) : dropFinal c (t ++ [c]) = t := by
  simp [dropFinal]

theorem dropFinal_of_getLast?_ne {c : Char} (h : t.getLast? ≠ some c) : dropFinal c t = t :=
  if_neg h

theorem dropFinal_sublist (c : Char) (t : Text) : (dropFinal c t).Sublist t := by
  unfold dropFinal
  split
  · exact List.dropLast_sublist t
  · exact List.Sublist.refl t

/-! ### Whole lines -/

/-- Every text is some whole lines and then text without line feeds. -/
theorem exists_eq_append (t : Text) :
    ∃ a b, t = a ++ b ∧ '\n' ∉ b ∧ (a = [] ∨ a.getLast? = some '\n') := by
  induction t using List.reverseRecOn with
  | nil => exact ⟨[], [], rfl, by simp, .inl rfl⟩
  | append_singleton t c ih =>
    by_cases hc : c = '\n'
    · subst hc
      exact ⟨t ++ ['\n'], [], by simp, by simp, .inr (by simp)⟩
    · obtain ⟨a, b, rfl, hb, ha⟩ := ih
      refine ⟨a, b ++ [c], by simp, List.not_mem_append hb ?_, ha⟩
      rw [List.mem_singleton]
      exact Ne.symm hc

theorem rawLines_append {a : Text} (ha : a = [] ∨ a.getLast? = some '\n') (t : Text) :
    rawLines (a ++ t) = rawLines a ++ rawLines t := by
  rcases ha with rfl | ha
  · rfl
  · obtain ⟨a, rfl⟩ := List.getLast?_eq_some_iff.1 ha
    rw [List.append_assoc, List.singleton_append, rawLines_append_newline]

theorem rawLines_of_newline_notMem {t : Text} (h : '\n' ∉ t) :
    rawLines t = if t = [] then [] else [t] := by
  induction t with
  | nil => rfl
  | cons c t ih =>
    obtain ⟨hc, ht⟩ := List.ne_and_not_mem_of_not_mem_cons h
    rw [rawLines_cons, ih ht, if_neg (List.cons_ne_nil _ _)]
    split
    · rename_i he
      rw [he]
      rfl
    · simp [consRaw, Ne.symm hc]

/-- Whether a text is one line with its line feed. -/
def IsLine (t : Text) : Prop :=
  ∃ l, t = l ++ ['\n'] ∧ '\n' ∉ l

theorem isLine_terminated (ending : LineEnding) (h : '\n' ∉ l) :
    IsLine (l ++ ending.text) := by
  obtain ⟨cr, hcr, hn⟩ := ending.text_eq
  exact ⟨l ++ cr, by rw [hcr, List.append_assoc], List.not_mem_append h hn⟩

theorem isLine_of_mem_rawLines {f : Text} (h : raw ∈ rawLines (f ++ ['\n'])) : IsLine raw := by
  induction f generalizing raw with
  | nil => exact ⟨[], List.mem_singleton.1 h, by simp⟩
  | cons c f ih =>
    obtain ⟨l, ls, hr⟩ := exists_rawLines_newline_eq_cons f
    rw [List.cons_append, rawLines_cons, hr, consRaw] at h
    rw [hr] at ih
    split at h
    · rename_i hc
      rcases List.mem_cons.1 h with rfl | h
      · exact ⟨[], by rw [hc]; rfl, by simp⟩
      · exact ih h
    · rename_i hc
      rcases List.mem_cons.1 h with rfl | h
      · obtain ⟨m, rfl, hm⟩ := ih (List.mem_cons_self ..)
        exact ⟨c :: m, rfl, by simp [hm, Ne.symm hc]⟩
      · exact ih (List.mem_cons_of_mem _ h)

/-- The raw lines of a text that does not end within a line are lines. -/
theorem forall_isLine_rawLines (ht : t = [] ∨ t.getLast? = some '\n') :
    ∀ raw ∈ rawLines t, IsLine raw := by
  intro raw hraw
  rcases ht with rfl | ht
  · cases hraw
  · obtain ⟨f, rfl⟩ := List.getLast?_eq_some_iff.1 ht
    exact isLine_of_mem_rawLines hraw

/-- Whether the last line of a text has no terminator. -/
def IsOpen (t : Text) : Prop :=
  t ≠ [] ∧ t.getLast? ≠ some '\n'

instance (t : Text) : Decidable (IsOpen t) :=
  inferInstanceAs (Decidable (_ ∧ _))

/-- The raw lines of a text are lines, and behind them text without a line feed. -/
theorem exists_rawLines_eq (t : Text) :
    ∃ ps b, rawLines t = ps ++ rawLines b ∧ (∀ p ∈ ps, IsLine p) ∧ '\n' ∉ b ∧
      (b ≠ [] ↔ IsOpen t) := by
  obtain ⟨a, b, rfl, hb, ha⟩ := t.exists_eq_append
  refine ⟨rawLines a, b, rawLines_append ha b, forall_isLine_rawLines ha, hb, ?_⟩
  rcases List.eq_nil_or_concat b with rfl | ⟨b, c, rfl⟩
  · rcases ha with rfl | ha
    · simp [IsOpen]
    · simp [IsOpen, ha]
  · have hc : c ≠ '\n' := by
      rintro rfl
      exact hb (by simp)
    simp [IsOpen, hc]

/-- A raw line is a line, or text without a line feed. -/
theorem isLine_or_of_mem_rawLines (h : raw ∈ rawLines t) : IsLine raw ∨ raw ≠ [] ∧ '\n' ∉ raw := by
  obtain ⟨ps, b, hraw, hps, hb, -⟩ := exists_rawLines_eq t
  rw [hraw, rawLines_of_newline_notMem hb] at h
  rcases List.mem_append.1 h with h | h
  · exact .inl (hps raw h)
  · split at h
    · cases h
    · rename_i hne
      rw [List.mem_singleton.1 h]
      exact .inr ⟨hne, hb⟩

theorem ne_nil_of_mem_rawLines (h : raw ∈ rawLines t) : raw ≠ [] := by
  rcases isLine_or_of_mem_rawLines h with ⟨l, rfl, -⟩ | ⟨hne, -⟩
  · simp
  · exact hne

/-! ### Contents of raw lines -/

theorem lineContent_sublist (raw : Text) : (lineContent raw).Sublist raw := by
  unfold lineContent
  split
  · exact (dropFinal_sublist _ _).trans (List.dropLast_sublist raw)
  · exact List.Sublist.refl raw

theorem newline_notMem_lineContent (h : raw ∈ rawLines t) : '\n' ∉ lineContent raw := by
  rcases isLine_or_of_mem_rawLines h with ⟨l, rfl, hl⟩ | ⟨-, hn⟩
  · rw [lineContent, List.getLast?_concat, if_pos rfl, List.dropLast_concat]
    intro hm
    exact hl ((dropFinal_sublist _ _).mem hm)
  · intro hm
    exact hn ((lineContent_sublist raw).mem hm)

theorem newline_notMem_of_mem_lines (h : l ∈ lines t) : '\n' ∉ l := by
  obtain ⟨raw, hraw, rfl⟩ := List.mem_map.1 h
  exact newline_notMem_lineContent hraw

/-- Lines are made of the characters of their text. -/
theorem mem_of_mem_lines (h : l ∈ lines t) {c : Char} (hc : c ∈ l) : c ∈ t := by
  obtain ⟨raw, hraw, rfl⟩ := List.mem_map.1 h
  rw [← flatten_rawLines t]
  exact List.mem_flatten_of_mem hraw ((lineContent_sublist raw).mem hc)

/-! ### Lines put together -/

theorem rawLines_line (h : '\n' ∉ l) : rawLines (l ++ ['\n']) = [l ++ ['\n']] := by
  induction l with
  | nil => rfl
  | cons c l ih =>
    obtain ⟨hc, hl⟩ := List.ne_and_not_mem_of_not_mem_cons h
    rw [List.cons_append, rawLines_cons, ih hl]
    simp [consRaw, Ne.symm hc]

theorem rawLines_line_append (h : '\n' ∉ l) (t : Text) :
    rawLines (l ++ '\n' :: t) = (l ++ ['\n']) :: rawLines t := by
  rw [rawLines_append_newline, rawLines_line h]
  rfl

theorem rawLines_terminated_append (ending : LineEnding) (h : '\n' ∉ l) (t : Text) :
    rawLines (l ++ ending.text ++ t) = (l ++ ending.text) :: rawLines t := by
  obtain ⟨cr, hcr, hn⟩ := ending.text_eq
  have := rawLines_line_append (List.not_mem_append h hn) t
  simpa [hcr] using this

/-- Lines without line feeds, put together, are cut again where they were joined. -/
theorem rawLines_joinLines (ending : LineEnding) {ls : List Text} (h : ∀ l ∈ ls, '\n' ∉ l) :
    rawLines (Patch.joinLines ending ls) = ls.map (· ++ ending.text) := by
  induction ls with
  | nil => rfl
  | cons l ls ih =>
    obtain ⟨hl, h⟩ := List.forall_mem_cons.1 h
    rw [Patch.joinLines, List.flatMap_cons, rawLines_terminated_append ending hl, List.map_cons,
      ← ih h]
    rfl

/-- Whether a line can be told from its terminator, whichever it is. -/
def IsClean (l : Text) : Prop :=
  '\n' ∉ l ∧ l.getLast? ≠ some '\r'

instance (l : Text) : Decidable (IsClean l) :=
  inferInstanceAs (Decidable (_ ∧ _))

theorem lineContent_eq_lineText (h : raw.getLast? = some '\n') :
    lineContent raw = lineText raw := by
  have e : dropFinal '\n' raw = raw.dropLast := if_pos h
  rw [lineContent, if_pos h, lineText, e]

theorem IsClean.lineText_append (h : IsClean l) (ending : LineEnding) :
    lineText (l ++ ending.text) = l := by
  have hr : dropFinal '\r' l = l := dropFinal_of_getLast?_ne h.2
  cases ending with
  | lf => simp [lineText, LineEnding.text, hr]
  | crlf =>
    have e : l ++ ['\r', '\n'] = l ++ ['\r'] ++ ['\n'] := by simp
    rw [LineEnding.text, lineText, e, dropFinal_append_singleton, dropFinal_append_singleton]
  | native => simp [lineText, LineEnding.text, hr]

theorem IsClean.lineContent_append (h : IsClean l) (ending : LineEnding) :
    lineContent (l ++ ending.text) = l := by
  rw [lineContent_eq_lineText (by cases ending <;> simp [LineEnding.text]), h.lineText_append]

/-- Clean lines, put together, are the lines of the text. -/
theorem lines_joinLines (ending : LineEnding) {ls : List Text} (h : ∀ l ∈ ls, IsClean l) :
    lines (Patch.joinLines ending ls) = ls := by
  rw [lines, rawLines_joinLines ending fun l hl => (h l hl).1, List.map_map]
  calc ls.map (lineContent ∘ (· ++ ending.text)) = ls.map id :=
        List.map_congr_left fun l hl => (h l hl).lineContent_append ending
    _ = ls := List.map_id ls

end Text

end HunkEdits
