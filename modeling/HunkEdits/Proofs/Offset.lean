import HunkEdits.Document
import HunkEdits.Proofs.Line
import Mathlib.Data.List.DropRight

/-!
# Bytes of positions

A column lies behind the shortest leading part of its line that is wide enough
(`Document.exists_reaches`).  A position that is reached by reading a leading part of a text lies at
the byte where that part ends, under every encoding (`Document.offsetAt_advance`), as long as a
word can count its lines.  The one exception is a part that ends between a carriage return and the
line feed after it, or in a carriage return that ends the text: there the position means the byte
before the carriage return, which is no content of its line.
-/

namespace HunkEdits

/-! ### Reading on -/

namespace Position

variable {e : Encoding}

/-- The number of code units of a text. -/
def width (e : Encoding) : Text → Nat
  | [] => 0
  | c :: t => e.width c + width e t

theorem advance_of_newline_notMem {t : Text} (h : '\n' ∉ t) (p : Position) :
    p.advance e t = ⟨p.line, p.character + width e t⟩ := by
  induction t generalizing p with
  | nil => rfl
  | cons c t ih =>
    obtain ⟨hc, ht⟩ := List.ne_and_not_mem_of_not_mem_cons h
    rw [advance_cons, ih ht, step, if_neg (Ne.symm hc)]
    rw [width, Nat.add_assoc]

theorem advance_newline (p : Position) (t : Text) :
    p.advance e (t ++ ['\n']) = .anchor (p.line + (t ++ ['\n']).count '\n') := by
  rw [advance_append, advance_cons, advance_nil, step_newline, anchor_advance, List.count_append,
    Nat.add_assoc]
  rfl

end Position

/-! ### Cutting a text -/

namespace Text

theorem length_rawLines_newline (t : Text) :
    (rawLines (t ++ ['\n'])).length = (t ++ ['\n']).count '\n' := by
  induction t with
  | nil => rfl
  | cons c t ih =>
    obtain ⟨l, ls, hr⟩ := exists_rawLines_newline_eq_cons t
    rw [List.cons_append, rawLines_cons, List.count_cons, ← ih, hr, consRaw]
    by_cases hc : c = '\n' <;> simp [hc]

theorem length_rawLines_of_ends {t : Text} (ht : t = [] ∨ t.getLast? = some '\n') :
    (rawLines t).length = t.count '\n' := by
  rcases ht with rfl | ht
  · rfl
  · obtain ⟨t, rfl⟩ := List.getLast?_eq_some_iff.1 ht
    exact length_rawLines_newline t

theorem dropFinal_append {c : Char} {s t : Text} (h : t = [] → s.getLast? ≠ some c) :
    ∃ y, dropFinal c (s ++ t) = s ++ y := by
  rcases List.eq_nil_or_concat t with rfl | ⟨t, d, rfl⟩
  · exact ⟨[], by rw [List.append_nil, dropFinal_of_getLast?_ne (h rfl)]⟩
  · by_cases hd : d = c
    · subst hd
      exact ⟨t, by rw [List.concat_eq_append, ← List.append_assoc, dropFinal_append_singleton]⟩
    · rw [List.concat_eq_append]
      exact ⟨t ++ [d], dropFinal_of_getLast?_ne (by simp [hd])⟩

/-- Every text is text without line feeds, and then nothing or a line feed and more. -/
theorem exists_eq_append_newline (t : Text) :
    ∃ m tail, t = m ++ tail ∧ '\n' ∉ m ∧ (tail = [] ∨ ∃ r, tail = '\n' :: r) := by
  refine ⟨t.takeWhile (· != '\n'), t.dropWhile (· != '\n'),
    (List.takeWhile_append_dropWhile).symm, ?_, ?_⟩
  · intro hm
    simpa using List.mem_takeWhile_imp hm
  · cases hd : t.dropWhile (· != '\n') with
    | nil => exact .inl rfl
    | cons c r =>
      have := List.head?_dropWhile_not (· != '\n') t
      rw [hd] at this
      exact .inr ⟨r, by simp_all⟩

/-- Whether a text is cut inside a line end, or after a carriage return that ends it. -/
def SplitsLineEnd (front rest : Text) : Prop :=
  front.getLast? = some '\r' ∧ (rest = [] ∨ rest.head? = some '\n')

instance (front rest : Text) : Decidable (SplitsLineEnd front rest) :=
  inferInstanceAs (Decidable (_ ∧ _))

/-- What the first line of a text says, where `x` is the text in front of the first line feed. -/
theorem getD_lineText_head_rawLines {x tail : Text} (hx : '\n' ∉ x)
    (htail : tail = [] ∨ ∃ r, tail = '\n' :: r) :
    ((rawLines (x ++ tail)).head?.map lineText).getD [] = dropFinal '\r' x := by
  rcases htail with rfl | ⟨r, rfl⟩
  · rw [List.append_nil, rawLines_of_newline_notMem hx]
    split
    · rename_i hnil
      rw [hnil]
      rfl
    · have hn : dropFinal '\n' x = x :=
        dropFinal_of_getLast?_ne fun hl => hx (List.mem_of_getLast? hl)
      simp [lineText, hn]
  · rw [rawLines_line_append hx]
    simp [lineText]

/-- The first line of a text goes on from its leading part, where the cut is not inside its end. -/
theorem lineText_head_rawLines {b rest : Text} (hb : '\n' ∉ b) (h : ¬ SplitsLineEnd b rest) :
    ∃ y, ((rawLines (b ++ rest)).head?.map lineText).getD [] = b ++ y := by
  obtain ⟨m, tail, rfl, hm, htail⟩ := exists_eq_append_newline rest
  -- the carriage return of a line end belongs to `b` only if the cut is inside that line end
  have hlast : m = [] → b.getLast? ≠ some '\r' := by
    rintro rfl hr
    rcases htail with rfl | ⟨r, rfl⟩
    · exact h ⟨hr, .inl rfl⟩
    · exact h ⟨hr, .inr rfl⟩
  obtain ⟨y, hy⟩ := dropFinal_append hlast
  refine ⟨y, ?_⟩
  rw [← List.append_assoc, getD_lineText_head_rawLines (List.not_mem_append hb hm) htail, hy]

end Text

/-! ### Resolving -/

namespace Document

variable {e : Encoding} {t : Text} {n : Nat}

/-- Lines that lie past the end of a document mean its end. -/
theorem lineStart_of_length_le (h : (Text.rawLines t).length ≤ n) :
    (ofText t).lineStart n = Text.bytes t := by
  rw [lineStart_ofText, List.take_of_length_le h, Text.flatten_rawLines]

theorem line?_of_length_le (h : (Text.rawLines t).length ≤ n) : (ofText t).line? n = none := by
  rw [line?_ofText, List.getElem?_eq_none h, Option.map_none]

section

variable {a : Text} (ha : a = [] ∨ a.getLast? = some '\n')
include ha

/-- The line behind whole lines starts where they end. -/
theorem lineStart_count (rest : Text) :
    (ofText (a ++ rest)).lineStart (a.count '\n') = Text.bytes a := by
  rw [lineStart_ofText, Text.rawLines_append ha, ← Text.length_rawLines_of_ends ha, List.take_left,
    Text.flatten_rawLines]

theorem line?_count (rest : Text) :
    (ofText (a ++ rest)).line? (a.count '\n') = (Text.rawLines rest).head?.map Text.lineText := by
  rw [line?_ofText, Text.rawLines_append ha, ← Text.length_rawLines_of_ends ha,
    List.getElem?_append_right (Nat.le_refl _), Nat.sub_self, ← List.head?_eq_getElem?]

end

/-- Whether `x` is the shortest leading part of a text that is at least `n` code units wide, or the
whole text where it has no such part. -/
def Reaches (e : Encoding) (n : Nat) (t x : Text) : Prop :=
  x <+: t ∧ (n ≤ Position.width e x ∧
      (∀ y, y <+: t → n ≤ Position.width e y → x.length ≤ y.length) ∨
    x = t ∧ ∀ y, y <+: t → Position.width e y < n)

/-- A column lies behind the shortest leading part of its line that is wide enough. -/
theorem exists_reaches (e : Encoding) (start n : Nat) (t : Text) :
    ∃ x, Reaches e n t x ∧ columnOffset e start n t = start + Text.bytes x := by
  induction t generalizing start n with
  | nil =>
    refine ⟨[], ⟨List.prefix_rfl, ?_⟩, rfl⟩
    by_cases hn : n = 0
    · exact .inl ⟨Nat.le_of_eq hn, fun _ _ _ => Nat.zero_le _⟩
    · refine .inr ⟨rfl, ?_⟩
      rintro y hy
      rw [List.prefix_nil.1 hy]
      exact Nat.pos_of_ne_zero hn
  | cons c t ih =>
    unfold columnOffset
    split
    · rename_i hn
      exact ⟨[], ⟨List.nil_prefix, .inl ⟨Nat.le_of_eq hn, fun _ _ _ => Nat.zero_le _⟩⟩, rfl⟩
    · rename_i hn
      obtain ⟨x, ⟨hx, hreach⟩, ho⟩ := ih (start + c.utf8Size) (n - e.width c)
      refine ⟨c :: x, ⟨List.cons_prefix_cons.2 ⟨rfl, hx⟩, ?_⟩, ?_⟩
      · rcases hreach with ⟨hwide, hshort⟩ | ⟨rfl, hall⟩
        · refine .inl ⟨?_, ?_⟩
          · rw [Position.width]
            omega
          · intro y hy hwide'
            rcases List.prefix_cons_iff.1 hy with rfl | ⟨y, rfl, hy'⟩
            · exact absurd (Nat.le_zero.1 hwide') hn
            · rw [Position.width] at hwide'
              exact Nat.succ_le_succ (hshort y hy' (by omega))
        · refine .inr ⟨rfl, ?_⟩
          intro y hy
          rcases List.prefix_cons_iff.1 hy with rfl | ⟨y, rfl, hy'⟩
          · exact Nat.pos_of_ne_zero hn
          · have := hall y hy'
            rw [Position.width]
            omega
      · rw [ho, Text.bytes_cons, Nat.add_assoc]

theorem columnOffset_append (e : Encoding) (start : Nat) (x y : Text) :
    columnOffset e start (Position.width e x) (x ++ y) = start + Text.bytes x := by
  induction x generalizing start with
  | nil => cases y <;> simp [columnOffset, Position.width]
  | cons c x ih =>
    have hpos := e.width_pos c
    rw [Position.width, List.cons_append, columnOffset, if_neg (by omega),
      Nat.add_sub_cancel_left, ih, Text.bytes_cons, Nat.add_assoc]

/-- **Reading a part of a text leads to its end**, unless it has more lines than a word can count or
ends inside a line end. -/
theorem offsetAt_advance {x rest : Text} (hx : x.count '\n' < wordBound)
    (h : ¬ Text.SplitsLineEnd x rest) :
    (ofText (x ++ rest)).offsetAt e ((Position.ofLine 0).advance e x) = Text.bytes x := by
  obtain ⟨a, b, rfl, hb, ha⟩ := x.exists_eq_append
  have hsplit : ¬ Text.SplitsLineEnd b rest := by
    rintro ⟨hr, hrest⟩
    refine h ⟨?_, hrest⟩
    rw [List.getLast?_append, hr]
    rfl
  obtain ⟨y, hy⟩ := Text.lineText_head_rawLines hb hsplit
  have hp : (Position.ofLine 0).advance e (a ++ b) = ⟨a.count '\n', Position.width e b⟩ := by
    have hline : (Position.ofLine 0).advance e a = .ofLine (a.count '\n') := by
      rcases ha with rfl | ha
      · rfl
      · obtain ⟨a, rfl⟩ := List.getLast?_eq_some_iff.1 ha
        have ha : (a ++ ['\n']).count '\n' < wordBound :=
          Nat.lt_of_le_of_lt (List.Sublist.count_le _ (List.sublist_append_left _ b)) hx
        rw [Position.advance_newline, Position.ofLine, Nat.zero_add, Position.anchor_of_lt ha]
    rw [Position.advance_append, hline, Position.advance_of_newline_notMem hb]
    simp [Position.ofLine]
  rw [hp, offsetAt, List.append_assoc, lineStart_count ha, line?_count ha, hy, columnOffset_append,
    Text.bytes_append]

end Document

end HunkEdits
