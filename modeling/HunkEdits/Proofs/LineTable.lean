import HunkEdits.Proofs.Pieces
import Mathlib.Algebra.GroupWithZero.Nat

/-!
# The table of lines

A document holds where its lines start.  These are the places right after the line feeds of its
text: the slices of the text from one start to the next are the pieces into which line feeds cut it
(`Document.slice?_lineStart`), and with them the whole text.  Such a piece says the same to the
document as to the reader of a patch, but for one case: the document takes a carriage return off
that ends an unterminated last line (`Document.lineStart_and_line?_eq`).
-/

namespace HunkEdits

namespace Text

variable {a b t x : Text} {ps : List Text} {start stop : Nat}

/-! ### Slices -/

/-- The part of a text between two bytes; there is none if they come in the wrong order, or if one
of them is behind the text or inside a character. -/
def slice? (start stop : Nat) (t : Text) : Option Text :=
  let (front, rest) := splitBytes start t
  let (part, _) := splitBytes (stop - start) rest
  if bytes front = start ∧ start + bytes part = stop then some part else none

theorem slice?_append (a x b : Text) :
    slice? (bytes a) (bytes a + bytes x) (a ++ x ++ b) = some x := by
  unfold slice?
  rw [List.append_assoc, splitBytes_append]
  simp only [Nat.add_sub_cancel_left, splitBytes_append, and_self, if_true]

/-! ### Cuts -/

theorem bytes_flatten (ps : List Text) : bytes ps.flatten = (ps.map bytes).sum := by
  induction ps with
  | nil => rfl
  | cons p ps ih => rw [List.flatten_cons, bytes_append, ih, List.map_cons, List.sum_cons]

theorem flatten_map_getD (ps : List Text) (k : Nat) :
    ((List.range k).map fun j => ps[j]?.getD []).flatten = (ps.take k).flatten := by
  induction k with
  | zero => rfl
  | succ k ih =>
    rw [List.range_succ, List.map_append, List.flatten_append, ih, List.take_add_one,
      List.flatten_append]
    cases h : ps[k]? <;> simp [h]

/-- Whether pieces are those of a text that is cut right after each line feed: in a piece a line
feed stands at the end or nowhere, each piece but the last has one, and no piece is empty. -/
structure IsCut (t : Text) (ps : List Text) : Prop where
  flatten_eq : ps.flatten = t
  ne_nil : ∀ p ∈ ps, p ≠ []
  within : ∀ p ∈ ps, '\n' ∉ p.dropLast
  ends : ∀ p ∈ ps.dropLast, p.getLast? = some '\n'

theorem isLine_of_getLast? {p : Text} (hlast : p.getLast? = some '\n') (hp : '\n' ∉ p.dropLast) :
    IsLine p := by
  obtain ⟨l, rfl⟩ := List.getLast?_eq_some_iff.1 hlast
  rw [List.dropLast_concat] at hp
  exact ⟨l, rfl, hp⟩

theorem isCut_rawLines (t : Text) : IsCut t (rawLines t) := by
  obtain ⟨qs, b, hraw, hqs, hb, -⟩ := exists_rawLines_eq t
  refine ⟨flatten_rawLines t, fun p hp => ne_nil_of_mem_rawLines hp, ?_, ?_⟩
  · intro p hp
    rcases isLine_or_of_mem_rawLines hp with ⟨l, rfl, hl⟩ | ⟨-, hn⟩
    · rwa [List.dropLast_concat]
    · exact fun hm => hn (List.dropLast_subset _ hm)
  · intro p hp
    have hline : IsLine p := by
      rw [hraw, rawLines_of_newline_notMem hb] at hp
      split at hp
      · rw [List.append_nil] at hp
        exact hqs p (List.dropLast_subset _ hp)
      · rw [List.dropLast_concat] at hp
        exact hqs p hp
    obtain ⟨l, rfl, -⟩ := hline
    rw [List.getLast?_concat]

/-- There is one way only to cut a text after its line feeds. -/
theorem IsCut.eq_rawLines (h : IsCut t ps) : ps = rawLines t := by
  obtain ⟨rfl, hne, hwithin, hends⟩ := h
  rcases List.eq_nil_or_concat ps with rfl | ⟨qs, b, rfl⟩
  · rfl
  · rw [List.concat_eq_append] at *
    rw [List.dropLast_concat] at hends
    have hqs : ∀ q ∈ qs, IsLine q := by
      intro q hq
      exact isLine_of_getLast? (hends q hq) (hwithin q (List.mem_append_left _ hq))
    have hb : rawLines b = [b] := by
      have hmem : b ∈ qs ++ [b] := List.mem_append_right _ (List.mem_singleton_self b)
      by_cases hlast : b.getLast? = some '\n'
      · obtain ⟨l, rfl, hl⟩ := isLine_of_getLast? hlast (hwithin b hmem)
        exact rawLines_line hl
      · obtain ⟨l, c, rfl⟩ := (List.eq_nil_or_concat b).resolve_left (hne b hmem)
        rw [List.concat_eq_append] at *
        have hl := hwithin _ hmem
        rw [List.dropLast_concat] at hl
        have hc : '\n' ∉ l ++ [c] := by
          refine List.not_mem_append hl ?_
          rw [List.mem_singleton]
          rintro rfl
          exact hlast List.getLast?_concat
        rw [rawLines_of_newline_notMem hc, if_neg (hne _ hmem)]
    rw [List.flatten_append, List.flatten_singleton, rawLines_flatten_append hqs, hb]

/-! ### The last raw line -/

/-- A raw line without a line feed is the last one. -/
theorem eq_last_of_getElem?_rawLines {raw : Text} {k : Nat} (hraw : (rawLines t)[k]? = some raw)
    (hlast : raw.getLast? ≠ some '\n') :
    k + 1 = (rawLines t).length ∧ t.getLast? = raw.getLast? := by
  obtain ⟨qs, b, hcut, hqs, hb, -⟩ := exists_rawLines_eq t
  have hk : qs.length ≤ k := by
    by_contra hlt
    rw [hcut, List.getElem?_append_left (Nat.lt_of_not_le hlt)] at hraw
    obtain ⟨l, rfl, -⟩ := hqs raw (List.mem_of_getElem? hraw)
    exact hlast List.getLast?_concat
  have ht := flatten_rawLines t
  rw [hcut, List.getElem?_append_right hk, rawLines_of_newline_notMem hb] at hraw
  rw [hcut, rawLines_of_newline_notMem hb] at ht ⊢
  split at hraw
  · cases hraw
  · rename_i hne
    obtain ⟨hlt, rfl⟩ := List.getElem?_eq_some_iff.1 hraw
    rw [if_neg hne, List.flatten_append, List.flatten_singleton] at ht
    rw [if_neg hne, List.length_append]
    rw [List.length_singleton] at hlt ⊢
    refine ⟨by omega, ?_⟩
    rw [← ht, List.getElem_singleton, List.getLast?_append_of_ne_nil _ hne]

/-- A carriage return that ends a text ends a raw line that has no line feed. -/
theorem exists_rawLines_eq_concat (ht : t.getLast? = some '\r') :
    ∃ qs l, rawLines t = qs ++ [l ++ ['\r']] ∧ '\n' ∉ l ++ ['\r'] := by
  obtain ⟨qs, b, hcut, -, hb, hopen⟩ := exists_rawLines_eq t
  have hne : b ≠ [] := by
    refine hopen.2 ⟨?_, by simp [ht]⟩
    rintro rfl
    cases ht
  rw [rawLines_of_newline_notMem hb, if_neg hne] at hcut
  have hflat := flatten_rawLines t
  rw [hcut, List.flatten_append, List.flatten_singleton] at hflat
  rw [← hflat, List.getLast?_append_of_ne_nil _ hne] at ht
  obtain ⟨l, rfl⟩ := List.getLast?_eq_some_iff.1 ht
  exact ⟨qs, l, hcut, hb⟩

end Text

namespace Document

open Text (slice? bytes lines IsCut)

variable {t : Text} {ps : List Text} {k : Nat}

/-! ### Starts -/

/-- From one start to the next there is one raw line, or nothing behind the last one. -/
theorem slice?_lineStart (t : Text) (k : Nat) :
    slice? ((ofText t).lineStart k) ((ofText t).lineStart (k + 1)) t =
      some ((Text.rawLines t)[k]?.getD []) := by
  have hcut : ((Text.rawLines t).take k).flatten ++ (Text.rawLines t)[k]?.getD [] ++
      ((Text.rawLines t).drop (k + 1)).flatten = t := by
    have hline : ((Text.rawLines t)[k]?.toList).flatten = (Text.rawLines t)[k]?.getD [] := by
      cases (Text.rawLines t)[k]? <;> simp
    rw [← hline, ← List.flatten_append, ← List.take_add_one, ← List.flatten_append,
      List.take_append_drop, Text.flatten_rawLines]
  have hslice := Text.slice?_append ((Text.rawLines t).take k).flatten
    ((Text.rawLines t)[k]?.getD []) ((Text.rawLines t).drop (k + 1)).flatten
  rwa [hcut, ← lineStart_ofText, ← lineStart_succ] at hslice

/-- The slices before line `k` are the raw lines before it. -/
theorem mapM_slice?_lineStart (t : Text) (k : Nat) :
    ((List.range k).mapM fun j =>
      slice? ((ofText t).lineStart j) ((ofText t).lineStart (j + 1)) t) =
        some ((List.range k).map fun j => (Text.rawLines t)[j]?.getD []) := by
  simp only [slice?_lineStart]
  exact List.mapM_pure

/-! ### What lines say -/

/-- A line says the same to a document as to the reader of a patch, unless it is the last one and
the text ends in a carriage return. -/
theorem line?_eq_getElem?_lines_of_not_last
    (h : ¬ (k + 1 = (lines t).length ∧ t.getLast? = some '\r')) :
    (ofText t).line? k = (lines t)[k]? := by
  rw [line?_ofText, lines, List.getElem?_map]
  cases hraw : (Text.rawLines t)[k]? with
  | none => rfl
  | some raw =>
    by_cases hlast : raw.getLast? = some '\n'
    · rw [Option.map_some, Option.map_some, Text.lineContent_eq_lineText hlast]
    · obtain ⟨hk, ht⟩ := Text.eq_last_of_getElem?_rawLines hraw hlast
      have hcr : raw.getLast? ≠ some '\r' := by
        rw [← ht]
        exact fun hr => h ⟨by rw [hk, lines, List.length_map], hr⟩
      rw [Option.map_some, Option.map_some, Text.lineContent, if_neg hlast, Text.lineText,
        Text.dropFinal_of_getLast?_ne hlast, Text.dropFinal_of_getLast?_ne hcr]

/-- A carriage return that ends the text is part of the last line to the reader of a patch only. -/
theorem exists_last_line (ht : t.getLast? = some '\r') :
    ∃ l, (lines t).getLast? = some (l ++ ['\r']) ∧
      (ofText t).line? ((lines t).length - 1) = some l := by
  obtain ⟨qs, l, hraw, hn⟩ := Text.exists_rawLines_eq_concat ht
  have hlast : (l ++ ['\r']).getLast? ≠ some '\n' := by simp
  have hlength : (lines t).length - 1 = qs.length := by
    rw [lines, List.length_map, hraw, List.length_append, List.length_singleton,
      Nat.add_sub_cancel]
  refine ⟨l, ?_, ?_⟩
  · rw [lines, hraw, List.map_append, List.map_singleton, List.getLast?_concat, Text.lineContent,
      if_neg hlast]
  · rw [hlength, line?_ofText, hraw, List.getElem?_append_right (Nat.le_refl _), Nat.sub_self]
    simp [Text.lineText, Text.dropFinal_of_getLast?_ne hlast]

/-- **The table of lines.**  A text can be cut after its line feeds, and however it is, the document
has line `k` start behind the first `k` pieces.  The slices from one start to the next make up the
text.  And a line of the document is that which the reader of a patch finds in the text, none where
there is none, but that an unterminated last line which ends in a carriage return loses it. -/
theorem lineStart_and_line?_eq (t : Text) :
    (∃ ps, IsCut t ps) ∧
    (∀ ps, IsCut t ps →
      (∀ k, (ofText t).lineStart k = ((ps.take k).map bytes).sum) ∧
      ∀ n, ps.length ≤ n → ∃ slices, ((List.range n).mapM fun k =>
        slice? ((ofText t).lineStart k) ((ofText t).lineStart (k + 1)) t) = some slices ∧
          slices.flatten = t) ∧
    (∀ k, ¬ (k + 1 = (lines t).length ∧ t.getLast? = some '\r') →
      (ofText t).line? k = (lines t)[k]?) ∧
    (t.getLast? = some '\r' → ∃ l, (lines t).getLast? = some (l ++ ['\r']) ∧
      (ofText t).line? ((lines t).length - 1) = some l) := by
  refine ⟨⟨_, Text.isCut_rawLines t⟩, ?_, fun k => line?_eq_getElem?_lines_of_not_last,
    exists_last_line⟩
  intro ps hps
  obtain rfl := hps.eq_rawLines
  refine ⟨?_, ?_⟩
  · intro k
    rw [lineStart_ofText, Text.bytes_flatten]
  · intro n hn
    refine ⟨_, mapM_slice?_lineStart t n, ?_⟩
    rw [Text.flatten_map_getD, List.take_of_length_le hn, Text.flatten_rawLines]

/-- A character of two bytes, a carriage return that belongs to a terminator, an empty line, and a
carriage return that ends the text. -/
theorem lineStart_and_line?_eq_mixed :
    let t := "é\r\n\na\r".toList
    IsCut t [['é', '\r', '\n'], ['\n'], ['a', '\r']] ∧
      (List.range 5).map (ofText t).lineStart = [0, 4, 5, 7, 7] ∧
      (∃ slices, ((List.range 4).mapM fun k =>
        slice? ((ofText t).lineStart k) ((ofText t).lineStart (k + 1)) t) = some slices ∧
          slices.flatten = t) ∧
      (ofText t).line? 0 = (lines t)[0]? ∧ (ofText t).line? 3 = (lines t)[3]? ∧
      ∃ l, (lines t).getLast? = some (l ++ ['\r']) ∧ (ofText t).line? 2 = some l := by
  intro t
  have hcut : IsCut t [['é', '\r', '\n'], ['\n'], ['a', '\r']] :=
    ⟨rfl, by decide, by decide, by decide⟩
  obtain ⟨-, hall, hsame, hlast⟩ := lineStart_and_line?_eq t
  obtain ⟨hstart, hslices⟩ := hall _ hcut
  refine ⟨hcut, ?_, hslices 4 (by decide), hsame 0 (by decide), hsame 3 (by decide), ?_⟩
  · rw [List.map_congr_left fun k _ => hstart k]
    rfl
  · exact hlast (by decide)

end Document

end HunkEdits
