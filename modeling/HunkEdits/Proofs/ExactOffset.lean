import HunkEdits.Proofs.LineTable
import HunkEdits.Proofs.Splicing

/-!
# Exact places of positions

A text can be cut at each of its lines (`Text.LineOf`), and there is one for every number up to that
of its line feeds.  A position in such a line lies after the shortest leading part of what the line
says that is wide enough (`Document.Reaches`), so an advance within the line leads to the byte where
its text ends.

Every position thus lies between two characters of the text, and the slices that a pass of edits
takes begin and end at such places: it can be made with slices that fail if they would not
(`Edit.applySlicesFrom?_eq`).
-/

namespace HunkEdits

/-! ### A text cut at one of its lines -/

namespace Text

variable {t : Text} {k : Nat}

/-- A text cut at one of its lines: what stands in front of the line, what it says, the carriage
return and the line feed that end it, and what stands behind it.  A carriage return at the end of a
line is no part of what it says, and only the last line may lack its line feed. -/
structure LineOf (t : Text) where
  front : Text
  content : Text
  cr : Text
  lf : Text
  rest : Text
  text_eq : t = front ++ (content ++ cr ++ lf ++ rest)
  front_ends : front = [] ∨ front.getLast? = some '\n'
  newline_notMem : '\n' ∉ content
  cr_eq : cr = ['\r'] ∨ cr = [] ∧ content.getLast? ≠ some '\r'
  lf_eq : lf = ['\n'] ∨ lf = [] ∧ rest = []

/-- The number of a line, which counts the line feeds in front of it. -/
def LineOf.number (l : LineOf t) : Nat :=
  l.front.count '\n'

/-- A text can be cut behind each of its line feeds. -/
theorem exists_front (h : k ≤ t.count '\n') :
    ∃ front rest, t = front ++ rest ∧ (front = [] ∨ front.getLast? = some '\n') ∧
      front.count '\n' = k := by
  induction t generalizing k with
  | nil =>
    rw [List.count_nil, Nat.le_zero] at h
    exact ⟨[], [], rfl, .inl rfl, h.symm⟩
  | cons c t ih =>
    cases k with
    | zero => exact ⟨[], c :: t, rfl, .inl rfl, rfl⟩
    | succ k =>
      by_cases hc : c = '\n'
      · subst hc
        rw [List.count_cons_self] at h
        obtain ⟨front, rest, rfl, hfront, hk⟩ := ih (Nat.le_of_succ_le_succ h)
        refine ⟨'\n' :: front, rest, rfl, .inr ?_, by rw [List.count_cons_self, hk]⟩
        rcases hfront with rfl | hfront
        · rfl
        · rw [List.getLast?_cons, hfront]
          rfl
      · rw [List.count_cons_of_ne hc] at h
        obtain ⟨front, rest, rfl, hfront, hk⟩ := ih h
        refine ⟨c :: front, rest, rfl, .inr ?_, by rw [List.count_cons_of_ne hc, hk]⟩
        rcases hfront with rfl | hfront
        · cases hk
        · rw [List.getLast?_cons, hfront]
          rfl

/-- There is a line for every number up to that of the line feeds. -/
theorem exists_lineOf (h : k ≤ t.count '\n') : ∃ l : LineOf t, l.number = k := by
  obtain ⟨front, behind, ht, hfront, hk⟩ := exists_front h
  obtain ⟨m, tail, rfl, hm, htail⟩ := exists_eq_append_newline behind
  obtain ⟨lf, rest, rfl, hlf⟩ : ∃ lf rest, tail = lf ++ rest ∧
      (lf = ['\n'] ∨ lf = [] ∧ rest = []) := by
    rcases htail with rfl | ⟨rest, rfl⟩
    · exact ⟨[], [], rfl, .inr ⟨rfl, rfl⟩⟩
    · exact ⟨['\n'], rest, rfl, .inl rfl⟩
  by_cases hr : m.getLast? = some '\r'
  · obtain ⟨content, rfl⟩ := List.getLast?_eq_some_iff.1 hr
    exact ⟨⟨front, content, ['\r'], lf, rest, by simpa using ht, hfront,
      fun hc => hm (List.mem_append_left _ hc), .inl rfl, hlf⟩, hk⟩
  · exact ⟨⟨front, m, [], lf, rest, by simpa using ht, hfront, hm, .inr ⟨rfl, hr⟩, hlf⟩, hk⟩

/-- Besides those that end in a line feed there is at most one raw line. -/
theorem length_rawLines_le_count (t : Text) : (rawLines t).length ≤ t.count '\n' + 1 := by
  obtain ⟨a, b, rfl, hb, ha⟩ := t.exists_eq_append
  have hlast : (rawLines b).length ≤ 1 := by
    rw [rawLines_of_newline_notMem hb]
    split <;> simp
  rw [rawLines_append ha, List.length_append, length_rawLines_of_ends ha, List.count_append]
  omega

namespace LineOf

theorem newline_notMem_cr (l : LineOf t) : '\n' ∉ l.content ++ l.cr := by
  rcases l.cr_eq with hcr | ⟨hcr, -⟩ <;> simp [hcr, l.newline_notMem]

theorem dropFinal_cr (l : LineOf t) : dropFinal '\r' (l.content ++ l.cr) = l.content := by
  rcases l.cr_eq with hcr | ⟨hcr, hr⟩
  · rw [hcr, dropFinal_append_singleton]
  · rw [hcr, List.append_nil, dropFinal_of_getLast?_ne hr]

theorem lf_rest (l : LineOf t) : l.lf ++ l.rest = [] ∨ ∃ r, l.lf ++ l.rest = '\n' :: r := by
  rcases l.lf_eq with hlf | ⟨hlf, hrest⟩
  · exact .inr ⟨l.rest, by rw [hlf]; rfl⟩
  · exact .inl (by rw [hlf, hrest]; rfl)

end LineOf

end Text

/-! ### Positions in a line -/

namespace Document

open Text (bytes LineOf)

variable {t x : Text}

theorem line?_number (l : LineOf t) : ((ofText t).line? l.number).getD [] = l.content := by
  have hline := line?_count l.front_ends (l.content ++ l.cr ++ l.lf ++ l.rest)
  rw [← l.text_eq, List.append_assoc _ l.lf] at hline
  rw [LineOf.number, hline,
    Text.getD_lineText_head_rawLines l.newline_notMem_cr l.lf_rest, l.dropFinal_cr]

theorem lineStart_number (l : LineOf t) : (ofText t).lineStart l.number = bytes l.front := by
  have hstart := lineStart_count l.front_ends (l.content ++ l.cr ++ l.lf ++ l.rest)
  rwa [← l.text_eq] at hstart

theorem offsetAt_number (e : Encoding) (l : LineOf t) (n : Nat) :
    ∃ x, Reaches e n l.content x ∧
      (ofText t).offsetAt e ⟨l.number, n⟩ = (ofText t).lineStart l.number + bytes x := by
  obtain ⟨x, hx, ho⟩ := exists_reaches e ((ofText t).lineStart l.number) n l.content
  refine ⟨x, hx, ?_⟩
  rw [offsetAt, line?_number, ho]

/-- Reading on within a line leads to the byte where the text that is read ends. -/
theorem offsetAt_advance_number (e : Encoding) (l : LineOf t) (hx : x <+: l.content) :
    (ofText t).offsetAt e ((Position.ofLine l.number).advance e x) =
      (ofText t).lineStart l.number + bytes x := by
  obtain ⟨y, hy⟩ := hx
  have hn : '\n' ∉ x := fun hm => l.newline_notMem (hy ▸ List.mem_append_left y hm)
  rw [Position.advance_of_newline_notMem hn, offsetAt]
  show columnOffset e _ (0 + _) (((ofText t).line? l.number).getD []) = _
  rw [line?_number, ← hy, Nat.zero_add, columnOffset_append]
  rfl

theorem offsetAt_of_count_lt (e : Encoding) {p : Position} (h : t.count '\n' < p.line) :
    (ofText t).offsetAt e p = bytes t := by
  have hlength : (Text.rawLines t).length ≤ p.line :=
    Nat.le_trans (Text.length_rawLines_le_count t) h
  rw [offsetAt, lineStart_of_length_le hlength, line?_of_length_le hlength]
  rfl

end Document

/-! ### A pass that takes slices -/

namespace Edit

open Text (bytes slice?)

variable {t : Text} {e : Encoding}

/-- Applies edits behind byte `last` of a text, where `written` is what has been made of the text in
front of it.  There is no result if a slice of the text cannot be taken. -/
def applySlicesFrom? (t : Text) (e : Encoding) (last : Nat) (written : Text) :
    List Edit → Option (Except PatchError Text)
  | [] => (slice? last (bytes t) t).map fun rest => .ok (written ++ rest)
  | edit :: edits =>
    let (start, stop) := edit.byteRange (.ofText t) e
    if start < last then some (.error (.overlap edit.start))
    else (slice? last start t).bind fun kept =>
      applySlicesFrom? t e stop (written ++ kept ++ edit.text) edits

/-- Applies edits by slices of the text. -/
def applySlices? (t : Text) (edits : List Edit) (e : Encoding) : Option (Except PatchError Text) :=
  applySlicesFrom? t e 0 [] edits

/-- All slices can be taken, and they are what the pass takes off the text step by step. -/
theorem applySlicesFrom?_eq (e : Encoding) {front rest : Text} (ht : front ++ rest = t)
    (written : Text) (edits : List Edit) :
    applySlicesFrom? t e (bytes front) written edits =
      some ((applyFrom (.ofText t) e (bytes front) rest edits).map (written ++ ·)) := by
  induction edits generalizing front rest written with
  | nil =>
    have hslice := Text.slice?_append front rest []
    rw [List.append_nil, ht, ← Text.bytes_append, ht] at hslice
    rw [applySlicesFrom?, hslice]
    rfl
  | cons edit edits ih =>
    obtain ⟨a, gone, ⟨behind, hbehind⟩, hrange⟩ := exists_byteRange_eq t e edit
    unfold applySlicesFrom? applyFrom
    rw [hrange]
    by_cases hlt : bytes a < bytes front
    · simp only [if_pos hlt]
      rfl
    · -- the text behind `front` is what stays in front of the edit, what goes, and the rest
      obtain ⟨kept, rfl⟩ := Text.isPrefix_of_bytes_le ⟨rest, ht⟩
        ⟨gone ++ behind, by rw [← hbehind, List.append_assoc]⟩ (Nat.le_of_not_lt hlt)
      have hrest : rest = kept ++ (gone ++ behind) := by
        rw [← hbehind, List.append_assoc, List.append_assoc] at ht
        exact List.append_cancel_left ht
      have hslice := Text.slice?_append front kept (gone ++ behind)
      rw [List.append_assoc, ← hrest, ht, ← Text.bytes_append] at hslice
      have ih := ih hbehind (written ++ kept ++ edit.text)
      rw [Text.bytes_append] at ih
      have hstart : bytes (front ++ kept) - bytes front = bytes kept := by
        rw [Text.bytes_append, Nat.add_sub_cancel_left]
      simp only [if_neg hlt, hslice, Option.bind_some, ih, hstart, hrest, Text.splitBytes_append,
        Nat.add_sub_cancel_left]
      cases applyFrom (.ofText t) e (bytes (front ++ kept) + bytes gone) behind edits with
      | error err => rfl
      | ok new => simp [Except.map]

theorem applySlices?_eq (t : Text) (edits : List Edit) (e : Encoding) :
    applySlices? t edits e = some (apply t edits e) := by
  rw [applySlices?, apply]
  have := applySlicesFrom?_eq e (List.nil_append t) [] edits
  rw [Text.bytes_nil] at this
  rw [this]
  cases applyFrom (.ofText t) e 0 t edits <;> rfl

end Edit

namespace Document

open Text (bytes LineOf)

/-- **Where positions lie, exactly.**  A position in a line that the text does not have lies at the
end of the text.  Every other line is one at which the text can be cut, and a position in it lies
behind the shortest leading part of what the line says that is wide enough, or behind all of it;
reading a leading part from the start of the line leads to the byte where that part ends.

So each position lies between two characters of the text, a later one at no earlier byte, and edits
of whatever positions can be applied by slices of the text, all of which can be taken. -/
theorem offsetAt_exact (t : Text) (e : Encoding) :
    (∀ p : Position, t.count '\n' < p.line → (ofText t).offsetAt e p = bytes t) ∧
    (∀ k, k ≤ t.count '\n' → ∃ l : LineOf t, l.number = k) ∧
    (∀ l : LineOf t, (ofText t).lineStart l.number = bytes l.front ∧
      (∀ n, ∃ x, Reaches e n l.content x ∧
        (ofText t).offsetAt e ⟨l.number, n⟩ = (ofText t).lineStart l.number + bytes x) ∧
      ∀ x, x <+: l.content → (ofText t).offsetAt e ((Position.ofLine l.number).advance e x) =
        (ofText t).lineStart l.number + bytes x) ∧
    (∀ p, ∃ a b, t = a ++ b ∧ (ofText t).offsetAt e p = bytes a) ∧
    (∀ p q, p ≤ q → (ofText t).offsetAt e p ≤ (ofText t).offsetAt e q) ∧
    ∀ edits, Edit.applySlices? t edits e = some (Edit.apply t edits e) := by
  refine ⟨fun p => offsetAt_of_count_lt e, fun k => Text.exists_lineOf, ?_, ?_,
    fun p q => offsetAt_mono t e, fun edits => Edit.applySlices?_eq t edits e⟩
  · intro l
    exact ⟨lineStart_number l, offsetAt_number e l, fun x => offsetAt_advance_number e l⟩
  · intro p
    obtain ⟨a, ⟨b, hb⟩, ho⟩ := exists_offsetAt_eq t e p
    exact ⟨a, b, hb.symm, ho⟩

/-- A position inside a surrogate pair, one in a carriage return that is no part of a line end, and
one in a line that the text does not have; edits whose ranges end before they begin, and edits that
overlap. -/
theorem offsetAt_exact_surrogates :
    let t := "a😀b\r\nc\r\r\nd\r".toList
    (ofText t).offsetAt .utf16 ⟨3, 0⟩ = 14 ∧
      (∃ l : LineOf t, l.number = 2) ∧
      (∃ x, Reaches .utf16 2 ['a', '😀', 'b'] x ∧ (ofText t).offsetAt .utf16 ⟨0, 2⟩ = bytes x) ∧
      (ofText t).offsetAt .utf16 ((Position.ofLine 1).advance .utf16 ['c', '\r']) = 10 ∧
      (ofText t).offsetAt .utf16 ⟨0, 2⟩ ≤ (ofText t).offsetAt .utf16 ⟨0, 3⟩ ∧
      Edit.applySlices? t [.replace ⟨1, 9⟩ ⟨0, 0⟩ ['x'], .delete ⟨2, 1⟩ ⟨9, 9⟩] .utf16 =
        some (.ok "a😀b\r\nc\rx\r\nd".toList) ∧
      Edit.applySlices? t [.delete ⟨0, 0⟩ ⟨1, 1⟩, .insert ⟨0, 3⟩ ['x']] .utf16 =
        some (.error (.overlap ⟨0, 3⟩)) := by
  intro t
  obtain ⟨hpast, hlines, hline, -, hmono, happly⟩ := offsetAt_exact t .utf16
  let first : LineOf t := ⟨[], ['a', '😀', 'b'], ['\r'], ['\n'], "c\r\r\nd\r".toList, by decide,
    .inl rfl, by decide, .inl rfl, .inl rfl⟩
  let second : LineOf t := ⟨"a😀b\r\n".toList, ['c', '\r'], ['\r'], ['\n'], ['d', '\r'],
    by decide, .inr (by decide), by decide, .inl rfl, .inl rfl⟩
  obtain ⟨hstart, hcolumn, -⟩ := hline first
  obtain ⟨hstart', -, hadvance⟩ := hline second
  refine ⟨hpast ⟨3, 0⟩ (by decide), hlines 2 (by decide), ?_, ?_, hmono _ _ (by decide), ?_, ?_⟩
  · obtain ⟨x, hx, ho⟩ := hcolumn 2
    rw [hstart] at ho
    exact ⟨x, hx, ho.trans (Nat.zero_add _)⟩
  · have ho := hadvance ['c', '\r'] List.prefix_rfl
    rw [hstart'] at ho
    exact ho
  · rw [happly]
    decide
  · rw [happly]
    decide

end Document

end HunkEdits
