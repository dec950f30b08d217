import HunkEdits.Edit.Splice
import HunkEdits.Proofs.Resolution
import HunkEdits.Proofs.Rewriting

/-!
# One pass and back to front

Edits are applied in one pass from the first to the last.  That is the same as making them one at a
time from the last to the first, and it fails exactly where an edit begins before the one in front
of it ends (`Edit.apply_eq_spliceAll`).

Both readings follow from one cut of the text along the ranges of the edits: what stays in front of
each edit, what the edit takes out, and what stays behind the last one (`Edit.exists_cuts`).
-/

namespace HunkEdits

/-! ### Bytes of a text -/

namespace Text

variable {s t a b : Text}

/-- The bytes of the UTF-8 form of a text. -/
def utf8 (t : Text) : List UInt8 :=
  t.flatMap String.utf8EncodeChar

@[simp] theorem utf8_append (s t : Text) : utf8 (s ++ t) = utf8 s ++ utf8 t :=
  List.flatMap_append

@[simp] theorem length_utf8 (t : Text) : (utf8 t).length = bytes t := by
  induction t with
  | nil => rfl
  | cons c t ih =>
    rw [utf8, List.flatMap_cons, List.length_append, String.length_utf8EncodeChar, bytes_cons,
      ← ih, utf8]

/-- Of two leading parts of a text the one of fewer bytes is a part of the other. -/
theorem isPrefix_of_bytes_le (ha : a <+: t) (hb : b <+: t) (h : bytes a ≤ bytes b) : a <+: b := by
  rcases List.prefix_or_prefix_of_prefix ha hb with hab | ⟨x, rfl⟩
  · exact hab
  · have hx : bytes x = 0 := by
      rw [bytes_append] at h
      omega
    simp [bytes_eq_zero_iff.1 hx]

theorem splice_append (x y z new : Text) :
    splice (bytes x) (bytes (x ++ y)) new (x ++ y ++ z) = x ++ new ++ z := by
  unfold splice
  rw [splitBytes_append (x ++ y), List.append_assoc x y, splitBytes_append]

end Text

namespace Edit

open Text

variable {d : Document} {e : Encoding} {f g edit : Edit} {edits : List Edit} {t : Text} {n : Nat}

/-! ### Overlaps -/

/-- The first edit that begins before the one in front of it ends. -/
def firstOverlap? (d : Document) (e : Encoding) (edits : List Edit) : Option Edit :=
  ((edits.zip edits.tail).find? fun (f, g) => (g.byteRange d e).1 < (f.byteRange d e).2).map
    Prod.snd

theorem firstOverlap?_cons_cons (d : Document) (e : Encoding) (f g : Edit) (edits : List Edit) :
    firstOverlap? d e (f :: g :: edits) =
      if (g.byteRange d e).1 < (f.byteRange d e).2 then some g
      else firstOverlap? d e (g :: edits) := by
  unfold firstOverlap?
  rw [List.tail_cons, List.tail_cons, List.zip_cons_cons, List.find?_cons]
  by_cases h : (g.byteRange d e).1 < (f.byteRange d e).2 <;> simp [h]

theorem firstOverlap?_cons_eq_none_iff : firstOverlap? d e (f :: edits) = none ↔
    (∀ g ∈ edits.head?, (f.byteRange d e).2 ≤ (g.byteRange d e).1) ∧
      firstOverlap? d e edits = none := by
  cases edits with
  | nil => simp [firstOverlap?]
  | cons g edits =>
    rw [firstOverlap?_cons_cons]
    by_cases h : (g.byteRange d e).1 < (f.byteRange d e).2
    · simp [h, Nat.not_le.2 h]
    · simp [h, Nat.le_of_not_lt h]

/-- The pass stops at the first overlap. -/
theorem applyFrom_eq_error {done : Nat} {rest : Text} (h : firstOverlap? d e edits = some g)
    (hdone : ∀ f ∈ edits.head?, done ≤ (f.byteRange d e).1) :
    applyFrom d e done rest edits = .error (.overlap g.start) := by
  induction edits generalizing done rest with
  | nil => cases h
  | cons f edits ih =>
    have hf : ¬ (f.byteRange d e).1 < done := Nat.not_lt.2 (hdone f rfl)
    have hrest : ∀ rest, applyFrom d e (f.byteRange d e).2 rest edits =
        .error (.overlap g.start) := by
      intro rest
      cases edits with
      | nil => cases h
      | cons f' edits =>
        rw [firstOverlap?_cons_cons] at h
        split at h
        · rename_i hlt
          rw [← Option.some.inj h]
          simp only [applyFrom, if_pos hlt]
        · rename_i hle
          refine ih h ?_
          rintro _ ⟨⟩
          exact Nat.le_of_not_lt hle
    simp only [applyFrom, if_neg hf, hrest]
    rfl

/-! ### Bytes outside of the ranges -/

/-- Replaces the bytes in the range of an edit by those of its text. -/
def spliceBytes (d : Document) (e : Encoding) (edit : Edit) (bs : List UInt8) : List UInt8 :=
  bs.take (edit.byteRange d e).1 ++ utf8 edit.text ++ bs.drop (edit.byteRange d e).2

/-- The bytes that are in no range, where the first one is byte `n` of the text. -/
def outsideFrom (d : Document) (e : Encoding) (edits : List Edit) (n : Nat) (bs : List UInt8) :
    List UInt8 :=
  ((bs.zipIdx n).filter fun b =>
    edits.all fun edit => b.2 < (edit.byteRange d e).1 ∨ (edit.byteRange d e).2 ≤ b.2).map Prod.fst

section

variable {bs : List UInt8}

theorem outsideFrom_append (bs bs' : List UInt8) : outsideFrom d e edits n (bs ++ bs') =
    outsideFrom d e edits n bs ++ outsideFrom d e edits (n + bs.length) bs' := by
  unfold outsideFrom
  rw [List.zipIdx_append, List.filter_append, List.map_append]

theorem outsideFrom_eq_self (h : ∀ edit ∈ edits, n + bs.length ≤ (edit.byteRange d e).1) :
    outsideFrom d e edits n bs = bs := by
  unfold outsideFrom
  rw [List.filter_eq_self.2, List.zipIdx_map_fst]
  intro b hb
  have hlt := List.snd_lt_add_of_mem_zipIdx hb
  rw [List.all_eq_true]
  intro edit hedit
  have := h edit hedit
  exact decide_eq_true (.inl (by omega))

theorem outsideFrom_eq_nil (hedit : edit ∈ edits) (hstart : (edit.byteRange d e).1 ≤ n)
    (hstop : n + bs.length ≤ (edit.byteRange d e).2) : outsideFrom d e edits n bs = [] := by
  unfold outsideFrom
  rw [List.filter_eq_nil_iff.2, List.map_nil]
  intro b hb hall
  have hlt := List.snd_lt_add_of_mem_zipIdx hb
  have hle := List.le_snd_of_mem_zipIdx hb
  have := of_decide_eq_true (List.all_eq_true.1 hall edit hedit)
  omega

/-- An edit that ends before the bytes takes none of them. -/
theorem outsideFrom_cons (hstop : (edit.byteRange d e).2 ≤ n) (bs : List UInt8) :
    outsideFrom d e (edit :: edits) n bs = outsideFrom d e edits n bs := by
  unfold outsideFrom
  congr 1
  refine List.filter_congr ?_
  intro b hb
  have hle := List.le_snd_of_mem_zipIdx hb
  rw [List.all_cons, decide_eq_true (.inr (by omega)), Bool.true_and]

end

/-- The bytes of a text that are in no range. -/
def outside (d : Document) (e : Encoding) (edits : List Edit) (t : Text) : List UInt8 :=
  outsideFrom d e edits 0 (utf8 t)

/-! ### A text cut along the ranges of edits -/

/-- An edit takes out a piece of the text between two characters. -/
theorem exists_byteRange_eq (t : Text) (e : Encoding) (edit : Edit) :
    ∃ a b, a ++ b <+: t ∧ edit.byteRange (.ofText t) e = (bytes a, bytes a + bytes b) := by
  obtain ⟨a, ha, hstart⟩ := Document.exists_offsetAt_eq t e edit.start
  obtain ⟨b, hb, hstop⟩ : ∃ b, b <+: t ∧
      max ((Document.ofText t).offsetAt e edit.finish) ((Document.ofText t).offsetAt e edit.start) =
        bytes b := by
    obtain ⟨b, hb, hfinish⟩ := Document.exists_offsetAt_eq t e edit.finish
    rcases Nat.le_total (bytes a) (bytes b) with hab | hab
    · exact ⟨b, hb, by rw [hstart, hfinish, Nat.max_eq_left hab]⟩
    · exact ⟨a, ha, by rw [hstart, hfinish, Nat.max_eq_right hab]⟩
  have hle : bytes a ≤ bytes b := by
    rw [← hstart, ← hstop]
    exact Nat.le_max_right _ _
  obtain ⟨x, rfl⟩ := isPrefix_of_bytes_le ha hb hle
  refine ⟨a, x, hb, ?_⟩
  rw [byteRange, hstop, hstart, bytes_append]

/-- An edit between the text that stays in front of it and the text that it takes out. -/
structure Cut where
  gap : Text
  gone : Text
  edit : Edit

namespace Cut

/-- The text that is cut. -/
def before (cs : List Cut) : Text :=
  cs.flatMap fun c => c.gap ++ c.gone

/-- What the edits make of the text that is cut. -/
def after (cs : List Cut) : Text :=
  cs.flatMap fun c => c.gap ++ c.edit.text

/-- Whether a text that begins at byte `n` is cut along the ranges of the edits. -/
inductive Aligned (d : Document) (e : Encoding) : Nat → List Cut → Prop
  | nil (n : Nat) : Aligned d e n []
  | cons {n : Nat} {c : Cut} {cs : List Cut}
      (hr : c.edit.byteRange d e = (n + bytes c.gap, n + bytes c.gap + bytes c.gone))
      (h : Aligned d e (n + bytes c.gap + bytes c.gone) cs) : Aligned d e n (c :: cs)

theorem before_cons (c : Cut) (cs : List Cut) (last : Text) :
    before (c :: cs) ++ last = c.gap ++ (c.gone ++ (before cs ++ last)) := by
  simp [before]

theorem after_cons (c : Cut) (cs : List Cut) (last : Text) :
    after (c :: cs) ++ last = c.gap ++ (c.edit.text ++ (after cs ++ last)) := by
  simp [after]

end Cut

/-- Where no edit overlaps, the text behind `front` can be cut along the ranges of the edits. -/
theorem exists_cuts (front : Text) {rest : Text} (ht : front ++ rest = t)
    (h : firstOverlap? (.ofText t) e edits = none)
    (hfront : ∀ f ∈ edits.head?, bytes front ≤ (f.byteRange (.ofText t) e).1) :
    ∃ cs last, cs.map Cut.edit = edits ∧ rest = Cut.before cs ++ last ∧
      Cut.Aligned (.ofText t) e (bytes front) cs := by
  induction edits generalizing front rest with
  | nil => exact ⟨[], rest, rfl, rfl, .nil _⟩
  | cons f edits ih =>
    obtain ⟨hnext, h⟩ := firstOverlap?_cons_eq_none_iff.1 h
    obtain ⟨a, gone, ⟨rest', ht'⟩, hrange⟩ := exists_byteRange_eq t e f
    have hle := hfront f rfl
    rw [hrange] at hle hnext
    have hprefix : front <+: a :=
      isPrefix_of_bytes_le ⟨rest, ht⟩ ⟨gone ++ rest', by rw [← ht', List.append_assoc]⟩ hle
    obtain ⟨gap, rfl⟩ := hprefix
    obtain ⟨cs, last, hcs, hrest, haligned⟩ := ih (front ++ gap ++ gone) ht' h fun g hg => by
      rw [bytes_append]
      exact hnext g hg
    refine ⟨⟨gap, gone, f⟩ :: cs, last, by rw [List.map_cons, hcs], ?_, ?_⟩
    · rw [Cut.before_cons, ← hrest]
      rw [← ht', List.append_assoc, List.append_assoc] at ht
      exact List.append_cancel_left ht
    · rw [bytes_append, bytes_append] at haligned
      rw [bytes_append] at hrange
      exact .cons hrange haligned

namespace Cut.Aligned

variable {cs : List Cut}

/-! ### One pass -/

theorem rewrites (h : Aligned d e n cs) (last : Text) :
    Rewrites d e n (cs.map Cut.edit) (before cs ++ last) (after cs ++ last) := by
  induction h with
  | nil n => exact .nil d e n last
  | @cons n c cs hr _ ih =>
    rw [before_cons, after_cons, List.map_cons]
    exact (ih.edit hr).keep

/-! ### Back to front -/

/-- Making edits from the last one to the first finds each range where it was, since only what is
behind it has changed.  That holds of the text and of whatever else, such as its bytes, the edits
are made in. -/
theorem foldr_eq {β : Type} {F : Edit → β → β} (φ : Text → β)
    (hF : ∀ edit x y z, edit.byteRange d e = (bytes x, bytes (x ++ y)) →
      F edit (φ (x ++ y ++ z)) = φ (x ++ edit.text ++ z))
    (h : Aligned d e n cs) (front : Text) (hn : bytes front = n) (last : Text) :
    (cs.map Cut.edit).foldr F (φ (front ++ (before cs ++ last))) =
      φ (front ++ (after cs ++ last)) := by
  induction h generalizing front with
  | nil n => rfl
  | @cons n c cs hr _ ih =>
    have hstart : n + bytes c.gap = bytes (front ++ c.gap) := by rw [bytes_append, hn]
    have hstop : n + bytes c.gap + bytes c.gone = bytes (front ++ c.gap ++ c.gone) := by
      rw [bytes_append, bytes_append, hn]
    have hbehind := ih (front ++ c.gap ++ c.gone) hstop.symm
    rw [hstop, hstart] at hr
    have hstep := hF c.edit (front ++ c.gap) c.gone (after cs ++ last) hr
    simp only [List.append_assoc] at hbehind hstep
    rw [before_cons, after_cons, List.map_cons, List.foldr_cons, hbehind, hstep]

theorem spliceAll_eq (h : Aligned d e 0 cs) (last : Text) :
    spliceAll d e (cs.map Cut.edit) (before cs ++ last) = after cs ++ last := by
  refine foldr_eq id ?_ h [] rfl last
  intro edit x y z hr
  show splice d e edit (x ++ y ++ z) = x ++ edit.text ++ z
  rw [splice, hr]
  exact splice_append x y z edit.text

/-! ### Bytes -/

theorem le_start (h : Aligned d e n cs) : ∀ edit ∈ cs.map Cut.edit, n ≤ (edit.byteRange d e).1 := by
  induction h with
  | nil n => simp
  | @cons n c cs hr _ ih =>
    rw [List.map_cons, List.forall_mem_cons, hr]
    refine ⟨Nat.le_add_right _ _, ?_⟩
    intro edit hedit
    have := ih edit hedit
    omega

theorem foldr_spliceBytes (h : Aligned d e 0 cs) (last : Text) :
    (cs.map Cut.edit).foldr (spliceBytes d e) (utf8 (before cs ++ last)) =
      utf8 (after cs ++ last) := by
  refine foldr_eq utf8 ?_ h [] rfl last
  intro edit x y z hr
  have htake : (utf8 (x ++ y ++ z)).take (bytes x) = utf8 x := by
    rw [List.append_assoc, utf8_append, List.take_left' (length_utf8 x)]
  have hdrop : (utf8 (x ++ y ++ z)).drop (bytes (x ++ y)) = utf8 z := by
    rw [utf8_append, List.drop_left' (length_utf8 (x ++ y))]
  rw [spliceBytes, hr, htake, hdrop, utf8_append, utf8_append]

/-- Outside of the ranges are the bytes of what stays. -/
theorem outsideFrom_eq (h : Aligned d e n cs) (last : Text) :
    outsideFrom d e (cs.map Cut.edit) n (utf8 (before cs ++ last)) =
      (cs.map fun c => utf8 c.gap).flatten ++ utf8 last := by
  induction h with
  | nil n => exact outsideFrom_eq_self (by simp)
  | @cons n c cs hr h ih =>
    have hstart : (c.edit.byteRange d e).1 = n + bytes c.gap := by rw [hr]
    have hstop : (c.edit.byteRange d e).2 = n + bytes c.gap + bytes c.gone := by rw [hr]
    have hgap : outsideFrom d e ((c :: cs).map Cut.edit) n (utf8 c.gap) = utf8 c.gap := by
      refine outsideFrom_eq_self ?_
      rw [List.map_cons, List.forall_mem_cons, length_utf8]
      refine ⟨Nat.le_of_eq hstart.symm, ?_⟩
      intro edit hedit
      have := h.le_start edit hedit
      omega
    have hgone : outsideFrom d e ((c :: cs).map Cut.edit) (n + bytes c.gap) (utf8 c.gone) = [] := by
      refine outsideFrom_eq_nil (List.mem_cons_self ..) (Nat.le_of_eq hstart) ?_
      rw [length_utf8]
      exact Nat.le_of_eq hstop.symm
    rw [before_cons, utf8_append, utf8_append, outsideFrom_append, outsideFrom_append, hgap,
      length_utf8, length_utf8, hgone, List.map_cons, outsideFrom_cons (Nat.le_of_eq hstop), ih]
    simp

end Cut.Aligned

theorem Cut.utf8_after (cs : List Cut) :
    utf8 (after cs) = ((cs.map fun c => utf8 c.gap).zip (cs.map Cut.edit)).flatMap
      fun (gap, edit) => gap ++ utf8 edit.text := by
  induction cs with
  | nil => rfl
  | cons c cs ih =>
    rw [List.map_cons, List.map_cons, List.zip_cons_cons, List.flatMap_cons, ← ih]
    simp [after]

/-! ### Both readings -/

/-- Where no edit overlaps, the pass goes through the text along a cut of it. -/
theorem exists_apply_eq_ok (h : firstOverlap? (.ofText t) e edits = none) :
    ∃ cs last, cs.map Cut.edit = edits ∧ Cut.before cs ++ last = t ∧
      Cut.Aligned (.ofText t) e 0 cs ∧ apply t edits e = .ok (Cut.after cs ++ last) := by
  obtain ⟨cs, last, hcs, ht, haligned⟩ :=
    exists_cuts [] rfl h fun _ _ => Nat.zero_le _
  refine ⟨cs, last, hcs, ht.symm, haligned, ?_⟩
  have hall := haligned.rewrites last
  rw [hcs, ← ht] at hall
  exact hall.apply_eq

/-- **One pass is back to front.**  Applying edits fails exactly if one of them begins at a byte
before that at which the edit in front of it ends, and the error names where the first such edit
starts.  Else it gives the text in which the edits are made one at a time, from the last one to the
first: in bytes, each of them replaces its range, which is that in the text before any edit.  The
bytes outside of all ranges are still there, once and in order, and between them stand the texts of
the edits. -/
theorem apply_eq_spliceAll (t : Text) (edits : List Edit) (e : Encoding) :
    (∀ err, apply t edits e = .error err ↔
      ∃ edit, firstOverlap? (.ofText t) e edits = some edit ∧ err = .overlap edit.start) ∧
    (∀ new, apply t edits e = .ok new ↔
      firstOverlap? (.ofText t) e edits = none ∧ new = spliceAll (.ofText t) e edits t) ∧
    ∀ new, apply t edits e = .ok new →
      utf8 new = edits.foldr (spliceBytes (.ofText t) e) (utf8 t) ∧
      ∃ (gaps : List (List UInt8)) (last : List UInt8), gaps.length = edits.length ∧
        gaps.flatten ++ last = outside (.ofText t) e edits t ∧
        utf8 new = ((gaps.zip edits).flatMap fun (gap, edit) => gap ++ utf8 edit.text) ++ last := by
  cases h : firstOverlap? (.ofText t) e edits with
  | some edit =>
    have herr : apply t edits e = .error (.overlap edit.start) :=
      applyFrom_eq_error h fun _ _ => Nat.zero_le _
    rw [herr]
    simp [eq_comm]
  | none =>
    obtain ⟨cs, last, rfl, ht, haligned, hok⟩ := exists_apply_eq_ok h
    have hsplice := haligned.spliceAll_eq last
    have hbytes := haligned.foldr_spliceBytes last
    have houtside := haligned.outsideFrom_eq last
    rw [ht] at hsplice hbytes houtside
    rw [hok, hsplice]
    refine ⟨by simp, by simp [eq_comm], ?_⟩
    rintro new ⟨⟩
    refine ⟨hbytes.symm, cs.map fun c => utf8 c.gap, utf8 last, by simp, houtside.symm, ?_⟩
    rw [utf8_append, Cut.utf8_after]

/-- Two insertions at one place, a range that ends before it begins, and one past the end of its
line, behind a character of four bytes; and a deletion that begins inside the one in front of it. -/
theorem apply_eq_spliceAll_reversed :
    let edits : List Edit := [.insert ⟨0, 2⟩ ['x'], .insert ⟨0, 2⟩ ['y'],
      .replace ⟨1, 1⟩ ⟨0, 0⟩ ['é'], .delete ⟨1, 9⟩ ⟨7, 0⟩]
    apply "😀a\ncd\n".toList edits .utf16 = .ok "😀xya\ncéd".toList ∧
      (∃ (gaps : List (List UInt8)) (last : List UInt8), gaps.length = 4 ∧
        gaps.flatten ++ last = utf8 "😀a\ncd".toList ∧ utf8 "😀xya\ncéd".toList =
          ((gaps.zip edits).flatMap fun (gap, edit) => gap ++ utf8 edit.text) ++ last) ∧
      apply "a\nb\nc\n".toList [.delete ⟨0, 0⟩ ⟨2, 0⟩, .delete ⟨1, 0⟩ ⟨9, 0⟩, .insert ⟨0, 0⟩ []]
        .utf8 = .error (.overlap ⟨1, 0⟩) := by
  intro edits
  obtain ⟨-, hok, hbytes⟩ := apply_eq_spliceAll "😀a\ncd\n".toList edits .utf16
  have happly : apply "😀a\ncd\n".toList edits .utf16 = .ok "😀xya\ncéd".toList :=
    (hok _).2 ⟨by decide, by decide⟩
  refine ⟨happly, ?_, ?_⟩
  · obtain ⟨-, gaps, last, hlength, houtside, hnew⟩ := hbytes _ happly
    have hkept : outside (.ofText "😀a\ncd\n".toList) .utf16 edits "😀a\ncd\n".toList =
        utf8 "😀a\ncd".toList := by decide
    exact ⟨gaps, last, hlength, houtside.trans hkept, hnew⟩
  · obtain ⟨herr, -⟩ := apply_eq_spliceAll "a\nb\nc\n".toList
      [.delete ⟨0, 0⟩ ⟨2, 0⟩, .delete ⟨1, 0⟩ ⟨9, 0⟩, .insert ⟨0, 0⟩ []] .utf8
    exact (herr _).2 ⟨.delete ⟨1, 0⟩ ⟨9, 0⟩, by decide, rfl⟩

end Edit

end HunkEdits
