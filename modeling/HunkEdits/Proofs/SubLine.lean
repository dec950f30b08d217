import HunkEdits.Proofs.Carry
import HunkEdits.Proofs.Offset

/-!
# Changes inside lines

The texts of operations need not be lines.  A hunk whose kept and deleted texts make up a stretch of
a text, cut anywhere but inside a line end, replaces that stretch by its kept and inserted texts,
under every encoding (`Edit.apply_ofHunks_pieces`).
-/

namespace HunkEdits

variable {o : Options} {base : Document} {ops : List Op}

/-! ### No faults -/

namespace Edit

/-- Without verification only a deletion after an insertion is a fault. -/
theorem firstFault?_eq_none (hv : o.verify = false) (h : Op.DeletesFirst ops) (start : Position) :
    firstFault? o base start [] ops = none := by
  rw [firstFault?_eq_findSome?, List.findSome?_eq_none_iff]
  intro j hj
  have hj := List.mem_range.1 hj
  rw [List.getElem?_eq_getElem hj, Option.bind_some, List.nil_append, fault?]
  simp only [checkContext_of_not_verify hv, if_neg (h.not_hasInsertion hj), ite_self]

end Edit

/-! ### Pieces of a text -/

/-- Operations whose texts are pieces of a text carry it to the pieces they leave, where no cut
between them is inside a line end. -/
theorem Op.carries_pieces {x post : Text} (hx : (x ++ oldText ops).count '\n' < wordBound)
    (hcut : ∀ j ≤ ops.length,
      ¬ Text.SplitsLineEnd (x ++ oldText (ops.take j)) (oldText (ops.drop j) ++ post)) :
    Carries o (.ofText (x ++ oldText ops ++ post)) o.encoding
      ((Position.ofLine 0).advance o.encoding x) ops (oldText ops) (newText ops)
      ((Position.ofLine 0).advance o.encoding (x ++ oldText ops)) := by
  induction ops generalizing x with
  | nil =>
    rw [oldText_nil, List.append_nil]
    exact .nil _
  | cons op ops ih =>
    have h₀ := hcut 0 (Nat.zero_le _)
    have h₁ := hcut 1 (by simp)
    have hcut' : ∀ j ≤ ops.length, ¬ Text.SplitsLineEnd
        (x ++ (if op.kind.consumes then op.text else []) ++ oldText (ops.take j))
        (oldText (ops.drop j) ++ post) := by
      intro j hj
      have h := hcut (j + 1) (Nat.succ_le_succ hj)
      simpa using h
    have hx' : (x ++ (if op.kind.consumes then op.text else []) ++ oldText ops).count '\n' <
        wordBound := by
      rwa [oldText_cons, ← List.append_assoc] at hx
    have ih := ih hx' hcut'
    rw [List.take_zero, oldText_nil, List.append_nil, List.drop_zero] at h₀
    rw [List.take_succ_cons, List.take_zero, oldText_cons, oldText_nil, List.append_nil,
      List.drop_succ_cons, List.drop_zero] at h₁
    have hx₁ := Nat.lt_of_le_of_lt (List.Sublist.count_le '\n' (List.sublist_append_left _ _)) hx'
    have hx₀ := Nat.lt_of_le_of_lt (List.Sublist.count_le '\n' (List.sublist_append_left _ _)) hx₁
    have hoff₀ := Document.offsetAt_advance (e := o.encoding) hx₀ h₀
    have hoff₁ := Document.offsetAt_advance (e := o.encoding) hx₁ h₁
    rw [oldText_cons, newText_cons]
    rw [oldText_cons] at hoff₀
    simp only [← List.append_assoc] at hoff₀ hoff₁ ih ⊢
    cases hk : op.kind with
    | keep =>
      simp only [hk, OpKind.consumes, OpKind.produces, if_true] at hoff₀ hoff₁ ih ⊢
      rw [Position.advance_append] at hoff₁ ih
      refine .keep op.text hk ?_ ih
      rw [hoff₁, hoff₀, Text.bytes_append]
    | delete =>
      simp only [hk, OpKind.consumes, OpKind.produces, if_true, Bool.false_eq_true,
        if_false, List.nil_append] at hoff₀ hoff₁ ih ⊢
      rw [Position.advance_append] at hoff₁ ih
      refine .delete op.text hk ?_ ih
      rw [hoff₁, hoff₀, Text.bytes_append]
    | insert =>
      simp only [hk, OpKind.consumes, OpKind.produces, if_true, Bool.false_eq_true, if_false,
        List.append_nil] at ih ⊢
      exact .insert hk ih

namespace Edit

/-- **Changing pieces of a text.**  A hunk that begins at the line after `front` and whose kept and
deleted texts are the stretch between `front` and `post` replaces the stretch by its kept and
inserted texts, whatever unit its columns are counted in.  A word has to be able to count the lines
up to its end. -/
theorem apply_ofHunks_pieces (o : Options) (hv : o.verify = false) (front post : Text) (h : Hunk)
    (hfront : front = [] ∨ front.getLast? = some '\n') (hstart : h.old.start = front.count '\n')
    (hord : Op.DeletesFirst h.ops)
    (hword : (front ++ Op.oldText h.ops).count '\n' < wordBound)
    (hcut : ∀ j ≤ h.ops.length, ¬ Text.SplitsLineEnd (front ++ Op.oldText (h.ops.take j))
      (Op.oldText (h.ops.drop j) ++ post)) :
    ∃ edits, ofHunks o (.ofText (front ++ Op.oldText h.ops ++ post)) [h] = .ok edits ∧
      apply (front ++ Op.oldText h.ops ++ post) edits o.encoding =
        .ok (front ++ Op.newText h.ops ++ post) := by
  obtain ⟨edits, hedits⟩ : ∃ edits, ofHunk o (.ofText (front ++ Op.oldText h.ops ++ post)) h =
      .ok edits :=
    ofHunk_eq_ok (firstFault?_eq_none hv hord (.anchor h.old.start))
  refine ⟨edits, by rw [ofHunks_singleton, hedits], ?_⟩
  -- the hunk begins where reading `front` leads, which is the start of a line
  have hfrontWord : front.count '\n' < wordBound :=
    Nat.lt_of_le_of_lt (List.Sublist.count_le '\n' (List.sublist_append_left _ _)) hword
  have hp : (Position.ofLine 0).advance o.encoding front = .ofLine h.old.start := by
    rcases hfront with rfl | hfront
    · rw [hstart]
      rfl
    · obtain ⟨f, rfl⟩ := List.getLast?_eq_some_iff.1 hfront
      rw [Position.advance_newline, hstart, Position.ofLine, Nat.zero_add,
        Position.anchor_of_lt hfrontWord]
  have hcarry := Op.carries_pieces (o := o) hword hcut
  rw [hp] at hcarry
  have hrw := ofHunk_rewrites (hstart ▸ hfrontWord) hcarry hedits (.nil _ _ _ post)
  have hbytes : (Document.ofText (front ++ Op.oldText h.ops ++ post)).lineStart h.old.start =
      0 + Text.bytes front := by
    have h₀ := hcut 0 (Nat.zero_le _)
    rw [List.take_zero, Op.oldText_nil, List.append_nil, List.drop_zero] at h₀
    have := Document.offsetAt_advance (e := o.encoding) hfrontWord h₀
    rw [hp, Document.offsetAt_ofLine, ← List.append_assoc] at this
    rw [this, Nat.zero_add]
  rw [hbytes, List.append_nil] at hrw
  have hall := hrw.keep
  simp only [← List.append_assoc] at hall
  exact hall.apply_eq

/-- A deletion over a line end and a character of four bytes, between texts on the same lines. -/
theorem apply_ofHunks_pieces_utf16 :
    ∃ edits, ofHunks {} (.ofText "é\r\na😀b\r\ncd\r\nz".toList)
        [⟨⟨1, 2⟩, ⟨1, 2⟩, [⟨.keep, ['a']⟩, ⟨.delete, ['😀', 'b', '\r', '\n', 'c']⟩,
          ⟨.insert, ['x', '\n', 'y']⟩, ⟨.keep, ['d']⟩]⟩] = .ok edits ∧
      apply "é\r\na😀b\r\ncd\r\nz".toList edits .utf16 = .ok "é\r\nax\nyd\r\nz".toList :=
  apply_ofHunks_pieces {} rfl ['é', '\r', '\n'] ['\r', '\n', 'z'] ⟨⟨1, 2⟩, ⟨1, 2⟩,
    [⟨.keep, ['a']⟩, ⟨.delete, ['😀', 'b', '\r', '\n', 'c']⟩, ⟨.insert, ['x', '\n', 'y']⟩,
      ⟨.keep, ['d']⟩]⟩ (by decide) (by decide) (by decide) (by decide) (by decide)

end Edit

end HunkEdits
