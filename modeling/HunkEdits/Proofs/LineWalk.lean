import HunkEdits.Hunk.LinePatch
import HunkEdits.Proofs.Offset
import HunkEdits.Proofs.Walk

/-!
# Walks over whole lines

Operations whose texts are lines with their terminators lead from the start of a line to the start
of a line.  So the walk through a hunk of a patch always stands at column zero, and its line is
counted by the operations that take a line (`advance_oldText_terminate`).
-/

namespace HunkEdits

variable {e : Encoding} {p : Position} {t : Text} {ops : List Op} {l : Nat}

/-- An operation with a terminator given back to its text. -/
def Op.terminate (ending : LineEnding) (op : Op) : Op :=
  { op with text := op.text ++ ending.text }

theorem Hunk.ops_terminate (ending : LineEnding) (h : Hunk) :
    (h.terminate ending).ops = h.ops.map (Op.terminate ending) := rfl

theorem Position.advance_of_isLine (h : Text.IsLine t) : p.advance e t = .anchor (p.line + 1) := by
  obtain ⟨l, rfl, hl⟩ := h
  have hcount : (l ++ ['\n']).count '\n' = 1 := by
    simp [List.count_append, List.count_eq_zero_of_not_mem hl]
  rw [advance_newline, hcount]

/-- From the start of a line, a line leads to the start of the next one. -/
theorem Position.anchor_advance_of_isLine (h : Text.IsLine t) :
    (anchor l).advance e t = .anchor (l + 1) := by
  rw [advance_of_isLine h, anchor_line_add]

/-- From the start of a line, each operation that takes a line leads one line further. -/
theorem Position.advance_oldText_terminate (ending : LineEnding)
    (h : ∀ op ∈ ops, '\n' ∉ op.text) :
    (Position.anchor l).advance e (Op.oldText (ops.map (Op.terminate ending))) =
      .anchor (l + ops.countP fun op => op.kind.consumes) := by
  induction ops generalizing l with
  | nil => rfl
  | cons op ops ih =>
    obtain ⟨hn, h⟩ := List.forall_mem_cons.1 h
    have hop : (anchor l).advance e (if op.kind.consumes then op.text ++ ending.text else []) =
        .anchor (l + if op.kind.consumes then 1 else 0) := by
      split
      · exact anchor_advance_of_isLine (Text.isLine_terminated ending hn)
      · rfl
    have hcount : l + ((op :: ops).countP fun op => op.kind.consumes) =
        (l + if op.kind.consumes then 1 else 0) + ops.countP fun op => op.kind.consumes := by
      rw [List.countP_cons]
      omega
    rw [List.map_cons, Op.oldText_cons, advance_append, hcount, ← ih h, ← hop]
    rfl

/-- A line with its terminator holds one line feed. -/
theorem Op.count_oldText_terminate (ending : LineEnding) (h : ∀ op ∈ ops, '\n' ∉ op.text) :
    (Op.oldText (ops.map (Op.terminate ending))).count '\n' =
      ops.countP fun op => op.kind.consumes := by
  induction ops with
  | nil => rfl
  | cons op ops ih =>
    obtain ⟨hn, h⟩ := List.forall_mem_cons.1 h
    have hop : (op.text ++ ending.text).count '\n' = 1 := by
      obtain ⟨l, hl, hn⟩ := Text.isLine_terminated ending hn
      rw [hl, List.count_append, List.count_eq_zero_of_not_mem hn]
      rfl
    rw [List.map_cons, oldText_cons, List.count_append, ih h, List.countP_cons, Nat.add_comm]
    congr 1
    rw [show (terminate ending op).kind = op.kind from rfl]
    split
    · exact hop
    · rfl

/-! ### Runs -/

namespace Op

variable (ending : LineEnding) (ops)

theorem openRun_terminate :
    openRun (ops.map (terminate ending)) = (openRun ops).map (terminate ending) := by
  simp only [openRun, List.rtakeWhile, ← List.map_reverse, List.takeWhile_map]
  rfl

theorem settled_terminate :
    settled (ops.map (terminate ending)) = (settled ops).map (terminate ending) := by
  simp only [settled, List.rdropWhile, ← List.map_reverse, List.dropWhile_map]
  rfl

theorem hasInsertion_terminate : hasInsertion (ops.map (terminate ending)) = hasInsertion ops := by
  rw [hasInsertion, openRun_terminate, List.any_map]
  rfl

end Op

/-! ### Context -/

/-- A line with its terminator is compared with the line of the base text at its place. -/
theorem Edit.checkContext_terminated (o : Options) (base : Document) (l : Nat) (t : Text) :
    checkContext o base (.ofLine l) (t ++ o.lineEnding.text) =
      if o.verify ∧ base.line? l ≠ some t then
        .error (.contextMismatch l t (base.line? l))
      else .ok () := by
  have ht : Text.dropTail? o.lineEnding.text (t ++ o.lineEnding.text) = some t :=
    Text.dropTail?_eq_some_iff.2 rfl
  have hl : (Position.ofLine l).line = l := rfl
  have hc : (Position.ofLine l).character = 0 := rfl
  simp only [checkContext, ht, hl, hc, Option.getD_some]
  cases o.verify <;> by_cases hf : base.line? l = some t <;> simp [hf]

end HunkEdits
