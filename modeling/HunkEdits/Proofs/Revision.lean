import HunkEdits.Proofs.Outcome

/-!
# Revisions

A revision is a text before and after a change, line by line: the operations of its hunks, and the
lines between the hunks that no hunk shows.  Its hunks are numbered by the lines before them, and
they stand for lines of the old text (`Revision.exists_before_eq`), so converting them finds no
fault (`Revision.firstFault?_eq_none`); patching the old lines by them gives the new ones
(`Revision.patchFrom_hunksFrom`).
-/

namespace HunkEdits

variable {ending : LineEnding} {ops : List Op}

/-! ### Texts of operations -/

namespace Op

theorem length_oldTexts (ops : List Op) :
    (oldTexts ops).length = ops.countP fun op => op.kind.consumes := by
  rw [oldTexts, List.length_map, ← List.countP_eq_length_filter]

/-- The line of an operation stands behind the lines of the operations before it. -/
theorem getElem?_oldTexts {j : Nat} (hj : j < ops.length) (hk : ops[j].kind.consumes = true) :
    (oldTexts ops)[(ops.take j).countP fun op => op.kind.consumes]? = some ops[j].text := by
  have hcut : oldTexts ops = oldTexts (ops.take j) ++ ops[j].text :: oldTexts (ops.drop (j + 1)) :=
    calc oldTexts ops = oldTexts (ops.take j ++ ops[j] :: ops.drop (j + 1)) := by
          rw [← List.drop_eq_getElem_cons hj, List.take_append_drop]
      _ = oldTexts (ops.take j) ++ ops[j].text :: oldTexts (ops.drop (j + 1)) := by
          rw [oldTexts_append, oldTexts_cons, if_pos hk]
          rfl
  rw [hcut, ← length_oldTexts, List.getElem?_append_right (Nat.le_refl _), Nat.sub_self]
  rfl

theorem text_mem {op : Op} (h : op ∈ ops) : op.text ∈ oldTexts ops ∨ op.text ∈ newTexts ops := by
  by_cases hk : op.kind.consumes = true
  · left
    exact List.mem_map_of_mem (List.mem_filter.2 ⟨h, hk⟩)
  · right
    have hp : op.kind.produces = true := by
      cases ho : op.kind <;> simp_all [OpKind.consumes, OpKind.produces]
    exact List.mem_map_of_mem (List.mem_filter.2 ⟨h, hp⟩)

/-- Patching the old lines of operations gives their new lines. -/
theorem patchLines_oldTexts (ops : List Op) (raw : List Text) :
    patchLines ending ops ((oldTexts ops).map (· ++ ending.text) ++ raw) =
      ((newTexts ops).map (· ++ ending.text), raw) := by
  induction ops with
  | nil => rfl
  | cons op ops ih =>
    rw [oldTexts_cons, newTexts_cons, patchLines]
    cases hk : op.kind <;> simp [OpKind.consumes, OpKind.produces, ih]

end Op

/-! ### Revisions -/

/-- A hunk of a revision, and the lines between it and the hunk before it. -/
structure Change where
  gap : List Text
  ops : List Op
  deriving DecidableEq, Repr

/-- A text before and after a change: its hunks, and the lines after the last one. -/
structure Revision where
  changes : List Change
  rest : List Text
  deriving DecidableEq, Repr

namespace Revision

/-- The lines before the change. -/
def before (r : Revision) : List Text :=
  r.changes.flatMap (fun c => c.gap ++ Op.oldTexts c.ops) ++ r.rest

/-- The lines after the change. -/
def after (r : Revision) : List Text :=
  r.changes.flatMap (fun c => c.gap ++ Op.newTexts c.ops) ++ r.rest

/-- The hunks of changes that come after `done` lines of the old text and `made` lines of the new
one. -/
def hunksFrom (done made : Nat) : List Change → List Hunk
  | [] => []
  | c :: cs =>
    let old : LineSpan := ⟨done + c.gap.length, (Op.oldTexts c.ops).length⟩
    let new : LineSpan := ⟨made + c.gap.length, (Op.newTexts c.ops).length⟩
    ⟨old, new, c.ops⟩ :: hunksFrom (old.start + old.count) (new.start + new.count) cs

/-- The hunks of a revision. -/
def hunks (r : Revision) : List Hunk :=
  hunksFrom 0 0 r.changes

/-- Whether every line can be told from its terminator. -/
def IsClean (r : Revision) : Prop :=
  ∀ l ∈ r.before ++ r.after, Text.IsClean l

instance (r : Revision) : Decidable r.IsClean :=
  inferInstanceAs (Decidable (∀ l ∈ r.before ++ r.after, _))

variable {r : Revision} {done made : Nat} {c : Change} {cs : List Change} {h : Hunk}

theorem before_cons (c : Change) (cs : List Change) (rest : List Text) :
    before ⟨c :: cs, rest⟩ = c.gap ++ (Op.oldTexts c.ops ++ before ⟨cs, rest⟩) := by
  simp only [before, List.flatMap_cons, List.append_assoc]

theorem after_cons (c : Change) (cs : List Change) (rest : List Text) :
    after ⟨c :: cs, rest⟩ = c.gap ++ (Op.newTexts c.ops ++ after ⟨cs, rest⟩) := by
  simp only [after, List.flatMap_cons, List.append_assoc]

/-! ### Hunks of a revision -/

theorem le_start_of_mem_hunksFrom (hh : h ∈ hunksFrom done made cs) : done ≤ h.old.start := by
  induction cs generalizing done made with
  | nil => cases hh
  | cons c cs ih =>
    rcases List.mem_cons.1 hh with rfl | hh
    · exact Nat.le_add_right _ _
    · have := ih hh
      simp only at this
      omega

theorem apart_hunksFrom (done made : Nat) (cs : List Change) :
    Hunk.Apart (hunksFrom done made cs) := by
  induction cs generalizing done made with
  | nil => exact .nil
  | cons c cs ih =>
    refine List.pairwise_cons.2 ⟨?_, ih _ _⟩
    intro k hk
    have := le_start_of_mem_hunksFrom hk
    rwa [Op.length_oldTexts] at this

theorem exists_change_of_mem_hunksFrom (hh : h ∈ hunksFrom done made cs) :
    ∃ c ∈ cs, c.ops = h.ops := by
  induction cs generalizing done made with
  | nil => cases hh
  | cons c cs ih =>
    rcases List.mem_cons.1 hh with rfl | hh
    · exact ⟨c, List.mem_cons_self .., rfl⟩
    · obtain ⟨c', hc, e⟩ := ih hh
      exact ⟨c', List.mem_cons_of_mem _ hc, e⟩

/-- A hunk of a revision stands for lines of the old text, behind as many lines as it says. -/
theorem exists_before_eq (rest : List Text) {front : List Text} (hfront : front.length = done)
    (hh : h ∈ hunksFrom done made cs) :
    ∃ x y, front ++ before ⟨cs, rest⟩ = x ++ (Op.oldTexts h.ops ++ y) ∧ x.length = h.old.start := by
  induction cs generalizing done made front with
  | nil => cases hh
  | cons c cs ih =>
    rw [before_cons, ← List.append_assoc]
    rcases List.mem_cons.1 hh with rfl | hh
    · exact ⟨_, _, rfl, by rw [List.length_append, hfront]⟩
    · rw [← List.append_assoc]
      exact ih (by rw [List.length_append, List.length_append, hfront]) hh

/-- The hunks of a revision lie inside the old text. -/
theorem stop_le_of_mem_hunks (hh : h ∈ r.hunks) : h.stop ≤ r.before.length := by
  obtain ⟨x, y, hxy, hx⟩ := exists_before_eq r.rest (rfl : ([] : List Text).length = 0) hh
  have hbefore : r.before = x ++ (Op.oldTexts h.ops ++ y) := hxy
  rw [hbefore, List.length_append, List.length_append, Op.length_oldTexts, hx]
  exact Nat.add_le_add_left (Nat.le_add_right _ _) _

/-- An operation of a hunk has its line where the walk through the hunk has come to. -/
theorem getElem?_before (hword : r.before.length < wordBound) (hh : h ∈ r.hunks) {j : Nat}
    (hj : j < h.ops.length) (hk : h.ops[j].kind.consumes = true) :
    r.before[h.lineAfter (h.ops.take j)]? = some h.ops[j].text := by
  obtain ⟨x, y, hxy, hx⟩ := exists_before_eq r.rest (rfl : ([] : List Text).length = 0) hh
  have hbefore : r.before = x ++ (Op.oldTexts h.ops ++ y) := hxy
  have hget := Op.getElem?_oldTexts hj hk
  have hlt := (List.getElem?_eq_some_iff.1 hget).1
  have hstop := Nat.lt_of_le_of_lt (stop_le_of_mem_hunks hh) hword
  rw [Hunk.lineAfter_of_stop_lt hstop (List.take_sublist _ _), hbefore, ← hx,
    List.getElem?_append_right (Nat.le_add_right _ _), Nat.add_sub_cancel_left,
    List.getElem?_append_left hlt, hget]

/-- Patching the old lines by the hunks of a revision gives the new ones. -/
theorem patchFrom_hunksFrom (done made : Nat) (cs : List Change) (rest : List Text) :
    Hunk.patchFrom ending done (hunksFrom done made cs)
        ((before ⟨cs, rest⟩).map (· ++ ending.text)) =
      (after ⟨cs, rest⟩).map (· ++ ending.text) := by
  induction cs generalizing done made with
  | nil => rfl
  | cons c cs ih =>
    have hgap : done + c.gap.length - done = (c.gap.map (· ++ ending.text)).length := by
      rw [Nat.add_sub_cancel_left, List.length_map]
    have ih := ih (done + c.gap.length + (Op.oldTexts c.ops).length)
      (made + c.gap.length + (Op.newTexts c.ops).length)
    rw [Op.length_oldTexts] at ih
    rw [hunksFrom, Hunk.patchFrom, before_cons, after_cons]
    simp only [List.map_append, hgap, List.take_left, List.drop_left, Op.patchLines_oldTexts,
      List.append_assoc]
    rw [← ih, Op.length_oldTexts]
    rfl

/-! ### No faults -/

theorem isClean_of_mem_hunks (hr : r.IsClean) (hh : h ∈ r.hunks) :
    ∀ op ∈ h.ops, Text.IsClean op.text := by
  intro op hop
  obtain ⟨c, hc, hops⟩ := exists_change_of_mem_hunksFrom hh
  rw [← hops] at hop
  apply hr
  rw [List.mem_append]
  rcases Op.text_mem hop with hm | hm
  · left
    exact List.mem_append_left _ (List.mem_flatMap.2 ⟨c, hc, List.mem_append_right _ hm⟩)
  · right
    exact List.mem_append_left _ (List.mem_flatMap.2 ⟨c, hc, List.mem_append_right _ hm⟩)

theorem line?_joinLines {ls : List Text} (hls : ∀ l ∈ ls, Text.IsClean l) (k : Nat) :
    (Document.ofText (Patch.joinLines ending ls)).line? k = ls[k]? := by
  have hn : ∀ l ∈ ls, '\n' ∉ l := by
    intro l hl
    exact (hls l hl).1
  rw [Document.line?_ofText, Text.rawLines_joinLines ending hn, List.getElem?_map, Option.map_map]
  cases hl : ls[k]? with
  | none => rfl
  | some l => exact congrArg some ((hls l (List.mem_of_getElem? hl)).lineText_append ending)

/-- Where deletions come first, no hunk of a revision is at fault in the old text. -/
theorem firstFault?_eq_none (o : Options) (hr : r.IsClean)
    (hword : r.before.length < wordBound) (hh : h ∈ r.hunks) (hord : Op.DeletesFirst h.ops) :
    h.firstFault? o (.ofText (Patch.joinLines ending r.before)) = none := by
  rw [Hunk.firstFault?_eq_none_iff]
  intro j
  by_cases hj : j < h.ops.length
  · have hclean : ∀ l ∈ r.before, Text.IsClean l := by
      intro l hl
      exact hr l (List.mem_append_left _ hl)
    have hcontext : ¬ (o.verify ∧ h.ops[j].kind.consumes ∧ r.before[h.lineAfter (h.ops.take j)]? ≠
        some h.ops[j].text) := by
      rintro ⟨-, hk, hne⟩
      exact hne (getElem?_before hword hh hj hk)
    rw [Hunk.fault?, List.getElem?_eq_getElem hj, Option.bind_some]
    simp only [line?_joinLines hclean, if_neg hcontext, if_neg (hord.not_hasInsertion hj)]
  · rw [Hunk.fault?, List.getElem?_eq_none (Nat.le_of_not_lt hj), Option.bind_none]

end Revision

end HunkEdits
