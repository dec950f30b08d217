import HunkEdits.Edit.OfPatch
import HunkEdits.Proofs.Pending
import HunkEdits.Proofs.Result
import Mathlib.Data.List.DropRight

/-!
# The walk through the operations of a hunk

A walk stops at the first operation that has a fault, and what is wrong with an operation depends
only on the operations before it (`Edit.fault?`): the text they take says where the walk stands, and
the run of changes that is still open says whether a deletion may follow.
`Edit.foldlM_step_eq_error` and `Edit.foldlM_step_eq_ok` say how a walk ends.
-/

namespace HunkEdits

/-! ### What operations take and leave -/

namespace Op

/-- The texts that operations stand for in the old text. -/
def oldTexts (ops : List Op) : List Text :=
  (ops.filter fun op => op.kind.consumes).map text

/-- The texts that operations stand for in the new text. -/
def newTexts (ops : List Op) : List Text :=
  (ops.filter fun op => op.kind.produces).map text

/-- The text that operations take from the old text. -/
def oldText (ops : List Op) : Text :=
  (oldTexts ops).flatten

/-- The text that operations leave in the new text. -/
def newText (ops : List Op) : Text :=
  (newTexts ops).flatten

/-- The operations after the last kept line. -/
def openRun (ops : List Op) : List Op :=
  ops.rtakeWhile fun op => op.kind != .keep

/-- The operations up to the last kept line. -/
def settled (ops : List Op) : List Op :=
  ops.rdropWhile fun op => op.kind != .keep

theorem oldTexts_cons (op : Op) (ops : List Op) :
    oldTexts (op :: ops) = (if op.kind.consumes then [op.text] else []) ++ oldTexts ops := by
  cases h : op.kind.consumes <;> simp [oldTexts, h]

theorem newTexts_cons (op : Op) (ops : List Op) :
    newTexts (op :: ops) = (if op.kind.produces then [op.text] else []) ++ newTexts ops := by
  cases h : op.kind.produces <;> simp [newTexts, h]

theorem oldTexts_append (ops ops' : List Op) :
    oldTexts (ops ++ ops') = oldTexts ops ++ oldTexts ops' := by
  rw [oldTexts, List.filter_append, List.map_append]
  rfl

@[simp] theorem oldText_nil : oldText [] = [] := rfl

@[simp] theorem newText_nil : newText [] = [] := rfl

@[simp] theorem oldText_cons (op : Op) (ops : List Op) :
    oldText (op :: ops) = (if op.kind.consumes then op.text else []) ++ oldText ops := by
  unfold oldText
  rw [oldTexts_cons]
  split <;> simp

@[simp] theorem newText_cons (op : Op) (ops : List Op) :
    newText (op :: ops) = (if op.kind.produces then op.text else []) ++ newText ops := by
  unfold newText
  rw [newTexts_cons]
  split <;> simp

theorem oldText_append (ops ops' : List Op) :
    oldText (ops ++ ops') = oldText ops ++ oldText ops' := by
  unfold oldText
  rw [oldTexts_append, List.flatten_append]

theorem openRun_append_keep {op : Op} (ops : List Op) (h : op.kind = .keep) :
    openRun (ops ++ [op]) = [] :=
  List.rtakeWhile_concat_neg _ _ _ (by simp [h])

theorem openRun_append_change {op : Op} (ops : List Op) (h : op.kind ≠ .keep) :
    openRun (ops ++ [op]) = openRun ops ++ [op] :=
  List.rtakeWhile_concat_pos _ _ _ (by simp [h])

theorem settled_append_keep {op : Op} (ops : List Op) (h : op.kind = .keep) :
    settled (ops ++ [op]) = ops ++ [op] :=
  List.rdropWhile_concat_neg _ _ _ (by simp [h])

theorem settled_append_change {op : Op} (ops : List Op) (h : op.kind ≠ .keep) :
    settled (ops ++ [op]) = settled ops :=
  List.rdropWhile_concat_pos _ _ _ (by simp [h])

theorem settled_sublist (ops : List Op) : (settled ops).Sublist ops := by
  have h := List.rdropWhile_prefix (p := fun op : Op => op.kind != .keep) ops
  exact h.sublist

/-- Whether a deletion after these operations would follow an insertion with no kept line between
them. -/
def hasInsertion (ops : List Op) : Bool :=
  (openRun ops).any fun op => op.kind == .insert

theorem hasInsertion_append_keep {op : Op} (ops : List Op) (h : op.kind = .keep) :
    hasInsertion (ops ++ [op]) = false := by
  simp [hasInsertion, openRun_append_keep ops h]

theorem hasInsertion_append_change {op : Op} (ops : List Op) (h : op.kind ≠ .keep) :
    hasInsertion (ops ++ [op]) = (hasInsertion ops || op.kind == .insert) := by
  simp [hasInsertion, openRun_append_change ops h]

/-- Whether no deletion follows an insertion with no kept text between them. -/
def DeletesFirst (ops : List Op) : Prop :=
  ∀ j, (hj : j < ops.length) → ops[j].kind = .delete → hasInsertion (ops.take j) = false

instance (ops : List Op) : Decidable (DeletesFirst ops) :=
  inferInstanceAs (Decidable (∀ j, (hj : j < ops.length) → _))

theorem DeletesFirst.not_hasInsertion {ops : List Op} (h : DeletesFirst ops) {j : Nat}
    (hj : j < ops.length) : ¬ (ops[j].kind = .delete ∧ hasInsertion (ops.take j) = true) := by
  rintro ⟨hk, hi⟩
  rw [h j hj hk] at hi
  exact Bool.false_ne_true hi

end Op

namespace Edit

variable (o : Options) (base : Document)

/-! ### Faults -/

/-- What is wrong with an operation, if anything is, in a walk that began at `start` and has come
through the operations `before` it. -/
def fault? (start : Position) (before : List Op) (op : Op) : Option PatchError :=
  let p := start.advance o.encoding (Op.oldText before)
  if op.kind.consumes then
    match checkContext o base p op.text with
    | .error err => some err
    | .ok () =>
      if op.kind = .delete ∧ Op.hasInsertion before then
        some (.deletionAfterInsertion p (start.advance o.encoding (Op.oldText (Op.settled before))))
      else none
  else none

/-- The fault of the first operation that has one, in a walk that has come through the operations
`before` these. -/
def firstFault? (start : Position) (before : List Op) : List Op → Option PatchError
  | [] => none
  | op :: ops => (fault? o base start before op).or (firstFault? start (before ++ [op]) ops)

variable {o base} {start p : Position} {b : Builder} {before ops : List Op} {op : Op}
  {s : Position × Builder} {err : PatchError}

/-- The first fault is that of the operation with the smallest number that has one. -/
theorem firstFault?_eq_findSome? (start : Position) (before ops : List Op) :
    firstFault? o base start before ops = (List.range ops.length).findSome? fun j =>
      ops[j]?.bind (fault? o base start (before ++ ops.take j)) := by
  induction ops generalizing before with
  | nil => rfl
  | cons op ops ih =>
    have hj : (fun j => (op :: ops)[j]?.bind (fault? o base start (before ++ (op :: ops).take j))) ∘
        Nat.succ = fun j => ops[j]?.bind (fault? o base start (before ++ [op] ++ ops.take j)) := by
      funext j
      simp
    rw [firstFault?, ih, List.length_cons, List.range_succ_eq_map, List.findSome?_cons,
      List.findSome?_map, hj]
    simp only [List.getElem?_cons_zero, List.take_zero, List.append_nil, Option.bind_some]
    cases fault? o base start before op <;> rfl

theorem checkContext_of_not_verify (hv : o.verify = false) (p : Position) (t : Text) :
    checkContext o base p t = .ok () := by
  simp [checkContext, hv]

/-! ### One step -/

theorem step_keep (h : op.kind = .keep) :
    step o base (p, b) op =
      (checkContext o base p op.text).map fun _ => (p.advance o.encoding op.text, b.close) := by
  simp only [step, h]
  cases checkContext o base p op.text <;> rfl

theorem step_delete (h : op.kind = .delete) :
    step o base (p, b) op = (do
      checkContext o base p op.text
      (b.delete p (p.advance o.encoding op.text)).map fun b' =>
        (p.advance o.encoding op.text, b')) := by
  simp only [step, h]
  cases checkContext o base p op.text with
  | error err => rfl
  | ok _ => cases b.delete p (p.advance o.encoding op.text) <;> rfl

theorem step_insert (h : op.kind = .insert) :
    step o base (p, b) op = .ok (p, b.insert p op.text) := by
  simp only [step, h]
  rfl

/-- What a state is like after the operations `before`: the cursor is behind the text they take, and
the pending edit is their open run. -/
structure Reached (o : Options) (start : Position) (before : List Op) (s : Position × Builder) :
    Prop where
  position : s.1 = start.advance o.encoding (Op.oldText before)
  opened : s.2.pending.startFrom s.1 = start.advance o.encoding (Op.oldText (Op.settled before))
  inserted : s.2.pending.hasText = Op.hasInsertion before

theorem reached_start (o : Options) (start : Position) : Reached o start [] (start, {}) :=
  ⟨rfl, rfl, rfl⟩

theorem step_eq_error (hs : Reached o start before s)
    (h : fault? o base start before op = some err) :
    step o base s op = .error err := by
  obtain ⟨p, b⟩ := s
  obtain ⟨hp, hopen, hins⟩ := hs
  simp only at hp hopen hins
  rw [fault?, ← hp, ← hopen, ← hins] at h
  cases hk : op.kind with
  | keep =>
    rw [step_keep hk]
    cases hc : checkContext o base p op.text <;> simp_all [OpKind.consumes, Except.map]
  | delete =>
    rw [step_delete hk, Builder.delete_eq]
    cases hc : checkContext o base p op.text with
    | error err' => simp_all [OpKind.consumes, bind, Except.bind]
    | ok _ =>
      cases ht : b.pending.hasText <;> simp_all [OpKind.consumes, bind, Except.bind, Except.map]
  | insert => simp [hk, OpKind.consumes] at h

theorem advance_oldText_append (o : Options) (start : Position) (before : List Op) (op : Op) :
    start.advance o.encoding (Op.oldText (before ++ [op])) =
      (start.advance o.encoding (Op.oldText before)).advance o.encoding
        (if op.kind.consumes then op.text else []) := by
  rw [Op.oldText_append, Position.advance_append, Op.oldText_cons, Op.oldText_nil, List.append_nil]

theorem step_eq_ok (hs : Reached o start before s) (h : fault? o base start before op = none) :
    ∃ s', step o base s op = .ok s' ∧ Reached o start (before ++ [op]) s' := by
  obtain ⟨p, b⟩ := s
  obtain ⟨hp, hopen, hins⟩ := hs
  simp only at hp hopen hins
  rw [fault?, ← hp, ← hopen, ← hins] at h
  have hnext := advance_oldText_append o start before op
  rw [← hp] at hnext
  cases hk : op.kind with
  | keep =>
    have hc : checkContext o base p op.text = .ok () := by
      cases hc : checkContext o base p op.text <;> simp_all [OpKind.consumes]
    rw [step_keep hk, hc]
    rw [hk, OpKind.consumes, if_pos rfl] at hnext
    exact ⟨_, rfl, hnext.symm, by simp [Pending.startFrom, Op.settled_append_keep _ hk, hnext],
      by simp [Pending.hasText, Op.hasInsertion_append_keep _ hk]⟩
  | delete =>
    have hne : op.kind ≠ .keep := by simp [hk]
    have hc : checkContext o base p op.text = .ok () ∧ b.pending.hasText = false := by
      cases hc : checkContext o base p op.text <;> simp_all [OpKind.consumes]
    rw [step_delete hk, hc.1, Builder.delete_eq, hc.2]
    rw [hk, OpKind.consumes, if_pos rfl] at hnext
    refine ⟨_, rfl, hnext.symm, ?_, ?_⟩
    · rw [Op.settled_append_change _ hne]
      exact hopen
    · rw [Op.hasInsertion_append_change _ hne, ← hins, hc.2, hk]
      rfl
  | insert =>
    have hne : op.kind ≠ .keep := by simp [hk]
    rw [step_insert hk]
    rw [hk, OpKind.consumes, if_neg Bool.false_ne_true, Position.advance_nil] at hnext
    refine ⟨_, rfl, hnext.symm, ?_, ?_⟩
    · rw [Op.settled_append_change _ hne, Builder.startFrom_insert]
      exact hopen
    · rw [Op.hasInsertion_append_change _ hne, Builder.hasText_insert, hk]
      simp

/-! ### A whole walk -/

theorem foldlM_step_eq_error (hs : Reached o start before s)
    (h : firstFault? o base start before ops = some err) :
    ops.foldlM (step o base) s = .error err := by
  induction ops generalizing before s with
  | nil => cases h
  | cons op ops ih =>
    rw [List.foldlM_cons]
    rw [firstFault?] at h
    cases hf : fault? o base start before op with
    | some err' =>
      rw [hf, Option.some_or] at h
      rw [step_eq_error hs hf, ← Option.some.inj h]
      rfl
    | none =>
      rw [hf, Option.none_or] at h
      obtain ⟨s', hs', hr⟩ := step_eq_ok hs hf
      rw [hs']
      exact ih hr h

theorem foldlM_step_eq_ok (hs : Reached o start before s)
    (h : firstFault? o base start before ops = none) :
    ∃ s', ops.foldlM (step o base) s = .ok s' := by
  induction ops generalizing before s with
  | nil => exact ⟨s, rfl⟩
  | cons op ops ih =>
    rw [firstFault?, Option.or_eq_none_iff] at h
    obtain ⟨s', hs', hr⟩ := step_eq_ok hs h.1
    rw [List.foldlM_cons, hs']
    exact ih hr h.2

/-- The fault of the first operation of a hunk that has one. -/
theorem ofHunk_eq_error {h : Hunk}
    (hf : firstFault? o base (.anchor h.old.start) [] h.ops = some err) :
    ofHunk o base h = .error err := by
  rw [ofHunk, foldlM_step_eq_error (reached_start o _) hf]
  rfl

theorem ofHunk_eq_ok {h : Hunk} (hf : firstFault? o base (.anchor h.old.start) [] h.ops = none) :
    ∃ edits, ofHunk o base h = .ok edits := by
  obtain ⟨⟨p, b⟩, hs⟩ := foldlM_step_eq_ok (reached_start o _) hf
  exact ⟨b.finish, by rw [ofHunk, hs]; rfl⟩

theorem ofHunks_singleton (h : Hunk) : ofHunks o base [h] = ofHunk o base h := by
  rw [ofHunks, inOrder, List.mergeSort_singleton]
  cases hh : ofHunk o base h with
  | error err => simp [hh, bind, Except.bind]
  | ok edits => simp [hh, bind, Except.bind, pure, Except.pure]

end Edit

end HunkEdits
